import Lox.Machine.Host
import Lox.Proofs.Skip.Code
import Lox.Proofs.Store

namespace Lox.Skip

/-- Which scope of one store stands for which of another, as far as two runs have come. Scopes stand for
at most one another. -/
structure Link where
  rel : ScopeId → ScopeId → Prop
  left : Nat
  right : Nat
  within : ∀ {a a'}, rel a a' → a < left ∧ a' < right
  unique : ∀ {a a' b b'}, rel a a' → rel b b' → (a = b ↔ a' = b')

namespace Link

/-- A link that has grown. -/
structure Le (L L' : Link) : Prop where
  left : L.left ≤ L'.left
  right : L.right ≤ L'.right
  rel : ∀ {a a'}, L.rel a a' → L'.rel a a'

def self (n : Nat) : Link where
  rel a a' := a = a' ∧ a < n
  left := n
  right := n
  within h := ⟨h.2, h.1 ▸ h.2⟩
  unique h h' := by rw [h.1, h'.1]

def add (L : Link) : Link where
  rel a a' := L.rel a a' ∨ a = L.left ∧ a' = L.right
  left := L.left + 1
  right := L.right + 1
  within h := by
    obtain h | ⟨rfl, rfl⟩ := h
    · exact ⟨Nat.lt_succ_of_lt (L.within h).1, Nat.lt_succ_of_lt (L.within h).2⟩
    · exact ⟨Nat.lt_succ_self _, Nat.lt_succ_self _⟩
  unique h h' := by
    obtain h | ⟨rfl, rfl⟩ := h <;> obtain h' | ⟨rfl, rfl⟩ := h'
    · exact L.unique h h'
    · exact iff_of_false (Nat.ne_of_lt (L.within h).1) (Nat.ne_of_lt (L.within h).2)
    · exact iff_of_false (Nat.ne_of_gt (L.within h').1) (Nat.ne_of_gt (L.within h').2)
    · exact iff_of_true rfl rfl

def addLeft (L : Link) : Link where
  rel := L.rel
  left := L.left + 1
  right := L.right
  within h := ⟨Nat.lt_succ_of_lt (L.within h).1, (L.within h).2⟩
  unique := L.unique

def addRight (L : Link) : Link where
  rel := L.rel
  left := L.left
  right := L.right + 1
  within h := ⟨(L.within h).1, Nat.lt_succ_of_lt (L.within h).2⟩
  unique := L.unique

variable {L L' L'' : Link}

theorem Le.refl (L : Link) : L.Le L := ⟨Nat.le_refl _, Nat.le_refl _, id⟩

theorem Le.trans (h : L.Le L') (h' : L'.Le L'') : L.Le L'' :=
  ⟨Nat.le_trans h.left h'.left, Nat.le_trans h.right h'.right, fun hr ↦ h'.rel (h.rel hr)⟩

theorem le_add (L : Link) : L.Le L.add := ⟨Nat.le_succ _, Nat.le_succ _, .inl⟩

theorem le_addLeft (L : Link) : L.Le L.addLeft := ⟨Nat.le_succ _, Nat.le_refl _, id⟩

theorem le_addRight (L : Link) : L.Le L.addRight := ⟨Nat.le_refl _, Nat.le_succ _, id⟩

theorem add_rel (L : Link) : L.add.rel L.left L.right := .inr ⟨rfl, rfl⟩

end Link

/-- Chains of scopes that stand for each other, but for one that the second lacks. -/
inductive ChainLinked (L : Link) : Gap → List ScopeId → List ScopeId → Prop
  | same {c c' : List ScopeId} (h : List.Forall₂ L.rel c c') : ChainLinked L .nowhere c c'
  | here (id : ScopeId) {c c' : List ScopeId} (h : List.Forall₂ L.rel c c') :
      ChainLinked L (.out 0) (id :: c) c'
  | inside {n : Nat} {a a' : ScopeId} {c c' : List ScopeId} (ha : L.rel a a')
      (h : ChainLinked L (.out n) c c') : ChainLinked L (.out (n + 1)) (a :: c) (a' :: c')

namespace ChainLinked

variable {L L' : Link} {g : Gap} {ids ids' : List ScopeId}

theorem mono (h : ChainLinked L g ids ids') (hL : L.Le L') : ChainLinked L' g ids ids' := by
  induction h with
  | same h => exact .same (h.imp fun _ _ ↦ hL.rel)
  | here id h => exact .here id (h.imp fun _ _ ↦ hL.rel)
  | inside ha _ ih => exact .inside (hL.rel ha) ih

theorem cons (h : ChainLinked L g ids ids') {a a' : ScopeId} (ha : L.rel a a') :
    ChainLinked L g.inside (a :: ids) (a' :: ids') := by
  cases g with
  | nowhere =>
    cases h with
    | same h => exact .same (.cons ha h)
  | out n => exact .inside ha h

theorem getElem?_rel {ids ids' : List ScopeId} (h : List.Forall₂ L.rel ids ids') (d : Nat) :
    Option.Rel L.rel ids[d]? ids'[d]? := by
  induction h generalizing d with
  | nil => exact .none
  | cons ha _ ih =>
    cases d with
    | zero => exact .some ha
    | succ d => exact ih d

theorem getElem? (h : ChainLinked L g ids ids') {d d' : Nat} (hd : Reach g d d') :
    Option.Rel L.rel ids[d]? ids'[d']? := by
  induction h generalizing d d' with
  | same h =>
    cases hd with
    | same => exact getElem?_rel h d
  | here id h =>
    cases hd with
    | inner hlt => cases hlt
    | outer => exact getElem?_rel h d'
  | inside ha _ ih =>
    cases hd with
    | inner hlt =>
      cases d with
      | zero => exact .some ha
      | succ d => exact ih (.inner (Nat.lt_of_succ_lt_succ hlt))
    | @outer _ d hle =>
      cases d' with
      | zero => cases hle
      | succ d' => exact ih (.outer (Nat.le_of_succ_le_succ hle))

end ChainLinked

/-- Environments in which code finds the same scopes across a gap. -/
def EnvLinked (L : Link) (g : Gap) (env env' : Env) : Prop := ChainLinked L g env.chain env'.chain

section

variable (D : Distances) (L : Link)

structure ClosureLinked (c c' : Closure) : Prop where
  isInitializer : c'.isInitializer = c.isInitializer
  place : ∃ g, g ≠ .out 0 ∧ FunctionLinked D g c.decl c'.decl ∧ EnvLinked L g c.env c'.env

/-- Methods lack the scope of `this`. -/
structure MethodLinked (c c' : Closure) : Prop where
  isInitializer : c'.isInitializer = c.isInitializer
  place : ∃ g : Gap, FunctionLinked D g.inside c.decl c'.decl ∧ EnvLinked L g c.env c'.env

inductive ClassLinked : Class → Class → Prop
  | base {id : Nat} {name : String} {methods methods' : Bindings Closure}
      (hm : ∀ x, Option.Rel (MethodLinked D L) (methods.find? x) (methods'.find? x)) :
      ClassLinked (.mk id name none methods) (.mk id name none methods')
  | derived {id : Nat} {name : String} {c c' : Class} {methods methods' : Bindings Closure}
      (hc : ClassLinked c c')
      (hm : ∀ x, Option.Rel (MethodLinked D L) (methods.find? x) (methods'.find? x)) :
      ClassLinked (.mk id name (some c) methods) (.mk id name (some c') methods')

inductive CallableLinked : Callable → Callable → Prop
  | native (f : Native) : CallableLinked (.native f) (.native f)
  | function (id : Nat) {c c' : Closure} (h : ClosureLinked D L c c') :
      CallableLinked (.function id c) (.function id c')
  | cls {c c' : Class} (h : ClassLinked D L c c') : CallableLinked (.cls c) (.cls c')

/-- The same value, but for the scopes and the copies of code that it refers to. -/
inductive ValueLinked : Value → Value → Prop
  | nil : ValueLinked .nil .nil
  | bool (b : Bool) : ValueLinked (.bool b) (.bool b)
  | number (x : Float) : ValueLinked (.number x) (.number x)
  | string (s : String) : ValueLinked (.string s) (.string s)
  | callable {c c' : Callable} (h : CallableLinked D L c c') : ValueLinked (.callable c) (.callable c')
  | object (id : ObjectId) : ValueLinked (.object id) (.object id)

structure ObjectLinked (o o' : Object) : Prop where
  cls : ClassLinked D L o.cls o'.cls
  fields : ∀ x, Option.Rel (ValueLinked D L) (o.fields.find? x) (o'.fields.find? x)

/-- Stores that hold the same in scopes that stand for each other, and in all objects. -/
structure StoreLinked (σ σ' : Store) : Prop where
  left : σ.scopes.size = L.left
  right : σ'.scopes.size = L.right
  scopes : ∀ {a a'}, L.rel a a' → ∀ x, Option.Rel (ValueLinked D L) (σ.read? a x) (σ'.read? a' x)
  objects : ∀ o, Option.Rel (ObjectLinked D L) (σ.object? o) (σ'.object? o)
  nextObject : σ'.nextObject = σ.nextObject
  nextIdentity : σ'.nextIdentity = σ.nextIdentity

end

/-- What host functions do next, on values that stand for each other: the same, now and after any call
back. -/
inductive ActionLinked (D : Distances) : Link → Action → Action → Prop
  | done {L : Link} {v v' : Value} (h : ValueLinked D L v v') : ActionLinked D L (.done v) (.done v')
  | fail {L : Link} (text : String) : ActionLinked D L (.fail text) (.fail text)
  | time {L : Link} {next next' : Float → Action} (h : ∀ x, ActionLinked D L (next x) (next' x)) :
      ActionLinked D L (.time next) (.time next')
  | call {L : Link} {c c' : Callable} {vs vs' : List Value} {line : Nat}
      {next next' : Except Fault Value → Action} (hc : CallableLinked D L c c')
      (hvs : List.Forall₂ (ValueLinked D L) vs vs')
      (hok : ∀ {L' v v'}, L.Le L' → ValueLinked D L' v v' → ActionLinked D L' (next (.ok v)) (next' (.ok v')))
      (herror : ∀ {L'} f, L.Le L' → ActionLinked D L' (next (.error f)) (next' (.error f))) :
      ActionLinked D L (.call c vs line next) (.call c' vs' line next')

def Uniform (D : Distances) (f : HostFunction) : Prop :=
  ∀ {L : Link} {vs vs' : List Value}, List.Forall₂ (ValueLinked D L) vs vs' → ActionLinked D L (f vs) (f vs')

section

variable {D : Distances} {L L' : Link} (hL : L.Le L')
include hL

theorem ClosureLinked.mono {c c' : Closure} (h : ClosureLinked D L c c') : ClosureLinked D L' c c' := by
  obtain ⟨g, hg, hd, henv⟩ := h.place
  exact ⟨h.isInitializer, g, hg, hd, ChainLinked.mono henv hL⟩

theorem MethodLinked.mono {c c' : Closure} (h : MethodLinked D L c c') : MethodLinked D L' c c' := by
  obtain ⟨g, hd, henv⟩ := h.place
  exact ⟨h.isInitializer, g, hd, ChainLinked.mono henv hL⟩

theorem ClassLinked.mono {c c' : Class} (h : ClassLinked D L c c') : ClassLinked D L' c c' := by
  induction h with
  | base hm => exact .base fun x ↦ rel_imp (hm x) fun _ _ ↦ .mono hL
  | derived _ hm ih => exact .derived ih fun x ↦ rel_imp (hm x) fun _ _ ↦ .mono hL

theorem CallableLinked.mono {c c' : Callable} (h : CallableLinked D L c c') :
    CallableLinked D L' c c' := by
  cases h with
  | native f => exact .native f
  | function id h => exact .function id (h.mono hL)
  | cls h => exact .cls (h.mono hL)

theorem ValueLinked.mono {v v' : Value} (h : ValueLinked D L v v') : ValueLinked D L' v v' := by
  cases h with
  | callable h => exact .callable (h.mono hL)
  | nil => exact .nil
  | bool b => exact .bool b
  | number x => exact .number x
  | string s => exact .string s
  | object id => exact .object id

theorem ObjectLinked.mono {o o' : Object} (h : ObjectLinked D L o o') : ObjectLinked D L' o o' :=
  ⟨h.cls.mono hL, fun x ↦ rel_imp (h.fields x) fun _ _ ↦ .mono hL⟩

end

theorem ClassLinked.findMethod? {D : Distances} {L : Link} {c c' : Class} (h : ClassLinked D L c c')
    (x : String) : Option.Rel (MethodLinked D L) (c.findMethod? x) (c'.findMethod? x) := by
  induction h with
  | base hm => exact hm x
  | @derived _ _ _ _ methods methods' _ hm ih =>
    rw [Class.findMethod?, Class.findMethod?]
    have hx := hm x
    generalize methods.find? x = m at hx ⊢
    generalize methods'.find? x = m' at hx ⊢
    cases hx with
    | some h => exact .some h
    | none => exact ih

namespace StoreLinked

variable {D : Distances} {L : Link} {σ σ' : Store}

theorem contains_eq (h : StoreLinked D L σ σ') {a a' : ScopeId} (ha : L.rel a a') (x : String) :
    σ'.contains a' x = σ.contains a x := by
  have hx := h.scopes ha x
  rw [Store.contains_eq, Store.contains_eq]
  generalize σ.read? a x = v at hx ⊢
  generalize σ'.read? a' x = v' at hx ⊢
  cases hx <;> rfl

theorem locateAt? (h : StoreLinked D L σ σ') {g : Gap} {env env' : Env} (henv : EnvLinked L g env env')
    {d d' : Nat} (hd : Reach g d d') (x : String) :
    Option.Rel L.rel (σ.locateAt? env d x) (σ'.locateAt? env' d' x) := by
  have hid := ChainLinked.getElem? henv hd
  rw [Store.locateAt?, Store.locateAt?]
  generalize env.chain[d]? = o at hid ⊢
  generalize env'.chain[d']? = o' at hid ⊢
  cases hid with
  | none => exact .none
  | some hid =>
    rw [Option.filter_some, Option.filter_some, h.contains_eq hid]
    split
    · exact .some hid
    · exact .none

theorem getAt? (h : StoreLinked D L σ σ') {g : Gap} {env env' : Env} (henv : EnvLinked L g env env')
    {d d' : Nat} (hd : Reach g d d') (x : String) :
    Option.Rel (ValueLinked D L) (σ.getAt? env d x) (σ'.getAt? env' d' x) := by
  have hid := h.locateAt? henv hd x
  rw [Store.getAt?, Store.getAt?]
  generalize σ.locateAt? env d x = o at hid ⊢
  generalize σ'.locateAt? env' d' x = o' at hid ⊢
  cases hid with
  | none => exact .none
  | some hid => exact h.scopes hid x

theorem addScope (h : StoreLinked D L σ σ') {b b' : Bindings Value}
    (hb : ∀ x, Option.Rel (ValueLinked D L) (b.find? x) (b'.find? x)) :
    StoreLinked D L.add (σ.addScope b) (σ'.addScope b') := by
  have hL := L.le_add
  refine ⟨?_, ?_, fun {a a'} ha x ↦ ?_, fun o ↦ ?_, h.nextObject, h.nextIdentity⟩
  · rw [Store.size_addScope, h.left]
    rfl
  · rw [Store.size_addScope, h.right]
    rfl
  · rw [Store.read?_addScope, Store.read?_addScope]
    have hnew : a = σ.nextScope ↔ a' = σ'.nextScope := by
      rw [show σ.nextScope = L.left from h.left, show σ'.nextScope = L.right from h.right]
      exact L.add.unique ha L.add_rel
    by_cases heq : a = σ.nextScope
    · rw [if_pos heq, if_pos (hnew.1 heq)]
      exact rel_imp (hb x) fun _ _ ↦ .mono hL
    · rw [if_neg heq, if_neg (mt hnew.2 heq)]
      obtain ha | ⟨rfl, -⟩ := ha
      · exact rel_imp (h.scopes ha x) fun _ _ ↦ .mono hL
      · exact absurd h.left.symm heq
  · exact rel_imp (h.objects o) fun _ _ ↦ .mono hL

theorem addLeft (h : StoreLinked D L σ σ') (b : Bindings Value) :
    StoreLinked D L.addLeft (σ.addScope b) σ' := by
  have hL := L.le_addLeft
  refine ⟨?_, h.right, fun {a a'} ha x ↦ ?_, fun o ↦ ?_, h.nextObject, h.nextIdentity⟩
  · rw [Store.size_addScope, h.left]
    rfl
  · rw [Store.read?_addScope, if_neg]
    · exact rel_imp (h.scopes ha x) fun _ _ ↦ .mono hL
    · rintro rfl
      exact Nat.lt_irrefl _ (h.left ▸ (L.within ha).1)
  · exact rel_imp (h.objects o) fun _ _ ↦ .mono hL

theorem addRight (h : StoreLinked D L σ σ') (b : Bindings Value) :
    StoreLinked D L.addRight σ (σ'.addScope b) := by
  have hL := L.le_addRight
  refine ⟨h.left, ?_, fun {a a'} ha x ↦ ?_, fun o ↦ ?_, h.nextObject, h.nextIdentity⟩
  · rw [Store.size_addScope, h.right]
    rfl
  · rw [Store.read?_addScope, if_neg]
    · exact rel_imp (h.scopes ha x) fun _ _ ↦ .mono hL
    · rintro rfl
      exact Nat.lt_irrefl _ (h.right ▸ (L.within ha).2)
  · exact rel_imp (h.objects o) fun _ _ ↦ .mono hL

theorem define (h : StoreLinked D L σ σ') {a a' : ScopeId} (ha : L.rel a a') (x : String) {v v' : Value}
    (hv : ValueLinked D L v v') : StoreLinked D L (σ.define a x v) (σ'.define a' x v') := by
  refine ⟨?_, ?_, fun {b b'} hb y ↦ ?_, h.objects, h.nextObject, h.nextIdentity⟩
  · rw [Store.size_define, h.left]
  · rw [Store.size_define, h.right]
  · have hlt := L.within ha
    rw [← h.left, ← h.right] at hlt
    rw [Store.read?_define, Store.read?_define]
    by_cases heq : b = a ∧ y = x
    · rw [if_pos ⟨heq.1, heq.2, hlt.1⟩, if_pos ⟨(L.unique hb ha).1 heq.1, heq.2, hlt.2⟩]
      exact .some hv
    · rw [if_neg fun h' ↦ heq ⟨h'.1, h'.2.1⟩, if_neg fun h' ↦ heq ⟨(L.unique hb ha).2 h'.1, h'.2.1⟩]
      exact h.scopes hb y

theorem addObject (h : StoreLinked D L σ σ') {c c' : Class} (hc : ClassLinked D L c c') :
    StoreLinked D L (σ.addObject c) (σ'.addObject c') := by
  refine ⟨h.left, h.right, h.scopes, fun o ↦ ?_, ?_, h.nextIdentity⟩
  · rw [Store.object?_addObject, Store.object?_addObject, h.nextObject]
    split
    · exact .some ⟨hc, fun _ ↦ .none⟩
    · exact h.objects o
  · have hsize : σ'.objects.size = σ.objects.size := h.nextObject
    simp [Store.addObject, Store.nextObject, hsize]

theorem setField (h : StoreLinked D L σ σ') (id : ObjectId) (x : String) {v v' : Value}
    (hv : ValueLinked D L v v') : StoreLinked D L (σ.setField id x v) (σ'.setField id x v') := by
  refine ⟨h.left, h.right, h.scopes, fun o ↦ ?_, ?_, h.nextIdentity⟩
  · have ho := h.objects o
    rw [Store.object?_setField, Store.object?_setField]
    split
    · generalize σ.object? o = a at ho ⊢
      generalize σ'.object? o = a' at ho ⊢
      cases ho with
      | none => exact .none
      | some ho =>
        refine .some ⟨ho.cls, fun y ↦ ?_⟩
        rw [Bindings.find?_insert, Bindings.find?_insert]
        split
        · exact .some hv
        · exact ho.fields y
    · exact ho
  · have hsize : σ'.objects.size = σ.objects.size := h.nextObject
    simp [Store.setField, Store.nextObject, hsize]

theorem freshIdentity (h : StoreLinked D L σ σ') : StoreLinked D L σ.freshIdentity σ'.freshIdentity :=
  ⟨h.left, h.right, h.scopes, h.objects, h.nextObject, congrArg (· + 1) h.nextIdentity⟩

end StoreLinked

end Lox.Skip
