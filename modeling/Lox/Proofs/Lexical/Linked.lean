import Lox.Proofs.Lexical.Link

namespace Lox.Lexical

open Scope

/-- The names in sight are those of the scopes of a walk, each in the cell that stands for the variable
at its distance. Of a name that waits to be read nothing is said. -/
structure EnvLinked (L : Link) (S : List Names) (env : Lox.Env) (ρ : Env) : Prop where
  top : S = [] → env = ⟨L.globals, []⟩ ∧ ρ.locals = none
  inner : S ≠ [] → env.inner ≠ L.globals ∧ env.inner < L.scopes ∧ ρ.locals.isSome
  unseen : ∀ x, ¬Pending S x → distanceIn S x = none → ρ.find? x = none
  seen : ∀ x d, ¬Pending S x → distanceIn S x = some d →
    ∃ id c, env.chain[d]? = some id ∧ L.cell id x = some c ∧ ρ.find? x = some c

/-- The innermost scope has no other variables than those that may be read. -/
def Exact (L : Link) (S : List Names) (env : Lox.Env) : Prop :=
  ∀ s ∈ S.head?, ∀ x c, L.cell env.inner x = some c → s.find? x = some true

theorem Exact.cell_eq_none {L : Link} {S : List Names} {env : Lox.Env} (h : Exact L S env) {x : String}
    (hS : S ≠ []) (hx : ∀ s ∈ S.head?, s.find? x ≠ some true) : L.cell env.inner x = none := by
  cases hc : L.cell env.inner x with
  | none => rfl
  | some c =>
    obtain ⟨s, S', rfl⟩ := List.exists_cons_of_ne_nil hS
    exact absurd (h s rfl x c hc) (hx s rfl)

namespace EnvLinked

variable {L L' : Link} {S : List Names} {env : Lox.Env} {ρ : Env}

theorem mono (h : EnvLinked L S env ρ) (hL : L.Le L') : EnvLinked L' S env ρ := by
  refine ⟨fun hS ↦ hL.globals ▸ h.top hS, fun hS ↦ ?_, h.unseen, fun x d hx hd ↦ ?_⟩
  · obtain ⟨hg, hlt, hρ⟩ := h.inner hS
    exact ⟨hL.globals ▸ hg, Nat.lt_of_lt_of_le hlt hL.scopes, hρ⟩
  · obtain ⟨id, c, hid, hc, hf⟩ := h.seen x d hx hd
    exact ⟨id, c, hid, hL.cell hc, hf⟩

theorem inner_lt (h : EnvLinked L S env ρ) : env.inner < L.scopes := by
  cases S with
  | nil =>
    rw [(h.top rfl).1]
    exact L.globals_lt
  | cons s S => exact (h.inner nofun).2.1

theorem enclose (h : EnvLinked L S env ρ) (hS : Settled S) {id : ScopeId} (hid : id ≠ L.globals)
    (hlt : id < L.scopes) {s : Names} {ρ' : Env} (hρ : ρ'.locals.isSome)
    (hs : ∀ x, s.find? x = some true ∧ (∃ c, L.cell id x = some c ∧ ρ'.find? x = some c) ∨
      s.find? x = none ∧ ρ'.find? x = ρ.find? x) :
    EnvLinked L (s :: S) (env.enclose id) ρ' := by
  have hdistance (x : String) : distanceIn (s :: S) x =
      if s.contains x then some 0 else (distanceIn S x).map (· + 1) := List.findIdx?_cons
  refine ⟨nofun, fun _ ↦ ⟨hid, hlt, hρ⟩, fun x _ hx ↦ ?_, fun x d _ hd ↦ ?_⟩
  · obtain ⟨hx', -⟩ | ⟨hx', hf⟩ := hs x
    · simp [hdistance, Bindings.contains, hx'] at hx
    · rw [hf]
      refine h.unseen x (hS.not_pending x) ?_
      simpa [hdistance, Bindings.contains, hx'] using hx
  · obtain ⟨hx', c, hc, hf⟩ | ⟨hx', hf⟩ := hs x
    · obtain rfl : 0 = d := by simpa [hdistance, Bindings.contains, hx'] using hd
      exact ⟨id, c, rfl, hc, hf⟩
    · have hd' : ∃ d', distanceIn S x = some d' ∧ d' + 1 = d := by
        simpa [hdistance, Bindings.contains, hx'] using hd
      obtain ⟨d', hd', rfl⟩ := hd'
      obtain ⟨id', c, hid', hc, hf'⟩ := h.seen x d' (hS.not_pending x) hd'
      exact ⟨id', c, hid', hc, hf.trans hf'⟩

theorem enter (h : EnvLinked L S env ρ) (hS : Settled S) :
    EnvLinked L.addScope (.empty :: S) (env.enclose L.scopes) ρ.inside := by
  have hnew : L.scopes ≠ L.globals := Nat.ne_of_gt L.globals_lt
  refine (h.mono L.beside_addScope.toLe).enclose hS hnew (Nat.lt_succ_self _) rfl fun x ↦ .inr ?_
  exact ⟨rfl, ρ.find?_inside x⟩

theorem extend (h : EnvLinked L S env ρ) (hS : Settled S) {id : ScopeId} {y : String} {c : Cell}
    (hc : L.cell id y = some c) :
    EnvLinked L (Bindings.empty.insert y true :: S) (env.enclose id) (ρ.extend y c) := by
  refine h.enclose hS (L.within hc).1 (L.within hc).2.1 rfl fun x ↦ ?_
  rw [Bindings.find?_insert, Env.find?_extend]
  split
  · next heq =>
    cases heq
    exact .inl ⟨rfl, c, hc, rfl⟩
  · exact .inr ⟨rfl, rfl⟩

theorem declareIn (h : EnvLinked L S env ρ) (y : String) : EnvLinked L (declareIn y S) env ρ := by
  cases S with
  | nil => exact h
  | cons s S =>
    rw [Scope.declareIn]
    split
    · exact h
    · have hne {x : String} (hx : ¬Pending (s.insert y false :: S) x) : x ≠ y := by
        rintro rfl
        refine hx ⟨_, rfl, ?_⟩
        rw [Bindings.find?_insert, if_pos rfl]
      have hpending {x : String} (hx : ¬Pending (s.insert y false :: S) x) : ¬Pending (s :: S) x := by
        rintro ⟨_, ⟨⟩, hx'⟩
        refine hx ⟨_, rfl, ?_⟩
        rw [Bindings.find?_insert, if_neg (hne hx), hx']
      have hcons : s :: S ≠ [] := List.cons_ne_nil s S
      refine ⟨fun hnil ↦ absurd hnil (List.cons_ne_nil _ _), fun _ ↦ h.inner hcons, fun x hx hd ↦ ?_,
        fun x d hx hd ↦ ?_⟩
      · rw [distanceIn_insert, if_neg (hne hx)] at hd
        exact h.unseen x (hpending hx) hd
      · rw [distanceIn_insert, if_neg (hne hx)] at hd
        exact h.seen x d (hpending hx) hd

theorem bindIn (h : EnvLinked L S env ρ) {y : String} (hy : S ≠ [] → L.cell env.inner y = none) :
    EnvLinked (L.bind env.inner y) (bindIn y S) env ⟨ρ.locals.map (·.insert y L.cells)⟩ := by
  obtain ⟨locals⟩ := ρ
  cases S with
  | nil =>
    obtain ⟨rfl, rfl⟩ := h.top rfl
    show EnvLinked (L.bind L.globals y) [] _ ⟨none⟩
    rw [L.bind_globals]
    exact h
  | cons s S =>
    obtain ⟨hg, hlt, hρ⟩ := h.inner nofun
    have hnew := L.cell_bind ⟨hg, hlt, hy nofun⟩
    obtain ⟨b, rfl⟩ := Option.isSome_iff_exists.1 hρ
    have hfind (x : String) : (Env.mk (some (b.insert y L.cells))).find? x =
        if x = y then some L.cells else (Env.mk (some b)).find? x := Bindings.find?_insert ..
    have hpending {x : String} (hne : x ≠ y) (hx : ¬Pending (s.insert y true :: S) x) :
        ¬Pending (s :: S) x := by
      rintro ⟨_, ⟨⟩, hx'⟩
      refine hx ⟨_, rfl, ?_⟩
      rw [Bindings.find?_insert, if_neg hne, hx']
    refine ⟨nofun, fun _ ↦ ?_, fun x hx hd ↦ ?_, fun x d hx hd ↦ ?_⟩
    · rw [L.globals_bind, L.scopes_bind]
      exact ⟨hg, hlt, rfl⟩
    · rw [Scope.bindIn, distanceIn_insert] at hd
      split at hd
      · cases hd
      · next hne =>
        refine (hfind x).trans ?_
        rw [if_neg hne]
        exact h.unseen x (hpending hne hx) hd
    · rw [Scope.bindIn, distanceIn_insert] at hd
      split at hd
      · next heq =>
        cases hd
        refine ⟨env.inner, L.cells, rfl, ?_, ?_⟩
        · rw [hnew, if_pos ⟨rfl, heq⟩]
        · exact (hfind x).trans (if_pos heq)
      · next hne =>
        obtain ⟨id, c, hid, hc, hf⟩ := h.seen x d (hpending hne hx) hd
        refine ⟨id, c, hid, (L.le_bind env.inner y).cell hc, ?_⟩
        exact (hfind x).trans ((if_neg hne).trans hf)

end EnvLinked

namespace Exact

variable {L L' : Link} {S : List Names} {env : Lox.Env}

theorem beside (h : Exact L S env) (hlt : env.inner < L.scopes) (hL : L.Beside L') : Exact L' S env := by
  intro s hs x c hc
  rw [hL.old hlt] at hc
  exact h s hs x c hc

theorem declareIn (h : Exact L S env) {y : String} : Exact L (declareIn y S) env := by
  cases S with
  | nil => exact h
  | cons s S =>
    rw [Scope.declareIn]
    split
    · exact h
    · next hy =>
      rintro _ ⟨⟩ x c hc
      have hx := h s rfl x c hc
      rw [Bindings.find?_insert, if_neg, hx]
      rintro rfl
      simp [Bindings.contains, hx] at hy

theorem bindIn (h : Exact L S env) (y : String) : Exact (L.bind env.inner y) (bindIn y S) env := by
  cases S with
  | nil => nofun
  | cons s S =>
    rintro _ ⟨⟩ x c hc
    rw [Bindings.find?_insert]
    split
    · rfl
    · next hne =>
      rw [L.cell_bind_of_ne fun h' ↦ hne h'.2] at hc
      exact h s rfl x c hc

end Exact

section

variable (L : Link)

/-- Functions with the same text, in the same place of the program, which see the same variables. -/
structure ClosureLinked (c : Lox.Closure) (c' : Closure) : Prop where
  decl : c'.decl = c.decl
  isInitializer : c'.isInitializer = c.isInitializer
  place : ∃ S, At [L.program] (.function c.decl) S ∧ EnvLinked L S c.env c'.env
  this : c.isInitializer = true →
    ∃ cell, L.cell c.env.inner "this" = some cell ∧ c'.env.find? "this" = some cell

/-- Methods, which see the same variables but for `this`. -/
structure MethodLinked (c : Lox.Closure) (c' : Closure) : Prop where
  decl : c'.decl = c.decl
  isInitializer : c'.isInitializer = c.isInitializer
  place : ∃ S, At [L.program] (.function c.decl) (thisNames :: S) ∧ EnvLinked L S c.env c'.env

inductive ClassLinked : Lox.Class → Class → Prop
  | base {id : Nat} {name : String} {methods : Bindings Lox.Closure} {methods' : Bindings Closure}
      (hm : ∀ x, Option.Rel (MethodLinked L) (methods.find? x) (methods'.find? x)) :
      ClassLinked (.mk id name none methods) (.mk id name none methods')
  | derived {id : Nat} {name : String} {c : Lox.Class} {c' : Class} {methods : Bindings Lox.Closure}
      {methods' : Bindings Closure} (hc : ClassLinked c c')
      (hm : ∀ x, Option.Rel (MethodLinked L) (methods.find? x) (methods'.find? x)) :
      ClassLinked (.mk id name (some c) methods) (.mk id name (some c') methods')

inductive ValueLinked : Lox.Value → Value → Prop
  | nil : ValueLinked .nil .nil
  | bool (b : Bool) : ValueLinked (.bool b) (.bool b)
  | number (x : Float) : ValueLinked (.number x) (.number x)
  | string (s : String) : ValueLinked (.string s) (.string s)
  | clock : ValueLinked (.callable (.native ⟨0, "clock", 0⟩)) (.callable .clock)
  | function (id : Nat) {c : Lox.Closure} {c' : Closure} (h : ClosureLinked L c c') :
      ValueLinked (.callable (.function id c)) (.callable (.function id c'))
  | cls {c : Lox.Class} {c' : Class} (h : ClassLinked L c c') :
      ValueLinked (.callable (.cls c)) (.callable (.cls c'))
  | object (id : ObjectId) : ValueLinked (.object id) (.object id)

structure ObjectLinked (o : Lox.Object) (o' : Object) : Prop where
  cls : ClassLinked L o.cls o'.cls
  fields : ∀ x, Option.Rel (ValueLinked L) (o.fields.find? x) (o'.fields.find? x)

structure StoreLinked (σ : Store) (s : State) : Prop where
  scopes : σ.scopes.size = L.scopes
  cells : s.cells.size = L.cells
  cell : ∀ {id x c}, L.cell id x = some c →
    Option.Rel (ValueLinked L) (σ.read? id x) s.cells[c]?
  globals : ∀ x, Option.Rel (ValueLinked L) (σ.read? L.globals x) (s.globals.find? x)
  objects : ∀ o : ObjectId, Option.Rel (ObjectLinked L) (σ.object? o) s.objects[o]?
  nextObject : σ.nextObject = s.objects.size
  nextIdentity : σ.nextIdentity = s.nextIdentity

end

section

variable {L L' : Link} (hL : L.Le L')
include hL

theorem ClosureLinked.mono {c : Lox.Closure} {c' : Closure} (h : ClosureLinked L c c') :
    ClosureLinked L' c c' := by
  obtain ⟨S, hat, henv⟩ := h.place
  refine ⟨h.decl, h.isInitializer, ⟨S, hL.program ▸ hat, henv.mono hL⟩, fun hi ↦ ?_⟩
  obtain ⟨cell, hc, hf⟩ := h.this hi
  exact ⟨cell, hL.cell hc, hf⟩

theorem MethodLinked.mono {c : Lox.Closure} {c' : Closure} (h : MethodLinked L c c') :
    MethodLinked L' c c' := by
  obtain ⟨S, hat, henv⟩ := h.place
  exact ⟨h.decl, h.isInitializer, S, hL.program ▸ hat, henv.mono hL⟩

theorem ClassLinked.mono {c : Lox.Class} {c' : Class} (h : ClassLinked L c c') : ClassLinked L' c c' := by
  induction h with
  | base hm => exact .base fun x ↦ rel_imp (hm x) fun _ _ ↦ .mono hL
  | derived _ hm ih => exact .derived ih fun x ↦ rel_imp (hm x) fun _ _ ↦ .mono hL

theorem ValueLinked.mono {v : Lox.Value} {v' : Value} (h : ValueLinked L v v') : ValueLinked L' v v' := by
  cases h with
  | function id h => exact .function id (h.mono hL)
  | cls h => exact .cls (h.mono hL)
  | nil => exact .nil
  | bool b => exact .bool b
  | number x => exact .number x
  | string s => exact .string s
  | clock => exact .clock
  | object id => exact .object id

theorem ObjectLinked.mono {o : Lox.Object} {o' : Object} (h : ObjectLinked L o o') :
    ObjectLinked L' o o' :=
  ⟨h.cls.mono hL, fun x ↦ rel_imp (h.fields x) fun _ _ ↦ .mono hL⟩

end

theorem ClassLinked.findMethod? {L : Link} {c : Lox.Class} {c' : Class} (h : ClassLinked L c c')
    (x : String) : Option.Rel (MethodLinked L) (c.findMethod? x) (c'.findMethod? x) := by
  induction h with
  | base hm => exact hm x
  | @derived _ _ _ _ methods methods' _ hm ih =>
    rw [Lox.Class.findMethod?, Class.findMethod?]
    have hx := hm x
    generalize methods.find? x = m at hx ⊢
    generalize methods'.find? x = m' at hx ⊢
    cases hx with
    | some h => exact .some h
    | none => exact ih

namespace StoreLinked

variable {L L' : Link} {σ : Store} {s : State}

theorem addScope (h : StoreLinked L σ s) : StoreLinked L.addScope (σ.addScope .empty) s := by
  have hL := L.beside_addScope.toLe
  have hold {id : ScopeId} (hid : id < L.scopes) (x : String) :
      (σ.addScope .empty).read? id x = σ.read? id x := by
    rw [Store.read?_addScope, if_neg]
    rintro rfl
    exact Nat.lt_irrefl _ (h.scopes ▸ hid)
  refine ⟨?_, h.cells, fun hc ↦ ?_, fun x ↦ ?_, fun o ↦ ?_, h.nextObject, h.nextIdentity⟩
  · rw [Store.size_addScope, h.scopes]
    rfl
  · rw [hold (L.within hc).2.1]
    exact rel_imp (h.cell hc) fun _ _ ↦ .mono hL
  · rw [show L.addScope.globals = L.globals from rfl, hold L.globals_lt]
    exact rel_imp (h.globals x) fun _ _ ↦ .mono hL
  · exact rel_imp (h.objects o) fun _ _ ↦ .mono hL

theorem bind (h : StoreLinked L σ s) {id : ScopeId} {x : String}
    (hid : id ≠ L.globals ∧ id < L.scopes ∧ L.cell id x = none) {v : Lox.Value} {v' : Value}
    (hv : ValueLinked (L.bind id x) v v') :
    StoreLinked (L.bind id x) (σ.define id x v) { s with cells := s.cells.push v' } := by
  have hL := L.le_bind id x
  refine ⟨?_, ?_, fun hc ↦ ?_, fun y ↦ ?_, fun o ↦ ?_, h.nextObject, h.nextIdentity⟩
  · rw [Store.size_define, h.scopes, L.scopes_bind]
  · rw [Array.size_push, h.cells, L.cells_bind hid]
  · rw [L.cell_bind hid] at hc
    split at hc
    · next heq =>
      cases hc
      rw [Store.read?_define, if_pos ⟨heq.1, heq.2, h.scopes ▸ hid.2.1⟩, ← h.cells,
        Array.getElem?_push_size]
      exact .some hv
    · next hne =>
      have hlt : _ < s.cells.size := h.cells ▸ (L.within hc).2.2
      rw [Store.read?_define, if_neg fun h' ↦ hne ⟨h'.1, h'.2.1⟩, Array.getElem?_push_lt hlt,
        ← Array.getElem?_eq_getElem hlt]
      exact rel_imp (h.cell hc) fun _ _ ↦ .mono hL
  · rw [L.globals_bind, Store.read?_define, if_neg fun h' ↦ hid.1 h'.1.symm]
    exact rel_imp (h.globals y) fun _ _ ↦ .mono hL
  · exact rel_imp (h.objects o) fun _ _ ↦ .mono hL

theorem contains (h : StoreLinked L σ s) {id : ScopeId} {x : String} {c : Cell}
    (hc : L.cell id x = some c) : σ.contains id x = true := by
  have hrel := h.cell hc
  have hlt : c < s.cells.size := h.cells ▸ (L.within hc).2.2
  rw [Array.getElem?_eq_getElem hlt] at hrel
  rw [Store.contains_eq]
  generalize σ.read? id x = r at hrel ⊢
  cases hrel
  rfl

theorem addCell (h : StoreLinked L σ s) (x : String) {v : Lox.Value} {v' : Value}
    (hv : ValueLinked L v v') :
    StoreLinked (L.addCell x) (σ.addScope (Bindings.empty.insert x v))
      { s with cells := s.cells.push v' } := by
  have hdefine : σ.addScope (Bindings.empty.insert x v) = (σ.addScope .empty).define L.scopes x v := by
    rw [← h.scopes]
    exact σ.addScope_insert .empty x v
  rw [hdefine]
  exact h.addScope.bind (L.bind_fresh x) (hv.mono (L.beside_addCell x).toLe)

theorem elsewhere (h : StoreLinked L σ s) (ρ : Env) (d : Nat) (c : Clock) (k : Sink) :
    StoreLinked L σ { s with env := ρ, depth := d, clock := c, sink := k } :=
  ⟨h.scopes, h.cells, h.cell, h.globals, h.objects, h.nextObject, h.nextIdentity⟩

/-- A variable takes a value, and its cell the same one. -/
theorem assign (h : StoreLinked L σ s) {id : ScopeId} {x : String} {c : Cell}
    (hc : L.cell id x = some c) {v : Lox.Value} {v' : Value} (hv : ValueLinked L v v') :
    StoreLinked L (σ.define id x v) { s with cells := s.cells.setIfInBounds c v' } := by
  have hid := L.within hc
  refine ⟨?_, ?_, fun {id' x' c'} hc' ↦ ?_, fun y ↦ ?_, h.objects, h.nextObject, h.nextIdentity⟩
  · rw [Store.size_define, h.scopes]
  · rw [Array.size_setIfInBounds, h.cells]
  · rw [Store.read?_define, Array.getElem?_setIfInBounds]
    split
    · next heq =>
      obtain ⟨rfl, rfl, -⟩ := heq
      obtain rfl : c = c' := Option.some.inj (hc.symm.trans hc')
      rw [if_pos rfl, if_pos (h.cells ▸ hid.2.2)]
      exact .some hv
    · next hne =>
      rw [if_neg]
      · exact h.cell hc'
      · rintro rfl
        obtain ⟨rfl, rfl⟩ := L.injective hc hc'
        exact hne ⟨rfl, rfl, h.scopes ▸ hid.2.1⟩
  · rw [Store.read?_define, if_neg fun h' ↦ hid.1 h'.1.symm]
    exact h.globals y

theorem setGlobal (h : StoreLinked L σ s) (x : String) {v : Lox.Value} {v' : Value}
    (hv : ValueLinked L v v') :
    StoreLinked L (σ.define L.globals x v) { s with globals := s.globals.insert x v' } := by
  refine ⟨?_, h.cells, fun hc ↦ ?_, fun y ↦ ?_, h.objects, h.nextObject, h.nextIdentity⟩
  · rw [Store.size_define, h.scopes]
  · rw [Store.read?_define, if_neg fun h' ↦ (L.within hc).1 h'.1]
    exact h.cell hc
  · rw [Store.read?_define, Bindings.find?_insert]
    split
    · next heq =>
      rw [if_pos heq.2.1]
      exact .some hv
    · next hne =>
      rw [if_neg fun heq ↦ hne ⟨rfl, heq, h.scopes ▸ L.globals_lt⟩]
      exact h.globals y

theorem addObject (h : StoreLinked L σ s) {c : Lox.Class} {c' : Class} (hc : ClassLinked L c c') :
    StoreLinked L (σ.addObject c) { s with objects := s.objects.push ⟨c', .empty⟩ } := by
  refine ⟨h.scopes, h.cells, h.cell, h.globals, fun o ↦ ?_, ?_, h.nextIdentity⟩
  · rw [Store.object?_addObject, Array.getElem?_push, ← h.nextObject]
    split
    · exact .some ⟨hc, fun _ ↦ .none⟩
    · exact h.objects o
  · have hsize : σ.objects.size = s.objects.size := h.nextObject
    simp [Store.addObject, Store.nextObject, hsize]

theorem setField (h : StoreLinked L σ s) (id : ObjectId) (f : String) {v : Lox.Value} {v' : Value}
    (hv : ValueLinked L v v') : StoreLinked L (σ.setField id f v) (s.setField id f v') := by
  refine ⟨h.scopes, h.cells, h.cell, h.globals, fun o ↦ ?_, ?_, h.nextIdentity⟩
  · have ho := h.objects o
    rw [Store.object?_setField, State.setField, Array.getElem?_modify]
    by_cases heq : o = id
    · rw [if_pos heq, if_pos heq.symm]
      generalize σ.object? o = a at ho ⊢
      generalize s.objects[o]? = a' at ho ⊢
      cases ho with
      | none => exact .none
      | some ho =>
        refine .some ⟨ho.cls, fun x ↦ ?_⟩
        rw [Bindings.find?_insert, Bindings.find?_insert]
        split
        · exact .some hv
        · exact ho.fields x
    · rw [if_neg heq, if_neg (Ne.symm heq)]
      exact ho
  · have hsize : σ.objects.size = s.objects.size := h.nextObject
    simp [Store.setField, Store.nextObject, State.setField, hsize]

theorem freshIdentity (h : StoreLinked L σ s) :
    StoreLinked L σ.freshIdentity { s with nextIdentity := s.nextIdentity + 1 } :=
  ⟨h.scopes, h.cells, h.cell, h.globals, h.objects, h.nextObject, congrArg (· + 1) h.nextIdentity⟩

end StoreLinked

end Lox.Lexical
