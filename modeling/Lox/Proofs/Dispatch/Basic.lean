import Lox.Proofs.Machine.ScopedStep

namespace Lox

open Scope

mutual

def Expr.own : Expr → List Ref
  | .literal _ _ | .var _ => []
  | .this ref | .super ref _ => [ref]
  | .assign _ e | .unary _ e | .grouping e | .get e _ => e.own
  | .binary left _ right | .logical left _ right => left.own ++ right.own
  | .call callee arguments _ => callee.own ++ Expr.ownOf arguments
  | .set object _ value => object.own ++ value.own

def Expr.ownOf : List Expr → List Ref
  | [] => []
  | e :: es => e.own ++ Expr.ownOf es

end

def Expr.optionalOwn : Option Expr → List Ref
  | none => []
  | some e => e.own

mutual

/-- The occurrences of `this` and `super` that mean the object of the method around them: those in a
class declared there mean other objects. -/
def Stmt.own : Stmt → List Ref
  | .expr e | .print e => e.own
  | .var _ value | .ret _ value => Expr.optionalOwn value
  | .block body => Stmt.ownOf body
  | .cond test yes none => test.own ++ yes.own
  | .cond test yes (some no) => test.own ++ (yes.own ++ no.own)
  | .loop test body => test.own ++ body.own
  | .function d => d.own
  | .classDecl _ _ _ => []

def Stmt.ownOf : List Stmt → List Ref
  | [] => []
  | s :: ss => s.own ++ Stmt.ownOf ss

def FunctionDecl.own : FunctionDecl → List Ref
  | .mk _ _ body => Stmt.ownOf body

end

section

variable {r : Ref}

mutual

theorem Expr.mem_refs_of_own : ∀ {e : Expr}, r ∈ e.own → r ∈ e.refs
  | .literal _ _, h | .var _, h => nomatch h
  | .this _, h | .super _ _, h => h
  | .assign _ _, h => List.mem_append_left _ (mem_refs_of_own h)
  | .unary _ e, h | .grouping e, h | .get e _, h => mem_refs_of_own (e := e) h
  | .binary _ _ _, h | .logical _ _ _, h =>
    List.mem_append.2 ((List.mem_append.1 h).imp mem_refs_of_own mem_refs_of_own)
  | .call _ _ _, h => List.mem_append.2 ((List.mem_append.1 h).imp mem_refs_of_own mem_refsOf_of_ownOf)
  | .set _ _ _, h => List.mem_append.2 ((List.mem_append.1 h).symm.imp mem_refs_of_own mem_refs_of_own)

theorem Expr.mem_refsOf_of_ownOf : ∀ {es : List Expr}, r ∈ Expr.ownOf es → r ∈ Expr.refsOf es
  | [], h => nomatch h
  | _ :: _, h => List.mem_append.2 ((List.mem_append.1 h).imp mem_refs_of_own mem_refsOf_of_ownOf)

end

theorem Expr.mem_optionalRefs_of_optionalOwn {o : Option Expr} (h : r ∈ Expr.optionalOwn o) :
    r ∈ Expr.optionalRefs o := by
  cases o with
  | none => cases h
  | some e => exact mem_refs_of_own (e := e) h

mutual

theorem Stmt.mem_refs_of_own : ∀ {s : Stmt}, r ∈ s.own → r ∈ s.refs
  | .expr e, h | .print e, h => Expr.mem_refs_of_own (e := e) h
  | .var _ value, h | .ret _ value, h => Expr.mem_optionalRefs_of_optionalOwn (o := value) h
  | .block body, h => Stmt.mem_refsOf_of_ownOf body h
  | .cond _ _ none, h | .loop _ _, h =>
    List.mem_append.2 ((List.mem_append.1 h).imp Expr.mem_refs_of_own Stmt.mem_refs_of_own)
  | .cond _ _ (some _), h => List.mem_append.2 ((List.mem_append.1 h).imp Expr.mem_refs_of_own fun h ↦
      List.mem_append.2 ((List.mem_append.1 h).imp Stmt.mem_refs_of_own Stmt.mem_refs_of_own))
  | .function d, h => d.mem_refs_of_own h
  | .classDecl _ _ _, h => nomatch h

theorem Stmt.mem_refsOf_of_ownOf : ∀ ss : List Stmt, r ∈ Stmt.ownOf ss → r ∈ Stmt.refsOf ss
  | [], h => nomatch h
  | _ :: ss, h =>
    List.mem_append.2 ((List.mem_append.1 h).imp Stmt.mem_refs_of_own (Stmt.mem_refsOf_of_ownOf ss))

theorem FunctionDecl.mem_refs_of_own : ∀ d : FunctionDecl, r ∈ d.own → r ∈ d.refs
  | .mk _ _ body, h => Stmt.mem_refsOf_of_ownOf body h

end

end

namespace Class

/-- A class and all its superclasses, itself first. -/
def lineage : Class → List Class
  | mk id name none methods => [mk id name none methods]
  | mk id name (some superclass) methods => mk id name (some superclass) methods :: superclass.lineage

theorem mem_lineage_self (c : Class) : c ∈ c.lineage := by
  obtain ⟨id, name, _ | superclass, methods⟩ := c <;> exact List.mem_cons_self ..

theorem mem_lineage_of_superclass {c d s : Class} (h : d ∈ c.lineage) (hs : d.superclass = some s) :
    s ∈ c.lineage := by
  induction c using lineage.induct with
  | case1 id name methods =>
    obtain rfl := List.mem_singleton.1 h
    cases hs
  | case2 id name superclass methods ih =>
    apply List.mem_cons_of_mem
    obtain rfl | h := List.mem_cons.1 h
    · cases hs
      exact mem_lineage_self _
    · exact ih h

theorem mem_lineage_trans {c d e : Class} (h : d ∈ c.lineage) (he : e ∈ d.lineage) : e ∈ c.lineage := by
  induction d using lineage.induct with
  | case1 id name methods =>
    obtain rfl := List.mem_singleton.1 he
    exact h
  | case2 id name superclass methods ih =>
    obtain rfl | he := List.mem_cons.1 he
    · exact h
    · exact ih (mem_lineage_of_superclass h rfl) he

/-- A method that is found belongs to the class or to one of its superclasses. -/
theorem exists_of_findMethod? {c : Class} {x : String} {m : Closure} (h : c.findMethod? x = some m) :
    ∃ d ∈ c.lineage, d.methods.find? x = some m := by
  induction c using lineage.induct with
  | case1 id name methods => exact ⟨_, mem_lineage_self _, h⟩
  | case2 id name superclass methods ih =>
    rw [findMethod?] at h
    split at h
    · next hx => exact ⟨_, mem_lineage_self _, hx.trans h⟩
    · obtain ⟨d, hd, hx⟩ := ih h
      exact ⟨d, List.mem_cons_of_mem _ hd, hx⟩

end Class

/-- What methods rely on stays: the scopes there are keep their bindings of `this` and `super`, and
objects keep their class. -/
structure Store.Preserves (σ σ' : Store) : Prop where
  size : σ.scopes.size ≤ σ'.scopes.size
  this : ∀ id, id < σ.scopes.size → σ'.read? id "this" = σ.read? id "this"
  super : ∀ id, id < σ.scopes.size → σ'.read? id "super" = σ.read? id "super"
  cls : ∀ o ob, σ.object? o = some ob → ∃ ob', σ'.object? o = some ob' ∧ ob'.cls = ob.cls

namespace Store.Preserves

variable {σ σ₁ σ₂ : Store}

theorem refl (σ : Store) : σ.Preserves σ :=
  ⟨Nat.le_refl _, fun _ _ ↦ rfl, fun _ _ ↦ rfl, fun _ ob h ↦ ⟨ob, h, rfl⟩⟩

theorem read?_this (h : σ.Preserves σ₁) {id : ScopeId} {v : Value} (hv : σ.read? id "this" = some v) :
    σ₁.read? id "this" = some v := by
  by_cases hid : id < σ.scopes.size
  · exact (h.this id hid).trans hv
  · rw [σ.read?_of_le (Nat.le_of_not_lt hid)] at hv
    cases hv

theorem trans (h : σ.Preserves σ₁) (h₁ : σ₁.Preserves σ₂) : σ.Preserves σ₂ := by
  have hlt {id : ScopeId} (hid : id < σ.scopes.size) : id < σ₁.scopes.size := Nat.lt_of_lt_of_le hid h.size
  refine ⟨Nat.le_trans h.size h₁.size, fun id hid ↦ ?_, fun id hid ↦ ?_, fun o ob ho ↦ ?_⟩
  · exact (h₁.this id (hlt hid)).trans (h.this id hid)
  · exact (h₁.super id (hlt hid)).trans (h.super id hid)
  · obtain ⟨ob₁, ho₁, hc₁⟩ := h.cls o ob ho
    obtain ⟨ob₂, ho₂, hc₂⟩ := h₁.cls o ob₁ ho₁
    exact ⟨ob₂, ho₂, hc₂.trans hc₁⟩

theorem addScope (σ : Store) (b : Bindings Value) : σ.Preserves (σ.addScope b) := by
  have hold (x : String) (id : ScopeId) (hid : id < σ.scopes.size) :
      (σ.addScope b).read? id x = σ.read? id x := by
    rw [read?_addScope]
    exact if_neg (Nat.ne_of_lt hid)
  exact ⟨by simp, hold "this", hold "super", fun _ ob h ↦ ⟨ob, h, rfl⟩⟩

theorem define (σ : Store) (id : ScopeId) {x : String} (hx : x ≠ "this" ∧ x ≠ "super") (v : Value) :
    σ.Preserves (σ.define id x v) := by
  have hold (y : String) (hy : x ≠ y) (id' : ScopeId) : (σ.define id x v).read? id' y = σ.read? id' y := by
    rw [read?_define, if_neg fun h ↦ hy h.2.1.symm]
  refine ⟨by simp, fun id' _ ↦ ?_, fun id' _ ↦ ?_, fun _ ob h ↦ ⟨ob, h, rfl⟩⟩
  · exact hold "this" hx.1 id'
  · exact hold "super" hx.2 id'

theorem addObject (σ : Store) (c : Class) : σ.Preserves (σ.addObject c) := by
  refine ⟨Nat.le_refl _, fun _ _ ↦ rfl, fun _ _ ↦ rfl, fun o ob ho ↦ ⟨ob, ?_, rfl⟩⟩
  have hlt : o < σ.nextObject := (Array.getElem?_eq_some_iff.1 ho).1
  rw [object?_addObject, if_neg (Nat.ne_of_lt hlt)]
  exact ho

theorem setField (σ : Store) (id : ObjectId) (f : String) (v : Value) : σ.Preserves (σ.setField id f v) := by
  refine ⟨Nat.le_refl _, fun _ _ ↦ rfl, fun _ _ ↦ rfl, fun o ob ho ↦ ?_⟩
  by_cases h : o = id
  · exact ⟨{ ob with fields := ob.fields.insert f v }, by rw [object?_setField, if_pos h, ho]; rfl, rfl⟩
  · exact ⟨ob, by rw [object?_setField, if_neg h, ho], rfl⟩

theorem freshIdentity (σ : Store) : σ.Preserves σ.freshIdentity :=
  ⟨Nat.le_refl _, fun _ _ ↦ rfl, fun _ _ ↦ rfl, fun _ ob h ↦ ⟨ob, h, rfl⟩⟩

end Store.Preserves

/-- All values in a store, and all classes of its objects, have a property. -/
structure Store.All (P : Value → Prop) (Q : Class → Prop) (σ : Store) : Prop where
  scopes : ∀ id x v, σ.read? id x = some v → P v
  classes : ∀ o ob, σ.object? o = some ob → Q ob.cls
  fields : ∀ o ob, σ.object? o = some ob → ∀ x v, ob.fields.find? x = some v → P v

namespace Store.All

variable {P P' : Value → Prop} {Q Q' : Class → Prop} {σ : Store}

theorem imp (h : σ.All P Q) (hP : ∀ v, P v → P' v) (hQ : ∀ c, Q c → Q' c) : σ.All P' Q' :=
  ⟨fun id x v hv ↦ hP v (h.scopes id x v hv), fun o ob ho ↦ hQ _ (h.classes o ob ho),
    fun o ob ho x v hv ↦ hP v (h.fields o ob ho x v hv)⟩

theorem addScope (h : σ.All P Q) {b : Bindings Value} (hb : ∀ x v, b.find? x = some v → P v) :
    (σ.addScope b).All P Q := by
  refine ⟨fun id x v hv ↦ ?_, h.classes, h.fields⟩
  rw [read?_addScope] at hv
  split at hv
  · exact hb x v hv
  · exact h.scopes id x v hv

theorem define (h : σ.All P Q) {id : ScopeId} {x : String} {v : Value} (hv : P v) :
    (σ.define id x v).All P Q := by
  refine ⟨fun id' y u hu ↦ ?_, h.classes, h.fields⟩
  rw [read?_define] at hu
  split at hu
  · cases hu
    exact hv
  · exact h.scopes id' y u hu

theorem addObject (h : σ.All P Q) {c : Class} (hc : Q c) : (σ.addObject c).All P Q := by
  have hobject {o : ObjectId} {ob : Object} (ho : (σ.addObject c).object? o = some ob) :
      ob = ⟨c, .empty⟩ ∨ σ.object? o = some ob := by
    rw [object?_addObject] at ho
    split at ho
    · exact .inl (Option.some.inj ho).symm
    · exact .inr ho
  refine ⟨h.scopes, fun o ob ho ↦ ?_, fun o ob ho ↦ ?_⟩
  · obtain rfl | ho := hobject ho
    · exact hc
    · exact h.classes o ob ho
  · obtain rfl | ho := hobject ho
    · exact nofun
    · exact h.fields o ob ho

theorem setField (h : σ.All P Q) {id : ObjectId} {f : String} {v : Value} (hv : P v) :
    (σ.setField id f v).All P Q := by
  have hobject {o : ObjectId} {ob : Object} (ho : (σ.setField id f v).object? o = some ob) :
      ∃ ob', σ.object? o = some ob' ∧ ob'.cls = ob.cls ∧
        (ob.fields = ob'.fields ∨ ob.fields = ob'.fields.insert f v) := by
    rw [object?_setField] at ho
    split at ho
    · obtain ⟨ob', ho', rfl⟩ := Option.map_eq_some_iff.1 ho
      exact ⟨ob', ho', rfl, .inr rfl⟩
    · exact ⟨ob, ho, rfl, .inl rfl⟩
  refine ⟨h.scopes, fun o ob ho ↦ ?_, fun o ob ho x u hu ↦ ?_⟩
  · obtain ⟨ob', ho', hc, -⟩ := hobject ho
    exact hc ▸ h.classes o ob' ho'
  · obtain ⟨ob', ho', -, hf | hf⟩ := hobject ho
    · exact h.fields o ob' ho' x u (hf ▸ hu)
    · rw [hf, Bindings.find?_insert] at hu
      split at hu
      · cases hu
        exact hv
      · exact h.fields o ob' ho' x u hu

theorem freshIdentity (h : σ.All P Q) : σ.freshIdentity.All P Q := ⟨h.scopes, h.classes, h.fields⟩

/-- In one empty scope there is nothing. -/
theorem bare : (Store.empty.addScope .empty).All P Q := by
  refine ⟨fun id x v hv ↦ ?_, nofun, nofun⟩
  rw [read?_addScope] at hv
  split at hv <;> cases hv

end Store.All

/-- A scope of `this` for a method of a class, bound to an object of that class or of a subclass. -/
structure Seat (σ : Store) (id : ScopeId) (d : Class) (m : Closure) (o : ObjectId) : Prop where
  method : ∃ x, d.methods.find? x = some m
  this : σ.read? id "this" = some (.object o)
  object : ∃ ob, σ.object? o = some ob ∧ d ∈ ob.cls.lineage

/-- In a chain of scopes, the innermost scope of `this` is that of a method which has all the given
occurrences as its own, and lies in the scopes of that method. -/
def Anchored (σ : Store) (chain : List ScopeId) (own : List Ref) : Prop :=
  ∀ before id outer, chain = before ++ id :: outer → (∀ s ∈ before, σ.read? s "this" = none) →
    (σ.read? id "this").isSome → ∃ d m o, Seat σ id d m o ∧ m.env.chain = outer ∧ own ⊆ m.decl.own

theorem Seat.mono {σ σ' : Store} (hσ : σ.Preserves σ') {id : ScopeId} {d : Class} {m : Closure} {o : ObjectId}
    (h : Seat σ id d m o) : Seat σ' id d m o := by
  obtain ⟨ob, ho, hd⟩ := h.object
  obtain ⟨ob', ho', hc⟩ := hσ.cls o ob ho
  exact ⟨h.method, hσ.read?_this h.this, ob', ho', hc ▸ hd⟩

namespace Anchored

variable {σ σ' : Store} {chain : List ScopeId} {own own' : List Ref}

theorem mono (h : Anchored σ chain own) (hσ : σ.Preserves σ') (hv : ∀ id ∈ chain, id < σ.scopes.size) :
    Anchored σ' chain own := by
  intro before id outer heq hbefore hid
  subst heq
  obtain ⟨d, m, o, hs, hm, hown⟩ := h before id outer rfl
    (fun s hs ↦ (hσ.this s (hv s (by simp [hs]))).symm.trans (hbefore s hs))
    (hσ.this id (hv id (by simp)) ▸ hid)
  exact ⟨d, m, o, hs.mono hσ, hm, hown⟩

theorem subset (h : Anchored σ chain own) (hs : own' ⊆ own) : Anchored σ chain own' := by
  intro before id outer heq hbefore hid
  obtain ⟨d, m, o, hseat, hm, hown⟩ := h before id outer heq hbefore hid
  exact ⟨d, m, o, hseat, hm, List.Subset.trans hs hown⟩

theorem cons (h : Anchored σ chain own) {id : ScopeId} (hid : σ.read? id "this" = none) :
    Anchored σ (id :: chain) own := by
  intro before id' outer heq hbefore hid'
  cases before with
  | nil =>
    cases heq
    rw [hid] at hid'
    cases hid'
  | cons s before =>
    cases heq
    exact h before id' outer rfl (fun s hs ↦ hbefore s (List.mem_cons_of_mem _ hs)) hid'

theorem of_seat {id : ScopeId} {d : Class} {m : Closure} {o : ObjectId} (h : Seat σ id d m o) :
    Anchored σ (id :: m.env.chain) m.decl.own := by
  intro before id' outer heq hbefore _
  cases before with
  | nil =>
    cases heq
    exact ⟨d, m, o, h, rfl, List.Subset.refl _⟩
  | cons s before =>
    obtain ⟨rfl, -⟩ := List.cons.inj heq
    have hnone := hbefore id (List.mem_cons_self ..)
    rw [h.this] at hnone
    cases hnone

end Anchored

section

variable (σ : Store)

/-- An environment for code with the given occurrences of its own: its innermost scope is none of `this`
or `super`. -/
structure Tied (env : Env) (own : List Ref) : Prop where
  valid : ∀ id ∈ env.chain, id < σ.scopes.size
  this : σ.read? env.inner "this" = none
  super : σ.read? env.inner "super" = none
  anchored : Anchored σ env.chain own

/-- The innermost scope of a method, not yet bound, has just the superclass of its class as `super`. -/
structure Closure.SoundMethod (superclass : Option Class) (m : Closure) : Prop where
  valid : ∀ id ∈ m.env.chain, id < σ.scopes.size
  super : σ.read? m.env.inner "super" = superclass.map fun c ↦ .callable (.cls c)

/-- A function; if its innermost scope binds `this`, it is a bound method. -/
structure Closure.Sound (c : Closure) : Prop where
  valid : ∀ id ∈ c.env.chain, id < σ.scopes.size
  anchored : Anchored σ c.env.chain c.decl.own
  bound : (σ.read? c.env.inner "this").isSome →
    ∃ d m o, Seat σ c.env.inner d m o ∧ c = Machine.bound m c.env.inner

def Class.Sound (c : Class) : Prop :=
  ∀ d ∈ c.lineage, ∀ x m, d.methods.find? x = some m → m.SoundMethod σ d.superclass

def Value.Sound : Value → Prop
  | .callable (.function _ c) => c.Sound σ
  | .callable (.cls c) => c.Sound σ
  | _ => True

def Store.Sound : Prop := σ.All (Value.Sound σ) (Class.Sound σ)

def Frame.Sound (env : Env) : Frame → Prop
  | .unary op => op.kind ∈ unaryOperators
  | .binaryLeft op right => op.kind ∈ binaryOperators ∧ Tied σ env right.own
  | .binaryRight left op => op.kind ∈ binaryOperators ∧ left.Sound σ
  | .logical _ e | .setObject _ e => Tied σ env e.own
  | .assign ref => ref.name.Ordinary
  | .define name => name.Ordinary
  | .callee arguments _ => Tied σ env (Expr.ownOf arguments)
  | .argument f known rest _ => f.Sound σ ∧ (∀ v ∈ known, v.Sound σ) ∧ Tied σ env (Expr.ownOf rest)
  | .branch yes no => Tied σ env yes.own ∧ ∀ s ∈ no, Tied σ env s.own
  | .test e s | .body e s => Tied σ env (e.own ++ s.own)
  | .program rest => Tied σ env (Stmt.ownOf rest)
  | .result c => c.Sound σ
  | .get _ | .setValue _ _ | .discard | .print _ | .ret | .construct _ | .leave => True
  | .block _ _ | .host _ _ => False

inductive Stack.Sound : Env → Stack → Prop
  | nil {env : Env} : Stack.Sound env []
  | keep {env : Env} {frame : Frame} {k : Stack} (hf : frame.Sound σ env) (hk : Stack.Sound env k) :
      Stack.Sound env (frame :: k)
  | block {env saved : Env} {rest : List Stmt} {k : Stack} (hr : Tied σ env (Stmt.ownOf rest))
      (hk : Stack.Sound saved k) : Stack.Sound env (.block rest saved :: k)

end

def Fault.Expected (f : Fault) : Prop := f.cause ≠ .invalidUnary ∧ f.cause ≠ .invalidBinary

def Control.Sound (σ : Store) (env : Env) (k : Stack) : Control → Prop
  | .eval e => Tied σ env e.own ∧ Stack.Sound σ env k
  | .exec s => Tied σ env s.own ∧ Stack.Sound σ env k
  | .value v => v.Sound σ ∧ Stack.Sound σ env k
  | .done flow => flow.value.Sound σ ∧ Stack.Sound σ env k
  | .fault f => f.Expected ∧ ∃ env, Stack.Sound σ env k
  | .act _ _ => Stack.Sound σ env k

/-- A machine in which methods are bound as they should be, and which has kept what they rely on in an
earlier store. -/
structure Machine.Sound (σ : Store) (m : Machine) : Prop where
  since : σ.Preserves m.state.store
  store : m.state.store.Sound
  control : m.control.Sound m.state.store m.state.env m.stack

section

variable {σ σ' : Store} (hσ : σ.Preserves σ')
include hσ

theorem Tied.mono {env : Env} {own : List Ref} (h : Tied σ env own) : Tied σ' env own := by
  have hin : env.inner < σ.scopes.size := h.valid _ (List.mem_cons_self ..)
  refine ⟨fun id hid ↦ Nat.lt_of_lt_of_le (h.valid id hid) hσ.size, ?_, ?_, h.anchored.mono hσ h.valid⟩
  · exact (hσ.this _ hin).trans h.this
  · exact (hσ.super _ hin).trans h.super

theorem Closure.SoundMethod.mono {superclass : Option Class} {m : Closure} (h : m.SoundMethod σ superclass) :
    m.SoundMethod σ' superclass :=
  ⟨fun id hid ↦ Nat.lt_of_lt_of_le (h.valid id hid) hσ.size,
    (hσ.super _ (h.valid _ (List.mem_cons_self ..))).trans h.super⟩

theorem Closure.Sound.mono {c : Closure} (h : c.Sound σ) : c.Sound σ' := by
  refine ⟨fun id hid ↦ Nat.lt_of_lt_of_le (h.valid id hid) hσ.size, h.anchored.mono hσ h.valid, ?_⟩
  intro hthis
  rw [hσ.this _ (h.valid _ (List.mem_cons_self ..))] at hthis
  obtain ⟨d, m, o, hs, hc⟩ := h.bound hthis
  exact ⟨d, m, o, hs.mono hσ, hc⟩

theorem Class.Sound.mono {c : Class} (h : c.Sound σ) : c.Sound σ' :=
  fun d hd x m hm ↦ (h d hd x m hm).mono hσ

theorem Value.Sound.mono {v : Value} (h : v.Sound σ) : v.Sound σ' := by
  cases v with
  | callable c =>
    cases c with
    | native f => trivial
    | function id c => exact Closure.Sound.mono hσ h
    | cls c => exact Class.Sound.mono hσ h
  | _ => trivial

theorem Store.Sound.mono (h : σ.Sound) : σ.All (Value.Sound σ') (Class.Sound σ') :=
  h.imp (fun _ ↦ Value.Sound.mono hσ) fun _ ↦ Class.Sound.mono hσ

theorem Frame.Sound.mono {env : Env} {frame : Frame} (h : frame.Sound σ env) : frame.Sound σ' env := by
  cases frame with
  | binaryLeft => exact ⟨h.1, Tied.mono hσ h.2⟩
  | binaryRight => exact ⟨h.1, Value.Sound.mono hσ h.2⟩
  | logical | setObject | callee | test | body | program => exact Tied.mono hσ h
  | argument =>
    obtain ⟨hf, hknown, hrest⟩ := h
    exact ⟨hf.mono hσ, fun v hv ↦ (hknown v hv).mono hσ, hrest.mono hσ⟩
  | branch => exact ⟨h.1.mono hσ, fun s hs ↦ (h.2 s hs).mono hσ⟩
  | result => exact Closure.Sound.mono hσ h
  | block | host => exact h.elim
  | unary | assign | define => exact h
  | _ => trivial

theorem Stack.Sound.mono {env : Env} {k : Stack} (h : Stack.Sound σ env k) : Stack.Sound σ' env k := by
  induction h with
  | nil => exact .nil
  | keep hf _ ih => exact .keep (hf.mono hσ) ih
  | block hr _ ih => exact .block (hr.mono hσ) ih

end

end Lox
