import Lox.Proofs.Session.Heap

namespace Lox

namespace Store

theorem define_addScope_define (σ : Store) {id : ScopeId} (hid : id < σ.scopes.size) (b : Bindings Value)
    (x : String) (v v' : Value) :
    ((σ.define id x v).addScope b).define id x v' = (σ.addScope b).define id x v' := by
  have hscopes : ((σ.scopes.modify id (·.insert x v)).push b).modify id (·.insert x v') =
      (σ.scopes.push b).modify id (·.insert x v') := by
    ext1
    · simp
    · next j hj hj' => grind [Bindings.insert_insert]
  unfold define addScope
  rw [hscopes]

theorem define_define (σ : Store) (id : ScopeId) (x : String) (v v' : Value) :
    (σ.define id x v).define id x v' = σ.define id x v' := by
  have hscopes : (σ.scopes.modify id (·.insert x v)).modify id (·.insert x v') =
      σ.scopes.modify id (·.insert x v') := by
    ext1
    · simp
    · next j hj hj' => grind [Bindings.insert_insert]
  unfold define
  rw [hscopes]

theorem assign?_of_inner (σ : Store) {env : Env} {x : String} (h : σ.contains env.inner x = true) (v : Value) :
    σ.assign? env x v = some (σ.define env.inner x v) := by
  have hfind : σ.locate? env x = some env.inner := List.find?_cons_of_pos h
  rw [assign?, hfind]
  rfl

end Store

namespace Interpreter

def Refuses (i : Interpreter) (superclass : Option Ref) : Prop :=
  ∃ ref, superclass = some ref ∧ ∀ c, i.lookup ref ≠ .ok (.callable (.cls c))

def Inherits (i : Interpreter) (superclass : Option Ref) (s : Option Class) : Prop :=
  match superclass with
  | none => s = none
  | some ref => ∃ c, i.lookup ref = .ok (.callable (.cls c)) ∧ s = some c

theorem exists_inherits {i : Interpreter} {superclass : Option Ref} (h : ¬i.Refuses superclass) :
    ∃ s, i.Inherits superclass s := by
  cases superclass with
  | none => exact ⟨none, rfl⟩
  | some ref =>
    have hex : ∃ c, i.lookup ref = .ok (.callable (.cls c)) :=
      Classical.byContradiction fun hno ↦ h ⟨ref, rfl, fun c hc ↦ hno ⟨c, hc⟩⟩
    obtain ⟨c, hc⟩ := hex
    exact ⟨some c, c, hc, rfl⟩

def methodEnv (i : Interpreter) : Option Class → Env
  | none => i.env
  | some _ => i.env.enclose i.store.nextScope

def superStore (i : Interpreter) : Option Class → Store
  | none => i.store
  | some c => i.store.addScope (Machine.superScope c)

def newClass (i : Interpreter) (name : Token) (s : Option Class) (methods : List FunctionDecl) : Class :=
  .mk i.store.nextIdentity name.lexeme s (Machine.methodTable methods (i.methodEnv s))

def withClass (i : Interpreter) (name : Token) (s : Option Class) (methods : List FunctionDecl) : Interpreter :=
  { i with
    store := (i.superStore s).freshIdentity.define i.env.inner name.lexeme
      (.callable (.cls (i.newClass name s methods))) }

theorem declareClass_eq {i : Interpreter} {superclass : Option Ref} {s : Option Class}
    (h : i.Inherits superclass s) (k : Stack) (name : Token) (methods : List FunctionDecl) :
    Machine.declareClass i k name superclass methods = ⟨.done .normal, k, i.withClass name s methods⟩ := by
  cases superclass with
  | none =>
    cases h
    rfl
  | some ref =>
    obtain ⟨c, hc, rfl⟩ := h
    simp only [Machine.declareClass, hc]
    rfl

theorem declareClass_fault {i : Interpreter} {superclass : Option Ref} (h : i.Refuses superclass) (name : Token)
    (methods : List FunctionDecl) : ∃ ref f, superclass = some ref ∧
      (i.lookup ref = .error f ∨ (i.lookup ref).isOk ∧ f = ⟨.superclassNotClass, ref.name.line⟩) ∧
      ∀ k, Machine.declareClass i k name superclass methods = ⟨.fault f, k, i⟩ := by
  obtain ⟨ref, rfl, hno⟩ := h
  cases hl : i.lookup ref with
  | error f =>
    refine ⟨ref, f, rfl, .inl hl, fun k ↦ ?_⟩
    simp only [Machine.declareClass, hl]
  | ok v =>
    refine ⟨ref, ⟨.superclassNotClass, ref.name.line⟩, rfl, .inr ⟨by rw [hl]; rfl, rfl⟩, fun k ↦ ?_⟩
    simp only [Machine.declareClass, hl]
    split
    · next heq => cases heq
    · next c heq =>
      cases heq
      exact absurd hl (hno c)
    · rfl

/-- Declares a class in stages: the name is bound to nil, the methods are made in the environment of `super`,
and once the environment is what it was, the class is assigned to its name by a search. -/
def declareInStages (i : Interpreter) (name : Token) (s : Option Class) (methods : List FunctionDecl) :
    Option Interpreter :=
  let named := i.define name.lexeme .nil
  let inner := match s with
    | none => named
    | some c =>
      let (env, store) := named.store.addEnclosed named.env
      { named with env, store }.define "super" (.callable (.cls c))
  let c := Class.mk inner.store.nextIdentity name.lexeme s (Machine.methodTable methods inner.env)
  let back := { inner with env := named.env, store := inner.store.freshIdentity }
  (back.store.assign? back.env name.lexeme (.callable (.cls c))).map fun store ↦ { back with store }

/-- No stage can fail: the search ends in the innermost scope, which binds the name to nil by then. -/
theorem declareInStages_eq {i : Interpreter} (hi : i.env.inner < i.store.scopes.size) (name : Token)
    (s : Option Class) (methods : List FunctionDecl) :
    i.declareInStages name s methods = some (i.withClass name s methods) := by
  let nil := i.store.define i.env.inner name.lexeme .nil
  have hnil : nil.contains i.env.inner name.lexeme = true := by
    rw [Store.contains_eq, Store.read?_define, if_pos ⟨rfl, rfl, hi⟩]
    rfl
  cases s with
  | none =>
    have hstages : i.declareInStages name none methods = (nil.freshIdentity.assign? i.env name.lexeme
        (.callable (.cls (i.newClass name none methods)))).map fun store ↦ { i with store } := rfl
    rw [hstages, Store.assign?_of_inner nil.freshIdentity hnil]
    exact congrArg (fun σ : Store ↦ some { i with store := σ.freshIdentity }) (Store.define_define ..)
  | some c =>
    have hnext : nil.nextScope = i.store.nextScope := Store.size_define ..
    have hstages : i.declareInStages name (some c) methods =
        ((nil.addScope (Machine.superScope c)).freshIdentity.assign? i.env name.lexeme
          (.callable (.cls (i.newClass name (some c) methods)))).map fun store ↦ { i with store } := by
      rw [newClass, methodEnv, Machine.superScope, Store.addScope_insert, ← hnext]
      rfl
    have hinner : (nil.addScope (Machine.superScope c)).contains i.env.inner name.lexeme = true :=
      (nil.le_addScope _).bound _ _ hnil
    rw [hstages, Store.assign?_of_inner (nil.addScope (Machine.superScope c)).freshIdentity hinner]
    exact congrArg (fun σ : Store ↦ some { i with store := σ.freshIdentity })
      (i.store.define_addScope_define hi ..)

end Interpreter

/-- From the moment `m` to `j` the class `c` was declared: one name, in the innermost scope, is bound to it, and
nothing else that was there has changed. -/
structure Machine.Declares (m : Machine) (name : Token) (s : Option Class) (methods : List FunctionDecl)
    (c : Class) (j : Interpreter) : Prop where
  rest : j = { m.state with store := j.store }
  objects : j.store.objects = m.state.store.objects
  bindings : ∀ id < m.state.store.scopes.size, ∀ x, j.store.read? id x =
    if id = m.state.env.inner ∧ x = name.lexeme then some (.callable (.cls c)) else m.state.store.read? id x
  here : m.state.env.inner < m.state.store.scopes.size
  fresh : ∀ d, m.HasClass d → d.id ≠ c.id
  name : c.name = name.lexeme
  superclass : c.superclass = s
  /-- Of the methods with one name the last counts, and initializers are told by their name. -/
  methods : ∃ env, (∀ x, c.methods.find? x =
      (methods.reverse.find? (·.name.lexeme == x)).map fun d ↦ ⟨d, env, d.name.lexeme == "init"⟩) ∧
    (s = none → env = m.state.env ∧ j.store.scopes.size = m.state.store.scopes.size) ∧
    ∀ d, s = some d → ∃ scope, env = m.state.env.enclose scope ∧ m.state.store.scopes.size = scope ∧
      j.store.scopes.size = scope + 1 ∧
      ∀ x, j.store.read? scope x = if x = "super" then some (.callable (.cls d)) else none

theorem Machine.In.declares {m : Machine} {G : Layout} (hm : m.In G) (name : Token) (s : Option Class)
    (methods : List FunctionDecl) : m.Declares name s methods (m.state.newClass name s methods)
      (m.state.withClass name s methods) := by
  have hinner : m.state.env.inner < m.state.store.scopes.size := hm.state.env.1
  have hfresh : ∀ d, m.HasClass d → d.id ≠ m.state.store.nextIdentity := fun d hd ↦
    Nat.ne_of_lt (hm.state.valid.identity d.id d (hm.cls hd)).2
  refine
    { rest := rfl
      objects := ?_
      bindings := fun id hid x ↦ ?_
      here := hinner
      fresh := hfresh
      name := rfl
      superclass := rfl
      methods := ⟨m.state.methodEnv s, Machine.find?_methodTable_eq methods _, ?_, ?_⟩ }
  · cases s <;> rfl
  · have hsuper : (m.state.superStore s).read? id x = m.state.store.read? id x := by
      cases s with
      | none => rfl
      | some d => rw [Interpreter.superStore, Store.read?_addScope, Store.nextScope, if_neg (Nat.ne_of_lt hid)]
    have hsize : m.state.env.inner < (m.state.superStore s).freshIdentity.scopes.size := by
      cases s with
      | none => exact hinner
      | some d => exact Nat.lt_of_lt_of_le hinner (m.state.store.le_addScope _).size
    rw [Interpreter.withClass, Store.read?_define, Store.read?_freshIdentity, hsuper]
    simp only [hsize, and_true]
  · rintro rfl
    exact ⟨rfl, Store.size_define ..⟩
  · rintro d rfl
    have hother : m.state.store.scopes.size ≠ m.state.env.inner := Nat.ne_of_gt hinner
    refine ⟨m.state.store.nextScope, rfl, rfl, ?_, fun x ↦ ?_⟩
    · rw [Interpreter.withClass, Store.size_define]
      exact Store.size_addScope ..
    · rw [Interpreter.withClass, Store.read?_define, if_neg fun h ↦ hother h.1, Store.read?_freshIdentity,
        Interpreter.superStore, Store.read?_addScope, if_pos rfl, Machine.superScope, Bindings.find?_insert]
      rfl

/-- Class declarations are all or nothing. -/
theorem Machine.Life.class_declaration_atomic {sink : Sink} {clock : Clock} {m : Machine}
    (h : Machine.Life (Interpreter.new sink clock).idle m) (name : Token) (superclass : Option Ref)
    (methods : List FunctionDecl) :
    (m.state.Refuses superclass → ∃ ref f, superclass = some ref ∧
      (m.state.lookup ref = .error f ∨
        (m.state.lookup ref).isOk ∧ f = ⟨.superclassNotClass, ref.name.line⟩) ∧
      (∀ k, Machine.step ⟨.exec (.classDecl name superclass methods), k, m.state⟩ = some ⟨.fault f, k, m.state⟩) ∧
      ∀ fuel, m.state.execute (fuel + 2) (.classDecl name superclass methods) =
        some (.error f, m.state)) ∧
    (¬m.state.Refuses superclass → ∃ s c j, m.state.Inherits superclass s ∧
      m.Declares name s methods c j ∧
      (∀ k, Machine.step ⟨.exec (.classDecl name superclass methods), k, m.state⟩ = some ⟨.done .normal, k, j⟩) ∧
      (∀ fuel, m.state.execute (fuel + 2) (.classDecl name superclass methods) = some (.ok .normal, j)) ∧
      m.state.declareInStages name s methods = some j) := by
  obtain ⟨_, hnew⟩ := Machine.new_in sink clock
  obtain ⟨G, -, hm⟩ := h.grows hnew
  have hexecute {outcome : Machine} (hfinal : outcome.isFinal = true)
      (heq : Machine.declareClass m.state [] name superclass methods = outcome) (fuel : Nat) :
      m.state.execute (fuel + 2) (.classDecl name superclass methods) = Interpreter.flowOf outcome := by
    have hstep : Machine.step ⟨.exec (.classDecl name superclass methods), [], m.state⟩ = some outcome :=
      congrArg some heq
    rw [Interpreter.execute, Machine.run_succ hstep, Machine.run, if_pos hfinal]
    rfl
  refine ⟨fun hrefuses ↦ ?_, fun haccepts ↦ ?_⟩
  · obtain ⟨ref, f, hsuper, hf, heq⟩ := Interpreter.declareClass_fault hrefuses name methods
    exact ⟨ref, f, hsuper, hf, fun k ↦ congrArg some (heq k), hexecute rfl (heq [])⟩
  · obtain ⟨s, hs⟩ := Interpreter.exists_inherits haccepts
    have heq (k : Stack) := Interpreter.declareClass_eq hs k name methods
    exact ⟨s, _, _, hs, hm.declares name s methods, fun k ↦ congrArg some (heq k), hexecute rfl (heq []),
      Interpreter.declareInStages_eq hm.state.env.1 name s methods⟩

def FunctionDecl.bare (name : String) (params : List Token) : FunctionDecl :=
  .mk ⟨.identifier, name, 1⟩ params []

/-- A number cannot be inherited from. Its name can be taken by a class, which may inherit from another and
declare an initializer, and a method twice. -/
theorem Machine.taken_name_atomic : ∃ (s : Session) (a b x : Ref) (methods : List FunctionDecl),
    methods = [.bare "m" [], .bare "init" [], .bare "m" [x.name]] ∧
    Life (Interpreter.new .unbounded .ticking).idle s.interpreter.idle ∧
    (s.interpreter.Refuses (some b) ∧
      ∃ f, s.interpreter.execute 2 (.classDecl a.name (some b) methods) = some (.error f, s.interpreter)) ∧
    ¬s.interpreter.Refuses (some a) ∧
      ∃ d c j env, s.interpreter.idle.Declares b.name (some d) methods c j ∧
        s.interpreter.execute 2 (.classDecl b.name (some a) methods) = some (.ok .normal, j) ∧
        c.methods.find? "m" = some ⟨.bare "m" [x.name], env, false⟩ ∧
        c.methods.find? "init" = some ⟨.bare "init" [], env, true⟩ ∧ c.methods.find? "b" = none := by
  let a : Ref := ⟨100, ⟨.identifier, "A", 1⟩⟩
  let b : Ref := ⟨101, ⟨.identifier, "b", 1⟩⟩
  let x : Ref := ⟨102, ⟨.identifier, "x", 1⟩⟩
  let methods : List FunctionDecl := [.bare "m" [], .bare "init" [], .bare "m" [x.name]]
  let found (s : Session) (ref : Ref) : Option Value := (s.interpreter.lookup ref).toOption
  have hrun : ((Session.new .unbounded .ticking).run 100 "class A {} var b = 1;").any (fun r ↦
      ((found r.2 a).bind Value.cls?).isSome && ((found r.2 b).bind Value.cls?).isNone) = true := by
    decide +kernel
  obtain ⟨⟨ds, s⟩, hs, hboth⟩ := (Option.any_eq_true _ _).1 hrun
  obtain ⟨ha, hb⟩ := Bool.and_eq_true_iff.1 hboth
  have hlife : Life (Interpreter.new .unbounded .ticking).idle s.interpreter.idle := Life.refl.run hs
  have hrefuses : s.interpreter.Refuses (some b) := by
    refine ⟨b, rfl, fun c hc ↦ ?_⟩
    simp only [found, hc] at hb
    cases hb
  have haccepts : ¬s.interpreter.Refuses (some a) := by
    rintro ⟨_, ⟨⟩, hno⟩
    cases hl : s.interpreter.lookup a with
    | error f =>
      simp only [found, hl] at ha
      cases ha
    | ok v =>
      simp only [found, hl] at ha
      obtain ⟨c, hc⟩ := Option.isSome_iff_exists.1 ha
      exact hno c (Value.eq_of_cls? hc ▸ hl)
  obtain ⟨_, f, -, -, -, hfault⟩ := (hlife.class_declaration_atomic a.name (some b) methods).1 hrefuses
  obtain ⟨_, c, j, ⟨d, -, rfl⟩, hdeclares, -, hdone, -⟩ :=
    (hlife.class_declaration_atomic b.name (some a) methods).2 haccepts
  obtain ⟨env, htable, -⟩ := hdeclares.methods
  exact ⟨s, a, b, x, methods, rfl, hlife, ⟨hrefuses, f, hfault 0⟩, haccepts, d, c, j, env, hdeclares, hdone 0,
    htable "m", htable "init", htable "b"⟩

end Lox
