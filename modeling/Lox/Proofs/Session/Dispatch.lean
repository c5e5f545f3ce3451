import Lox.Proofs.Dispatch.Step
import Lox.Proofs.Session.Agreement
import Lox.Proofs.Session.Restored

namespace Lox

open Scope

def Frame.values : Frame → List Value
  | .binaryRight left _ => [left]
  | .argument f known _ _ => f :: known
  | _ => []

/-- A value that a program could still come upon. -/
inductive Machine.Has (m : Machine) : Value → Prop
  | scope {id : ScopeId} {x : String} {v : Value} (h : m.state.store.read? id x = some v) : Has m v
  | field {o : ObjectId} {ob : Object} {x : String} {v : Value} (ho : m.state.store.object? o = some ob)
      (h : ob.fields.find? x = some v) : Has m v
  | outcome {v : Value} (h : m.control = .value v) : Has m v
  | returned {v : Value} (h : m.control = .done (.returned v)) : Has m v
  | frame {frame : Frame} {v : Value} (hf : frame ∈ m.stack) (h : v ∈ frame.values) : Has m v

def Machine.HasFunction (m : Machine) (c : Closure) : Prop :=
  (∃ id, m.Has (.callable (.function id c))) ∨ .result c ∈ m.stack

def Machine.HasClass (m : Machine) (d : Class) : Prop :=
  ∃ c : Class, d ∈ c.lineage ∧
    (m.Has (.callable (.cls c)) ∨ ∃ o ob, m.state.store.object? o = some ob ∧ ob.cls = c)

/-- A method of a class, or of the next superclass that has one, is at hand, bound to an object; or it is
reported that there is none. -/
def Machine.Gives (m : Machine) (c : Class) (name : Token) (o : ObjectId) : Prop :=
  match c.findMethod? name.lexeme with
  | some found => ∃ id scope, m.control = .value (.callable (.function id (bound found scope))) ∧
      m.state.store.read? scope "this" = some (.object o)
  | none => m.control = .fault ⟨.undefinedProperty name.lexeme, name.line⟩

/-- Methods, `this` and `super` are as they should be at this moment of a run and from it on. -/
structure Machine.Dispatches (m : Machine) : Prop where
  /-- A function in whose innermost scope `this` is bound is a method of a class, and that is bound to
  an object of this class or of a subclass. -/
  methods : ∀ c, m.HasFunction c → ∀ v, m.state.store.read? c.env.inner "this" = some v →
    ∃ d method o, c = bound method c.env.inner ∧ v = .object o ∧ m.HasClass d ∧
      Seat m.state.store c.env.inner d method o
  /-- Around the methods of a class, `super` is its superclass. -/
  super : ∀ d, m.HasClass d → ∀ x method, d.methods.find? x = some method →
    m.state.store.read? method.env.inner "super" = d.superclass.map fun c ↦ .callable (.cls c)
  /-- What is bound to `this` stays so. -/
  kept : ∀ m', Steps m m' → ∀ id v, m.state.store.read? id "this" = some v →
    m'.state.store.read? id "this" = some v
  this : ∀ ref, m.control = .eval (.this ref) → ∃ d method o, m.state.Serves ref d method o ∧
    m.step = some ⟨.value (.object o), m.stack, m.state⟩
  /-- A method is looked up above the class to which the occurrence of `super` belongs, and bound to the
  object of the method that runs. -/
  lookup : ∀ ref name, m.control = .eval (.super ref name) → ∃ d method o c m',
    m.state.Serves ref d method o ∧ d.superclass = some c ∧ m.step = some m' ∧ m'.Gives c name o
  operators : ∀ f, m.control = .fault f → f.Expected

theorem Stack.Sound.values {σ : Store} {env : Env} {k : Stack} (h : Stack.Sound σ env k) {frame : Frame}
    (hf : frame ∈ k) : (∀ v ∈ frame.values, v.Sound σ) ∧ ∀ c, frame = .result c → c.Sound σ := by
  have hblock {rest : List Stmt} {saved : Env} :
      (∀ v ∈ (Frame.block rest saved).values, v.Sound σ) ∧
        ∀ c, Frame.block rest saved = .result c → c.Sound σ := ⟨nofun, nofun⟩
  have hkeep {env : Env} {frame : Frame} (h : frame.Sound σ env) :
      (∀ v ∈ frame.values, v.Sound σ) ∧ ∀ c, frame = .result c → c.Sound σ := by
    refine ⟨fun v hv ↦ ?_, fun c hc ↦ ?_⟩
    · cases frame with
      | binaryRight =>
        obtain rfl := List.mem_singleton.1 hv
        exact h.2
      | argument =>
        obtain rfl | hv := List.mem_cons.1 hv
        · exact h.1
        · exact h.2.1 v hv
      | _ => cases hv
    · subst hc
      exact h
  induction h with
  | nil => cases hf
  | keep hframe _ ih =>
    obtain rfl | hf := List.mem_cons.1 hf
    · exact hkeep hframe
    · exact ih hf
  | block _ _ ih =>
    obtain rfl | hf := List.mem_cons.1 hf
    · exact hblock
    · exact ih hf

namespace Machine

variable {A : List Accepted} {σ : Store} {m : Machine}

theorem Sound.stack (h : m.Sound σ) : ∃ env, Stack.Sound m.state.store env m.stack := by
  obtain ⟨control, k, i⟩ := m
  cases control with
  | eval | exec | value | done => exact ⟨_, h.control.2⟩
  | fault => exact h.control.2
  | act => exact ⟨_, h.control⟩

theorem Sound.value (h : m.Sound σ) {v : Value} (hv : m.Has v) : v.Sound m.state.store := by
  cases hv with
  | scope hv => exact h.store.scopes _ _ v hv
  | field ho hv => exact h.store.fields _ _ ho _ v hv
  | outcome hc =>
    have hcontrol := h.control
    rw [hc] at hcontrol
    exact hcontrol.1
  | returned hc =>
    have hcontrol := h.control
    rw [hc] at hcontrol
    exact hcontrol.1
  | frame hf hv =>
    obtain ⟨env, hk⟩ := h.stack
    exact (hk.values hf).1 v hv

theorem Sound.function (h : m.Sound σ) {c : Closure} (hc : m.HasFunction c) : c.Sound m.state.store := by
  obtain ⟨id, hv⟩ | hf := hc
  · exact h.value hv
  · obtain ⟨env, hk⟩ := h.stack
    exact (hk.values hf).2 c rfl

theorem Sound.cls (h : m.Sound σ) {d : Class} (hd : m.HasClass d) : d.Sound m.state.store := by
  obtain ⟨c, hd, hv | ⟨o, ob, ho, rfl⟩⟩ := hd
  · exact Class.Sound.of_mem_lineage (h.value hv) hd
  · exact (h.store.classes o ob ho).of_mem_lineage hd

theorem Sound.steps (hA : Separate A) {m' : Machine} (hf : m.Fits A) (h : m.Sound σ) (hm : Steps m m') :
    m'.Fits A ∧ m'.Sound σ :=
  hm.invariant (P := fun m ↦ m.Fits A ∧ m.Sound σ) ⟨hf, h⟩ fun _ _ h hs ↦
    ⟨step_fits h.1 hs, step_sound hA h.1 h.2 hs⟩

theorem gives_of_findMethod? (i : Interpreter) (k : Stack) (c : Class) (name : Token) (o : ObjectId) :
    (match c.findMethod? name.lexeme with
      | some found => bindMethod i k found o
      | none => noProperty i k name).Gives c name o := by
  unfold Gives
  split
  · refine ⟨_, i.store.nextScope, rfl, ?_⟩
    show (i.store.addScope (thisScope o)).freshIdentity.read? _ _ = _
    rw [Store.read?_freshIdentity, Store.read?_addScope, if_pos rfl]
    rfl
  · rfl

theorem Sound.dispatches (hA : Separate A) (hf : m.Fits A) (h : m.Sound σ) : m.Dispatches := by
  refine ⟨fun c hc v hv ↦ ?_, fun d hd x method hm ↦ ?_, fun m' hm id v hv ↦ ?_, fun ref hc ↦ ?_,
    fun ref name hc ↦ ?_, fun f hc ↦ ?_⟩
  · obtain ⟨d, method, o, hseat, heq⟩ := (h.function hc).bound (by rw [hv]; rfl)
    obtain ⟨ob, ho, hd⟩ := hseat.object
    have hvalue : v = .object o := Option.some.inj (hv.symm.trans hseat.this)
    exact ⟨d, method, o, heq, hvalue, ⟨ob.cls, hd, .inr ⟨o, ob, ho, rfl⟩⟩, hseat⟩
  · exact (h.cls hd d (Class.mem_lineage_self d) x method hm).super
  · have hlater : m'.Sound m.state.store := (Sound.steps hA hf ⟨.refl _, h.store, h.control⟩ hm).2
    exact hlater.since.read?_this hv
  · obtain ⟨control, k, i⟩ := m
    obtain rfl : control = .eval (.this ref) := hc
    obtain ⟨S, hat, ha, -⟩ := hf.control
    obtain ⟨d, method, o, hserves, hlookup⟩ := Tied.lookup_this hA hf.state h.control.1 ha hat
    refine ⟨d, method, o, hserves, ?_⟩
    rw [step, eval, hlookup]
  · obtain ⟨control, k, i⟩ := m
    obtain rfl : control = .eval (.super ref name) := hc
    obtain ⟨S, hat, ha, -⟩ := hf.control
    obtain ⟨d, method, o, c, hserves, hc, heq⟩ :=
      Tied.superMethod_eq hA hf.state h.control.1 ha h.store k hat
    exact ⟨d, method, o, c, _, hserves, hc, congrArg some heq, gives_of_findMethod? i k c name o⟩
  · have hcontrol := h.control
    rw [hc] at hcontrol
    exact hcontrol.1

end Machine

/-- What holds of an interpreter between two runs: the global scope binds neither `this` nor `super`. -/
structure Interpreter.Sound (i : Interpreter) : Prop where
  store : i.store.Sound
  globals : ∀ own, Tied i.store i.globalEnv own

namespace Interpreter

variable {A : List Accepted} {i i' : Interpreter}

theorem new_sound (sink : Sink) (clock : Clock) : (new sink clock).Sound := by
  have hempty : Store.empty.Sound := ⟨nofun, nofun, nofun⟩
  have hscope : (Store.empty.addScope .empty).Sound :=
    (hempty.mono (.addScope _ _)).addScope nofun
  have hclock := Store.Preserves.define (.addScope .empty .empty) 0 (x := "clock") (by decide)
    (.callable (.native ⟨0, "clock", 0⟩))
  refine ⟨(hscope.mono hclock).define trivial, fun own ↦ ⟨?_, rfl, rfl, ?_⟩⟩
  · intro id hid
    obtain rfl := List.mem_singleton.1 hid
    exact Nat.zero_lt_one
  · have hnil : Anchored (new sink clock).store [] own := by
      intro before id outer heq
      cases before <;> cases heq
    exact hnil.cons rfl

theorem start_sound (hi : i.Sound) (henv : i.env = i.globalEnv) (program : List Stmt) :
    (i.start program).Sound i.store := by
  have hprogram : Tied i.store i.env (Stmt.ownOf program) := henv ▸ hi.globals _
  exact ⟨.refl _, hi.store, trivial, .keep hprogram .nil⟩

theorem conclude_sound (hhome : i.IsHome) (hi : i.Sound) {m : Machine} (ha : Machine.Accounts i .flow m)
    (hm : m.Sound i.store) (hf : m.isFinal = true) {ds : List Diagnostic} (h : conclude m = some (ds, i')) :
    i.store.Preserves i'.store ∧ i'.Sound := by
  have hglobals : i'.globalEnv = i.globalEnv :=
    congrArg (Env.mk · []) (conclude_follows hhome ha hf h).globals
  have hstore : i'.store = m.state.store := by
    rcases conclude_state h with rfl | rfl <;> rfl
  have hsince : i.store.Preserves i'.store := hstore ▸ hm.since
  exact ⟨hsince, hstore ▸ hm.store, fun own ↦ hglobals ▸ (hi.globals own).mono hsince⟩

theorem interpret_sound (hA : Separate A) (hf : i.Fits A) (hhome : i.IsHome) (hi : i.Sound) {a : Accepted}
    (ha : a ∈ A) {fuel : Nat} {ds : List Diagnostic} (h : i.interpret fuel a.program = some (ds, i')) :
    i.store.Preserves i'.store ∧ i'.Sound := by
  obtain ⟨m, hrun, hend⟩ := Option.bind_eq_some_iff.1 h
  obtain ⟨hsteps, hfinal⟩ := Machine.steps_of_run hrun
  obtain ⟨-, hm⟩ := (start_sound hi hhome.1 a.program).steps hA (start_fits hf hhome.1 ha) hsteps
  exact conclude_sound hhome hi ((start_accounts hhome a.program).steps hsteps) hm hfinal hend

end Interpreter

namespace Session

variable {H : List (List Stmt × Distances)} {s s' : Session} {source : String}

theorem run_sound {A : List Accepted} (hs : s.Fits A) (hhome : s.interpreter.IsHome)
    (hi : s.interpreter.Sound) {fuel : Nat} {ds : List Diagnostic} (h : s.run fuel source = some (ds, s')) :
    s.interpreter.store.Preserves s'.interpreter.store ∧ s'.interpreter.Sound := by
  unfold run at h
  split at h
  · next hp =>
    cases h
    obtain ⟨D, hD⟩ := prepare_interpreter hp
    rw [hD]
    exact ⟨.refl _, hi.store, hi.globals⟩
  · next program s₁ hp =>
    obtain ⟨D, hD⟩ := prepare_interpreter hp
    obtain ⟨a, rfl, -, hs₁⟩ := prepare_ok_fits hs hp
    split at h
    · next hrun =>
      cases h
      have hhome₁ : s₁.interpreter.IsHome := by rw [hD]; exact hhome
      have hi₁ : s₁.interpreter.Sound := by rw [hD]; exact ⟨hi.store, hi.globals⟩
      have hsound := Interpreter.interpret_sound hs₁.separate hs₁.interpreter hhome₁ hi₁ (.head A) hrun
      rw [hD] at hsound
      exact hsound
    · cases h

theorem History.sound (h : History H s) : s.interpreter.IsHome ∧ s.interpreter.Sound := by
  induction h with
  | new sink clock => exact ⟨⟨rfl, rfl⟩, Interpreter.new_sound sink clock⟩
  | run h hr ih =>
    obtain ⟨A, -, hs⟩ := h.fits
    exact ⟨run_isHome ih.1 hr, (run_sound hs ih.1 ih.2 hr).2⟩

/-- Methods are dispatched soundly: at every moment of every run of an accepted source, in a session that
has seen any runs before, methods, `this` and `super` are as they should be, and what was bound to `this`
before the run is so after it. -/
theorem History.dispatch_sound (h : History H s) {program : List Stmt}
    (hp : s.prepare source = (.ok program, s')) :
    (∀ m, Machine.Steps (s'.interpreter.start program) m → m.Dispatches) ∧
      ∀ fuel ds t, s.run fuel source = some (ds, t) → ∀ id v,
        s.interpreter.store.read? id "this" = some v → t.interpreter.store.read? id "this" = some v := by
  obtain ⟨A, -, hs⟩ := h.fits
  obtain ⟨hhome, hi⟩ := h.sound
  refine ⟨fun m hm ↦ ?_, fun fuel ds t hr id v hv ↦ ?_⟩
  · obtain ⟨D, hD⟩ := prepare_interpreter hp
    obtain ⟨a, rfl, -, hs'⟩ := prepare_ok_fits hs hp
    have hi' : s'.interpreter.Sound := by rw [hD]; exact ⟨hi.store, hi.globals⟩
    have hstart := Interpreter.start_fits hs'.interpreter hs'.env (.head A)
    have hsound := Interpreter.start_sound hi' hs'.env a.program
    obtain ⟨hfits, hm⟩ := hsound.steps hs'.separate hstart hm
    exact hm.dispatches hs'.separate hfits
  · exact (run_sound hs hhome hi hr).1.read?_this hv

theorem inherited_super_dispatched : ∃ H s program s' m ref name, History H s ∧
    s.prepare "class B < A { m() { super.m(); } } class C < B {} var f = C().m; f();" = (.ok program, s') ∧
    Machine.Steps (s'.interpreter.start program) m ∧ m.control = .eval (.super ref name) ∧
    ∃ d method o c m', m.state.Serves ref d method o ∧ d.superclass = some c ∧ m.step = some m' ∧
      m'.Gives c name o := by
  have hreach : ((run 100 "class A { m() {} }" (.new .unbounded .ticking)).bind fun r ↦
      r.2.reach 21 "class B < A { m() { super.m(); } } class C < B {} var f = C().m; f();").any
        (·.control.super?.isSome) = true := by decide +kernel
  obtain ⟨m, hm, hsuper⟩ := (Option.any_eq_true _ _).1 hreach
  obtain ⟨⟨ds, s⟩, hrun, hm⟩ := Option.bind_eq_some_iff.1 hm
  have hs := History.run (.new .unbounded .ticking 0 .empty) hrun
  obtain ⟨program, s', hp, hsteps⟩ := steps_of_reach hm
  obtain ⟨⟨ref, name⟩, hsuper⟩ := Option.isSome_iff_exists.1 hsuper
  have hc : m.control = .eval (.super ref name) := Control.eq_of_super? hsuper
  have hdispatches : m.Dispatches := (hs.dispatch_sound hp).1 m hsteps
  exact ⟨_, s, program, s', m, ref, name, hs, hp, hsteps, hc, hdispatches.lookup ref name hc⟩

end Session

end Lox
