import Lox.Proofs.Machine.Returning
import Lox.Proofs.Session.Heap

namespace Lox

open Scope

theorem Session.obeys_of_prepare {s s' : Session} {source : String} {program : List Stmt}
    (h : s.prepare source = (.ok program, s')) : Obeys none (.stmts program) := by
  obtain ⟨n, hr, herrors, -⟩ := prepare_ok_iff.1 h
  exact obeys_of_errors_eq_nil (readAll_ok_iff.1 hr).2.regular herrors

namespace Machine

variable {m m₁ : Machine}

theorem idle_orderly {i : Interpreter} (h : i.Orderly) : i.idle.Orderly := ⟨h, trivial, trivial⟩

theorem Life.orderly (h : Life m m₁) (hm : m.Orderly) : m₁.Orderly := by
  induction h with
  | refl => exact hm
  | @register i _ name arity f hf ih =>
    have hhosts : ∀ g ∈ i.hosts.push f, g.Honest := by
      intro g hg
      obtain hg | rfl := Array.mem_push.1 hg
      · exact ih.state.hosts g hg
      · exact hf
    have hstore : (i.store.define i.globals name (.callable (.native ⟨i.hosts.size, name, arity⟩))).All
        Value.Orderly Class.Orderly := ih.state.store.define trivial
    exact idle_orderly ⟨hstore, hhosts⟩
  | reject _ hp ih =>
    obtain ⟨D, hs'⟩ := Session.prepare_interpreter hp
    rw [hs']
    exact idle_orderly ⟨ih.state.store, ih.state.hosts⟩
  | accept _ hp ih =>
    have hprogram := (Session.obeys_of_prepare hp).of_stmts
    obtain ⟨D, hs'⟩ := Session.prepare_interpreter hp
    rw [hs']
    exact ⟨⟨ih.state.store, ih.state.hosts⟩, trivial, ⟨rfl, hprogram⟩, trivial⟩
  | step _ hs ih => exact step_orderly ih hs
  | conclude _ _ hc ih =>
    rcases Interpreter.conclude_state hc with rfl | rfl
    · exact idle_orderly ih.state
    · exact idle_orderly ⟨ih.state.store, ih.state.hosts⟩

theorem new_orderly (sink : Sink) (clock : Clock) : (Interpreter.new sink clock).idle.Orderly := by
  let bare : Interpreter :=
    { store := Store.empty.addScope .empty, globals := 0, env := ⟨0, []⟩, depth := 0
      distances := .empty, hosts := #[], clock := clock, sink := sink }
  have hbare : bare.Orderly := ⟨.bare, nofun⟩
  exact (Life.refl.register "clock" 0 honest_clock).orderly (idle_orderly hbare)

/-- The machine is in a run that began at the top level, or at rest there. -/
def Housed (m : Machine) : Prop := ∃ i : Interpreter, i.IsHome ∧ Accounts i .flow m

theorem idle_housed {i : Interpreter} (h : i.IsHome) : i.idle.Housed := ⟨i, h, Interpreter.idle_accounts h⟩

theorem Housed.isHome {i : Interpreter} (h : i.idle.Housed) : i.IsHome := by
  obtain ⟨i₀, ⟨henv, hdepth⟩, h⟩ := h
  have hglobals : i.globalEnv = i₀.globalEnv := congrArg (Env.mk · []) h.globals
  exact ⟨h.home.trans (henv.trans hglobals.symm), h.depth.trans hdepth⟩

theorem Life.housed (h : Life m m₁) (hm : m.Housed) : m₁.Housed := by
  induction h with
  | refl => exact hm
  | register _ name arity hf ih => exact idle_housed ih.isHome
  | reject _ hp ih =>
    obtain ⟨D, hs'⟩ := Session.prepare_interpreter hp
    rw [hs']
    exact idle_housed ih.isHome
  | @accept s s' source program _ hp ih =>
    have hhome : s'.interpreter.IsHome := by
      obtain ⟨D, hs'⟩ := Session.prepare_interpreter hp
      rw [hs']
      exact ih.isHome
    exact ⟨_, hhome, Interpreter.start_accounts hhome program⟩
  | step _ hs ih =>
    obtain ⟨i, hi, h⟩ := ih
    exact ⟨i, hi, h.step hs⟩
  | conclude _ hf hc ih =>
    obtain ⟨i, hi, h⟩ := ih
    exact idle_housed (Interpreter.conclude_follows hi h hf hc).isHome

section

variable (hm : m.Orderly)
include hm

theorem Orderly.value {v : Value} (hv : m.Has v) : v.Orderly := by
  have hcontrol := hm.control
  cases hv with
  | scope hv => exact hm.state.store.scopes _ _ v hv
  | field ho hv => exact hm.state.store.fields _ _ ho _ v hv
  | outcome hc =>
    rw [hc] at hcontrol
    exact hcontrol
  | returned hc =>
    rw [hc] at hcontrol
    exact hcontrol.1
  | @frame frame _ hf hv =>
    obtain ⟨pushed, k, hstack⟩ := List.append_of_mem hf
    have hbelow : Stack.Orderly (frame :: k) := Stack.Orderly.of_append (hstack ▸ hm.stack)
    have hframe : frame.Orderly k := hbelow.1
    cases frame with
    | binaryRight =>
      obtain rfl := List.mem_singleton.1 hv
      exact hframe
    | argument =>
      obtain rfl | hv := List.mem_cons.1 hv
      · exact hframe.1
      · exact hframe.2 v hv
    | _ => cases hv

theorem Orderly.method {d : Class} (hd : m.HasClass d) {x : String} {method : Closure}
    (hx : d.methods.find? x = some method) :
    method.decl.name.lexeme = x ∧ method.isInitializer = (x == "init") := by
  obtain ⟨c, hc, hv | ⟨o, ob, ho, rfl⟩⟩ := hd
  · have hclass : c.Orderly := hm.value hv
    exact (hclass d hc x method hx).2
  · exact (hm.state.store.classes o ob ho d hc x method hx).2

end

/-- At every moment in the life of an interpreter: a statement outside of all bodies, and so every statement of a
program, ends without a `return`; methods called `init` are taken for initializers, and the body of an initializer ends
without a `return` or with one of nil; a `return` stands in a body, and if that is not an initializer's its value goes
to the caller at once; and a call of a function that comes back has given the value of the first `return` executed in
its body, or nil if there was none. -/
theorem Life.return_sound {sink : Sink} {clock : Clock} (h : Life (Interpreter.new sink clock).idle m) :
    (∀ flow, m.control = .done flow → (∀ c, .result c ∉ m.stack) → flow = .normal) ∧
    (∀ d, m.HasClass d → ∀ x method, d.methods.find? x = some method →
      method.decl.name.lexeme = x ∧ method.isInitializer = (x == "init")) ∧
    (∀ flow c k, m.control = .done flow → m.stack = .result c :: k → c.isInitializer = true →
      flow = .normal ∨ flow = .returned .nil) ∧
    (∀ v l, m.returns? = some (v, l) → ∃ c k, m.ReturnsTo (.result c :: k) v ∧
      (c.isInitializer = false → ∃ k', k = .leave :: k' ∧ m.HandsOver v k')) ∧
    ∀ i k id c arguments line w j, m = invoke i k (.function id c) arguments line → c.isInitializer = false →
      m.Returns k w j → m.Answers i.env c k w := by
  have hgood (x : Machine) (hx : Steps m x) : x.Orderly ∧ x.Yields .flow := by
    obtain ⟨i, -, haccounts⟩ := (h.steps hx).housed (idle_housed ⟨rfl, rfl⟩)
    exact ⟨(h.steps hx).orderly (new_orderly sink clock), haccounts.yields⟩
  obtain ⟨ho, hy⟩ := hgood m (.refl m)
  refine ⟨?_, fun d hd x method ↦ ho.method hd, ?_, ?_, ?_⟩
  · intro flow hflow hno
    have hcontrol := ho.control
    rw [hflow, Stack.running?_eq_none hno] at hcontrol
    cases flow with
    | normal => rfl
    | returned v => cases hcontrol.2.1
  · intro flow c k hflow hstack hc
    have hcontrol := ho.control
    rw [hflow, hstack] at hcontrol
    cases flow with
    | normal => exact .inl rfl
    | returned v => exact .inr (congrArg Flow.returned (hcontrol.2.2 (congrArg some hc)))
  · intro v l hr
    obtain ⟨b, hb⟩ := Option.isSome_iff_exists.1 (ho.of_returns? hr).2
    obtain ⟨pushed, c, k, rfl, hno, -⟩ := Stack.exists_of_running? hb
    exact ⟨c, k, ⟨pushed, hr, hno⟩, handsOver ho hy hr hno⟩
  · rintro i k id c arguments line w j rfl hc hreturns
    exact hreturns.answers hc hgood

/-- A method returns from within a loop, with what another method returns; before that an initializer does without a
value. -/
def nestedReturns : String :=
  "class A \x7b init(x) \x7b while (x) \x7b return; \x7d print x; \x7d" ++
    "m(x) \x7b \x7b while (true) \x7b if (x) \x7b return this.n(); \x7d \x7d \x7d print x; \x7d" ++
    "n() \x7b return true; \x7d \x7d A(true).m(true);"

theorem nestedReturns_sound :
    ∃ m i k id c b line w j, Life (Interpreter.new .unbounded .ticking).idle m ∧
      m = invoke i k (.function id c) [b] line ∧ c.isInitializer = false ∧ m.Returns k w j ∧ w.isTruthy = true ∧
      m.Answers i.env c k w := by
  have hreach : ((Session.new .unbounded .ticking).reach 27 nestedReturns).any (fun m ↦
      m.applies?.any (fun call ↦ call.2.1.length == 1 && call.1.closure?.any (!·.isInitializer)) &&
        (m.callResult? 60).any (·.1.isTruthy)) = true := by decide +kernel
  obtain ⟨m, hm, hp⟩ := (Option.any_eq_true _ _).1 hreach
  obtain ⟨program, s', hprepare, hsteps⟩ := Session.steps_of_reach hm
  have hlife : Life (Interpreter.new .unbounded .ticking).idle m := (Life.refl.accept hprepare).steps hsteps
  obtain ⟨hcall, hresult⟩ := Bool.and_eq_true_iff.1 hp
  obtain ⟨⟨f, arguments, k⟩, ha, hcall⟩ := (Option.any_eq_true _ _).1 hcall
  obtain ⟨⟨w, j⟩, hw, htruthy⟩ := (Option.any_eq_true _ _).1 hresult
  obtain ⟨hone, hcall⟩ := Bool.and_eq_true_iff.1 hcall
  obtain ⟨b, rfl⟩ := List.length_eq_one_iff.1 (beq_iff_eq.1 hone)
  obtain ⟨c, hc, hplain⟩ := (Option.any_eq_true _ _).1 hcall
  have hplain : c.isInitializer = false := by simpa using hplain
  obtain ⟨id, rfl⟩ := Value.eq_of_closure? hc
  obtain ⟨-, line, hs, hreturns⟩ := (returns_of_callResult? ha hw).invoke ha
  exact ⟨_, m.state, k, id, c, b, line, w, j, .step hlife hs, rfl, hplain, hreturns, htruthy,
    (Life.step hlife hs).return_sound.2.2.2.2 m.state k id c [b] line w j rfl hplain hreturns⟩

end Machine

end Lox
