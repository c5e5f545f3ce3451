import Lox.Proofs.Machine.CallDepth
import Lox.Proofs.Session.History

namespace Lox

open Machine

/-- The calls of a machine that was started in a state: how many there are, and which of them overflow. -/
structure Interpreter.Counts (i : Interpreter) (m : Machine) : Prop where
  depth : m.state.depth = i.depth + Stack.calls m.stack
  limit : m.state.depth ≤ maxCallDepth
  /-- A counted call faults at the greatest depth, and no other fault of this kind ever comes up. -/
  overflows : ∀ m', m.step = some m' → (∀ f, m.control ≠ .fault f) → ∀ line,
    m'.control = .fault ⟨.stackOverflow, line⟩ ↔
      ∃ c, m.calls? = some (c, line) ∧ c.isCounted = true ∧ m.state.depth = maxCallDepth
  enters : ∀ c line, m.calls? = some (c, line) → c.isCounted = true → m.state.depth < maxCallDepth →
    ∃ m', m.step = some m' ∧ Stack.calls m'.stack = Stack.calls m.stack + 1

theorem Control.overflow?_eq_some_iff {c : Control} {line : Nat} :
    c.overflow? = some line ↔ c = .fault ⟨.stackOverflow, line⟩ := by
  refine ⟨fun h ↦ ?_, fun h ↦ h ▸ rfl⟩
  unfold overflow? at h
  split at h
  · cases h
    rfl
  · cases h

theorem Machine.overflowOf_eq_some_iff {depth line : Nat} {call : Option (Callable × Nat)} :
    overflowOf depth call = some line ↔
      ∃ c, call = some (c, line) ∧ c.isCounted = true ∧ maxCallDepth ≤ depth := by
  cases call with
  | none => simp [overflowOf]
  | some p =>
    obtain ⟨c, l⟩ := p
    simp only [overflowOf]
    split <;> grind

namespace Interpreter

variable {i i' : Interpreter}

theorem counts_of_accounts {m : Machine} {out : Yield} (h : Accounts i out m) : i.Counts m := by
  refine ⟨h.depth, h.limit, fun m' hs hm line ↦ ?_, fun c line hc hcounted hd ↦ calls_step hc hcounted hd⟩
  have hlimit := h.limit
  rw [← Control.overflow?_eq_some_iff, overflow?_step hs hm, overflowOf_eq_some_iff]
  refine exists_congr fun c ↦ and_congr_right fun _ ↦ and_congr_right fun _ ↦ ?_
  omega

theorem exists_evaluate {e : Expr} {m : Machine} (hm : Steps ⟨.eval e, [], i⟩ m)
    (h : Accounts i .value m) (hs : m.step = none) : ∃ fuel r, i.evaluate fuel e = some (r, m.state) := by
  obtain ⟨hk, hf, y, hy⟩ := h.yields.of_step_eq_none hs
  obtain ⟨fuel, hr⟩ := hm.run (run_of_isFinal hf)
  obtain ⟨c, k, j⟩ := m
  cases c with
  | value v => exact ⟨fuel, .ok v, by rw [evaluate, hr]; rfl⟩
  | fault f => exact ⟨fuel, .error f, by rw [evaluate, hr]; rfl⟩
  | eval | act => cases hs
  | exec | done => cases hy

theorem exists_execute {s : Stmt} {m : Machine} (hm : Steps ⟨.exec s, [], i⟩ m)
    (h : Accounts i .flow m) (hs : m.step = none) : ∃ fuel r, i.execute fuel s = some (r, m.state) := by
  obtain ⟨hk, hf, y, hy⟩ := h.yields.of_step_eq_none hs
  obtain ⟨fuel, hr⟩ := hm.run (run_of_isFinal hf)
  obtain ⟨c, k, j⟩ := m
  cases c with
  | done flow => exact ⟨fuel, .ok flow, by rw [execute, hr]; rfl⟩
  | fault f => exact ⟨fuel, .error f, by rw [execute, hr]; rfl⟩
  | exec => cases hs
  | eval | act | value => cases hy

theorem valueOf_state {m : Machine} {r : Except Fault Value} (h : valueOf m = some (r, i)) :
    m.state = i := by
  unfold valueOf at h
  split at h <;> cases h <;> rfl

theorem flowOf_state {m : Machine} {r : Except Fault Flow} (h : flowOf m = some (r, i)) :
    m.state = i := by
  unfold flowOf at h
  split at h <;> cases h <;> rfl

theorem evaluate_restores (hi : i.depth ≤ maxCallDepth) {fuel : Nat} {e : Expr}
    {r : Except Fault Value} (h : i.evaluate fuel e = some (r, i')) : i'.env = i.env ∧ i'.depth = i.depth := by
  obtain ⟨m, hrun, hm⟩ := Option.bind_eq_some_iff.1 h
  obtain ⟨hsteps, hf⟩ := steps_of_run hrun
  rw [← valueOf_state hm]
  exact ((eval_accounts hi e).steps hsteps).restored (step_of_isFinal hf)

theorem execute_restores (hi : i.depth ≤ maxCallDepth) {fuel : Nat} {s : Stmt}
    {r : Except Fault Flow} (h : i.execute fuel s = some (r, i')) : i'.env = i.env ∧ i'.depth = i.depth := by
  obtain ⟨m, hrun, hm⟩ := Option.bind_eq_some_iff.1 h
  obtain ⟨hsteps, hf⟩ := steps_of_run hrun
  rw [← flowOf_state hm]
  exact ((exec_accounts hi s).steps hsteps).restored (step_of_isFinal hf)

/-- At the top level: no scope but the global one, and no call. -/
def IsHome (i : Interpreter) : Prop := i.env = i.globalEnv ∧ i.depth = 0

theorem start_accounts (hi : i.IsHome) (program : List Stmt) : Accounts i .flow (i.start program) := by
  refine ⟨⟨.flow, rfl, rfl⟩, rfl, rfl, ?_, rfl, rfl, .refl _⟩
  show i.depth ≤ maxCallDepth
  rw [hi.2]
  exact Nat.zero_le _

theorem conclude_state {m : Machine} {ds : List Diagnostic} (h : conclude m = some (ds, i)) :
    i = m.state ∨ i = m.state.reset := by
  unfold conclude at h
  split at h
  · next j hj =>
    left
    rw [flowOf_state hj, ← flush_snd j []]
    exact congrArg Prod.snd (Option.some.inj h).symm
  · next f j hj =>
    right
    rw [flowOf_state hj, ← flush_snd j.reset [.fault f]]
    exact congrArg Prod.snd (Option.some.inj h).symm
  · cases h

/-- What a run of a program leaves as it is. -/
structure Follows (i i' : Interpreter) : Prop where
  isHome : i'.IsHome
  distances : i'.distances = i.distances
  globals : i'.globals = i.globals
  sink : i.sink.Extends i'.sink

theorem conclude_follows (hi : i.IsHome) {m : Machine} (h : Accounts i .flow m) (hf : m.isFinal = true)
    {ds : List Diagnostic} (hm : conclude m = some (ds, i')) : i.Follows i' := by
  obtain ⟨henv, hdepth⟩ := h.restored (step_of_isFinal hf)
  rcases conclude_state hm with rfl | rfl
  · refine ⟨⟨?_, hdepth.trans hi.2⟩, h.distances, h.globals, h.sink⟩
    rw [henv, hi.1, globalEnv, globalEnv, h.globals]
  · exact ⟨⟨rfl, rfl⟩, h.distances, h.globals, h.sink⟩

theorem interpret_follows (hi : i.IsHome) {fuel : Nat} {program : List Stmt} {ds : List Diagnostic}
    (h : i.interpret fuel program = some (ds, i')) : i.Follows i' := by
  obtain ⟨m, hrun, hm⟩ := Option.bind_eq_some_iff.1 h
  obtain ⟨hsteps, hf⟩ := steps_of_run hrun
  exact conclude_follows hi ((start_accounts hi program).steps hsteps) hf hm

end Interpreter

namespace Session

theorem prepare_interpreter {s s' : Session} {source : String}
    {r : Except (List Diagnostic) (List Stmt)} (h : s.prepare source = (r, s')) :
    ∃ D, s'.interpreter = { s.interpreter with distances := D } := by
  unfold prepare at h
  split at h
  · cases h
    exact ⟨_, rfl⟩
  · cases h
    exact ⟨_, rfl⟩

theorem run_isHome {s s' : Session} (hs : s.interpreter.IsHome) {fuel : Nat} {source : String}
    {ds : List Diagnostic} (h : s.run fuel source = some (ds, s')) : s'.interpreter.IsHome := by
  unfold run at h
  split at h
  · next hp =>
    cases h
    obtain ⟨D, hD⟩ := prepare_interpreter hp
    rw [hD]
    exact hs
  · next program s₁ hp =>
    obtain ⟨D, hD⟩ := prepare_interpreter hp
    split at h
    · next hi =>
      cases h
      refine (Interpreter.interpret_follows ?_ hi).isHome
      rw [hD]
      exact hs
    · cases h

end Session

def Interpreter.faultOf : Option (Except Fault Value × Interpreter) → Option Fault
  | some (.error f, _) => some f
  | _ => none

theorem Interpreter.exists_of_faultOf {r : Option (Except Fault Value × Interpreter)} {f : Fault}
    (h : faultOf r = some f) : ∃ i, r = some (.error f, i) := by
  unfold faultOf at h
  split at h
  · next i =>
    cases h
    exact ⟨i, rfl⟩
  · cases h

/-- Control is restored. Whatever is evaluated or executed, in any state of a depth that calls can
have: all along, the depth counts the running calls, and a call overflows exactly at the greatest depth;
and in the end, however it comes about, scopes and depth are those from the start. So a session that
runs a source at the top level is at the top level afterwards. -/
theorem Interpreter.control_restored (i : Interpreter) (hi : i.depth ≤ maxCallDepth) :
    (∀ e m, Steps ⟨.eval e, [], i⟩ m → i.Counts m ∧
      (m.step = none → ∃ fuel r, i.evaluate fuel e = some (r, m.state))) ∧
    (∀ fuel e r i', i.evaluate fuel e = some (r, i') → i'.env = i.env ∧ i'.depth = i.depth) ∧
    (∀ s m, Steps ⟨.exec s, [], i⟩ m → i.Counts m ∧
      (m.step = none → ∃ fuel r, i.execute fuel s = some (r, m.state))) ∧
    (∀ fuel s r i', i.execute fuel s = some (r, i') → i'.env = i.env ∧ i'.depth = i.depth) ∧
    ∀ s fuel source ds s', s.interpreter = i → i.env = i.globalEnv → i.depth = 0 →
      Session.run fuel source s = some (ds, s') →
      s'.interpreter.env = s'.interpreter.globalEnv ∧ s'.interpreter.depth = 0 := by
  refine ⟨fun e m hm ↦ ?_, fun _ _ _ _ ↦ evaluate_restores hi, fun s m hm ↦ ?_,
    fun _ _ _ _ ↦ execute_restores hi, fun s fuel source ds s' hs henv hdepth h ↦ ?_⟩
  · have haccounts := (eval_accounts hi e).steps hm
    exact ⟨counts_of_accounts haccounts, exists_evaluate hm haccounts⟩
  · have haccounts := (exec_accounts hi s).steps hm
    exact ⟨counts_of_accounts haccounts, exists_execute hm haccounts⟩
  · subst hs
    exact Session.run_isHome ⟨henv, hdepth⟩ h

theorem Interpreter.nested_call_restored : ∃ ds s i e i',
    Session.run 20 "class A { init() { A(); } }" (.new .unbounded .ticking) = some (ds, s) ∧
    s.interpreter.env = s.interpreter.globalEnv ∧ s.interpreter.depth = 0 ∧
    i = { s.interpreter with depth := 999 } ∧
    i.evaluate 20 e = some (.error ⟨.stackOverflow, 1⟩, i') ∧ i'.env = i.env ∧ i'.depth = 999 := by
  let callee : Expr := .var ⟨100, ⟨.identifier, "A", 1⟩⟩
  let e : Expr := .call callee [] ⟨.mark .rightParen, ")", 1⟩
  have hreach : (Session.run 20 "class A { init() { A(); } }" (.new .unbounded .ticking)).any (fun r ↦
      faultOf (evaluate 20 e { r.2.interpreter with depth := 999 }) = some ⟨.stackOverflow, 1⟩) = true := by
    decide +kernel
  obtain ⟨⟨ds, s⟩, hs, hfault⟩ := (Option.any_eq_true _ _).1 hreach
  obtain ⟨i', hi'⟩ := exists_of_faultOf (of_decide_eq_true hfault)
  obtain ⟨-, -, -, -, hrun⟩ := control_restored (new .unbounded .ticking) (Nat.zero_le _)
  obtain ⟨henv, hdepth⟩ := hrun (.new .unbounded .ticking) 20 _ ds s rfl rfl rfl hs
  have hlow : 999 ≤ maxCallDepth := by decide
  obtain ⟨-, hevaluate, -⟩ := control_restored { s.interpreter with depth := 999 } hlow
  obtain ⟨henv', hdepth'⟩ := hevaluate 20 e _ i' hi'
  exact ⟨ds, s, _, e, i', hs, henv, hdepth, rfl, hi', henv', hdepth'⟩

end Lox
