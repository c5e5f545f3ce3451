import Lox.Proofs.Machine.VariantRun
import Lox.Proofs.Session.Restored

namespace Lox

open Scope Machine

namespace Interpreter

/-- The statements of a program one after the other, up to the first fault if there is one. -/
inductive Executes : List Stmt → Interpreter → Option Fault → Interpreter → Prop
  | nil (i : Interpreter) : Executes [] i none i
  | fault {s : Stmt} {f : Fault} {i j : Interpreter} (rest : List Stmt)
      (h : Steps ⟨.exec s, [], i⟩ ⟨.fault f, [], j⟩) : Executes (s :: rest) i (some f) j
  | cons {s : Stmt} {rest : List Stmt} {flow : Flow} {o : Option Fault} {i i₁ j : Interpreter}
      (h : Steps ⟨.exec s, [], i⟩ ⟨.done flow, [], i₁⟩) (hr : Executes rest i₁ o j) :
      Executes (s :: rest) i o j

theorem executes_append_iff {p q : List Stmt} {i j : Interpreter} {o : Option Fault} :
    Executes (p ++ q) i o j ↔
      (o ≠ none ∧ Executes p i o j) ∨ ∃ i₁, Executes p i none i₁ ∧ Executes q i₁ o j := by
  constructor
  · intro h
    induction p generalizing i with
    | nil => exact .inr ⟨i, .nil i, h⟩
    | cons s p ih =>
      cases h with
      | fault _ hs => exact .inl ⟨nofun, .fault p hs⟩
      | cons hs hr =>
        rcases ih hr with ⟨ho, hp⟩ | ⟨i₁, hp, hq⟩
        · exact .inl ⟨ho, .cons hs hp⟩
        · exact .inr ⟨i₁, .cons hs hp, hq⟩
  · intro h
    rcases h with ⟨ho, hp⟩ | ⟨i₁, hp, hq⟩
    · induction hp with
      | nil => exact absurd rfl ho
      | fault rest hs => exact .fault (rest ++ q) hs
      | cons hs _ ih => exact .cons hs (ih ho)
    · induction p generalizing i with
      | nil =>
        cases hp
        exact hq
      | cons s p ih =>
        cases hp with
        | cons hs hr => exact .cons hs (ih hr)

/-- A state at the top level in which the statements of accepted programs can be run. -/
structure Takes (A : List Accepted) (p : List Stmt) (i : Interpreter) : Prop where
  fits : i.Fits A
  isHome : i.IsHome
  places : ∀ s ∈ p, At A (.stmt s) []

theorem vary_refl (i : Interpreter) (k : Stack) : i.vary ⟨.refl, k, i.distances⟩ = i := by
  simp [Interpreter.vary]

section

variable {A : List Accepted} {i : Interpreter} {s : Stmt} {p : List Stmt}

theorem afterDeclaring_nil (name : Option Token) : afterDeclaring name [] = [] := by
  cases name <;> rfl

theorem Takes.of_at (hi : i.Fits A) (hhome : i.IsHome) (hp : At A (.stmts p) []) : i.Takes A p := by
  refine ⟨hi, hhome, ?_⟩
  induction p with
  | nil => nofun
  | cons s p ih =>
    obtain ⟨hs, hrest⟩ := hp.stmts
    rw [afterDeclaring_nil] at hrest
    exact List.forall_mem_cons.2 ⟨hs, ih hrest⟩

theorem Takes.exec_fits (h : i.Takes A (s :: p)) : Machine.Fits A ⟨.exec s, [], i⟩ := by
  have hat : At A (.stmt s) [] := h.places s (.head _)
  refine ⟨h.fits, [], hat, ?_, ?_⟩
  · rw [h.isHome.1]
    exact .globals
  · rw [afterDeclaring_nil]
    exact .nil h.isHome.1

theorem Takes.rest (h : i.Takes A (s :: p)) {c : Control} {j : Interpreter}
    (hs : Steps ⟨.exec s, [], i⟩ ⟨c, [], j⟩) (hf : Machine.isFinal ⟨c, [], j⟩ = true) :
    j.Takes A p ∧ j.distances = i.distances := by
  have hle : i.depth ≤ maxCallDepth := by
    rw [h.isHome.2]
    exact Nat.zero_le _
  have hfits := hs.invariant h.exec_fits fun _ _ ↦ step_fits
  have haccounts := (exec_accounts hle s).steps hs
  obtain ⟨henv, hdepth⟩ := haccounts.restored (step_of_isFinal hf)
  have hglobals : j.globals = i.globals := haccounts.globals
  refine ⟨⟨hfits.state, ⟨?_, hdepth.trans h.isHome.2⟩, fun t ht ↦ h.places t (.tail _ ht)⟩,
    haccounts.distances⟩
  rw [globalEnv, hglobals]
  exact henv.trans h.isHome.1

theorem Takes.allows (h : i.Takes A (s :: p)) (k : Stack) :
    Allows ⟨.refl, k, i.distances⟩ ⟨.exec s, [], i⟩ := by
  intro m hm
  have hfits := hm.invariant h.exec_fits fun _ _ ↦ step_fits
  exact ⟨hfits.plain, hfits.readsAlike (fun _ ↦ rfl) h.fits.distances⟩

theorem Takes.steps_above (h : i.Takes A (s :: p)) {c : Control} {j : Interpreter}
    (hs : Steps ⟨.exec s, [], i⟩ ⟨c, [], j⟩) (hf : Machine.isFinal ⟨c, [], j⟩ = true) (k : Stack) :
    Steps ⟨.exec s, k, i⟩ ⟨c.relabel .refl, k, j⟩ := by
  have hsteps := (h.allows k).steps_vary hs
  have hD := (h.rest hs hf).2
  have hj : j.vary ⟨.refl, k, i.distances⟩ = j := by rw [← hD, vary_refl]
  rwa [Machine.vary, Machine.vary, Control.relabel, Stmt.relabel_refl, vary_refl, hj] at hsteps

theorem Takes.exists_end (h : i.Takes A (s :: p)) {k : Stack} {fuel : Nat} {m : Machine}
    (hr : Machine.run fuel ⟨.exec s, k, i⟩ = some m) :
    ∃ m₁, Steps ⟨.exec s, [], i⟩ m₁ ∧ m₁.isFinal = true := by
  have hstart : (⟨.exec s, [], i⟩ : Machine).vary ⟨.refl, k, i.distances⟩ = ⟨.exec s, k, i⟩ := by
    rw [Machine.vary, Control.relabel, Stmt.relabel_refl, vary_refl]
    rfl
  exact (h.allows k).exists_run (hstart ▸ hr)

theorem Takes.end_eq (h : i.Takes A (s :: p)) {m : Machine} (hs : Steps ⟨.exec s, [], i⟩ m)
    (hf : m.isFinal = true) : ∃ c j, m = ⟨c, [], j⟩ ∧ ((∃ flow, c = .done flow) ∨ ∃ f, c = .fault f) := by
  have hle : i.depth ≤ maxCallDepth := by
    rw [h.isHome.2]
    exact Nat.zero_le _
  have hyields := ((exec_accounts hle s).steps hs).yields
  obtain ⟨hk, -, y, hy⟩ := hyields.of_step_eq_none (step_of_isFinal hf)
  obtain ⟨c, k, j⟩ := m
  have hk : k = [] := hk
  subst hk
  refine ⟨c, j, rfl, ?_⟩
  cases c with
  | done flow => exact .inl ⟨flow, rfl⟩
  | fault f => exact .inr ⟨f, rfl⟩
  | exec => cases hf
  | eval | act | value => cases hy

end

def ended (o : Option Fault) (j : Interpreter) : Machine :=
  match o with
  | none => ⟨.done .normal, [], j⟩
  | some f => ⟨.fault f, [], j⟩

theorem ended_isFinal (o : Option Fault) (j : Interpreter) : (ended o j).isFinal = true := by
  cases o <;> rfl

theorem steps_program {rest : List Stmt} {flow : Flow} {i : Interpreter} {m : Machine}
    (h : Steps (i.start rest) m) (hm : m.isFinal = true) : Steps ⟨.done flow, [.program rest], i⟩ m := by
  have hstep : Machine.step ⟨.done flow, [.program rest], i⟩ = (i.start rest).step := by
    cases rest <;> rfl
  rcases h.eq_or_head with rfl | ⟨m₁, hs, h₁⟩
  · cases hm
  · exact .head (hstep.trans hs) h₁

theorem Executes.steps {A : List Accepted} {p : List Stmt} {i j : Interpreter} {o : Option Fault}
    (h : Executes p i o j) (hi : i.Takes A p) : Steps (i.start p) (ended o j) := by
  induction h with
  | nil i => exact .step (.refl _) rfl
  | fault rest hs =>
    have habove := hi.steps_above hs rfl [.program rest]
    exact .head rfl (.step habove rfl)
  | @cons s rest flow o i i₁ j hs _ ih =>
    have habove := hi.steps_above hs rfl [.program rest]
    have hrest := ih (hi.rest hs rfl).1
    exact .head rfl (habove.trans (steps_program hrest (ended_isFinal o j)))

/-- A run of a program is the execution of its statements. -/
theorem executes_of_run {A : List Accepted} {p : List Stmt} {i : Interpreter} (hi : i.Takes A p)
    {fuel : Nat} {m : Machine} (h : Machine.run fuel (i.start p) = some m) :
    ∃ o j, Executes p i o j ∧ m = ended o j := by
  induction p generalizing i fuel with
  | nil =>
    have hend : Steps (i.start []) (ended none i) := .step (.refl _) rfl
    exact ⟨none, i, .nil i, run_eq_of_isFinal h hend rfl⟩
  | cons s rest ih =>
    obtain ⟨fuel₁, h₁⟩ := run_rest h (.step (.refl _) rfl : Steps _ ⟨.exec s, [.program rest], i⟩)
    obtain ⟨m₁, hs, hf⟩ := hi.exists_end h₁
    obtain ⟨c, j, rfl, hc⟩ := hi.end_eq hs hf
    have habove := hi.steps_above hs hf [.program rest]
    rcases hc with ⟨flow, rfl⟩ | ⟨f, rfl⟩
    · obtain ⟨fuel₂, h₂⟩ := run_rest h₁ habove
      have hrun : ∃ fuel₃, Machine.run fuel₃ (j.start rest) = some m := by
        cases fuel₂ with
        | zero => cases h₂
        | succ fuel₂ => exact ⟨fuel₂ + 1, by rw [← h₂]; cases rest <;> rfl⟩
      obtain ⟨fuel₃, h₃⟩ := hrun
      obtain ⟨o, j', hr, rfl⟩ := ih (hi.rest hs hf).1 h₃
      exact ⟨o, j', .cons hs hr, rfl⟩
    · have hend : Steps ⟨.exec s, [.program rest], i⟩ (ended (some f) j) := .step habove rfl
      exact ⟨some f, j, .fault rest hs, run_eq_of_isFinal h₁ hend rfl⟩

theorem run_start_iff {A : List Accepted} {p : List Stmt} {i : Interpreter} (hi : i.Takes A p)
    {m : Machine} : (∃ fuel, Machine.run fuel (i.start p) = some m) ↔
      ∃ o j, Executes p i o j ∧ m = ended o j := by
  constructor
  · intro h
    obtain ⟨fuel, h⟩ := h
    exact executes_of_run hi h
  · intro h
    obtain ⟨o, j, h, rfl⟩ := h
    exact (h.steps hi).run (run_of_isFinal (ended_isFinal o j))

theorem Executes.takes {A : List Accepted} {p q : List Stmt} {i j : Interpreter}
    (h : Executes p i none j) (hi : i.Takes A (p ++ q)) : j.Takes A q := by
  induction p generalizing i with
  | nil =>
    cases h
    exact hi
  | cons s p ih =>
    cases h with
    | cons hs hr => exact ih hr (hi.rest hs rfl).1

theorem Takes.left {A : List Accepted} {p q : List Stmt} {i : Interpreter} (h : i.Takes A (p ++ q)) :
    i.Takes A p :=
  ⟨h.fits, h.isHome, fun s hs ↦ h.places s (List.mem_append_left q hs)⟩

/-- Of two programs, the one behind is run where the first has ended, unless that was in a fault. -/
theorem run_append_iff {A : List Accepted} {p q : List Stmt} {i : Interpreter} (hi : i.Takes A (p ++ q))
    {m : Machine} : (∃ fuel, Machine.run fuel (i.start (p ++ q)) = some m) ↔
      (∃ f j, m = ended (some f) j ∧ ∃ fuel, Machine.run fuel (i.start p) = some m) ∨
      ∃ j, (∃ fuel, Machine.run fuel (i.start p) = some (ended none j)) ∧
        ∃ fuel, Machine.run fuel (j.start q) = some m := by
  rw [run_start_iff hi]
  constructor
  · intro h
    obtain ⟨o, j, h, rfl⟩ := h
    rcases executes_append_iff.1 h with ⟨ho, hp⟩ | ⟨i₁, hp, hq⟩
    · obtain ⟨f, rfl⟩ := Option.ne_none_iff_exists'.1 ho
      exact .inl ⟨f, j, rfl, (run_start_iff hi.left).2 ⟨some f, j, hp, rfl⟩⟩
    · exact .inr ⟨i₁, (run_start_iff hi.left).2 ⟨none, i₁, hp, rfl⟩,
        (run_start_iff (hp.takes hi)).2 ⟨o, j, hq, rfl⟩⟩
  · intro h
    rcases h with ⟨f, j, rfl, hp⟩ | ⟨j, hp, hq⟩
    · obtain ⟨o, j', hp, heq⟩ := (run_start_iff hi.left).1 hp
      cases o with
      | none => cases heq
      | some f' =>
        cases heq
        exact ⟨some f, j, executes_append_iff.2 (.inl ⟨nofun, hp⟩), rfl⟩
    · obtain ⟨o, j', hp, heq⟩ := (run_start_iff hi.left).1 hp
      cases o with
      | some f' => cases heq
      | none =>
        cases heq
        obtain ⟨o, j', hexec, rfl⟩ := (run_start_iff (hp.takes hi)).1 hq
        exact ⟨o, j', executes_append_iff.2 (.inr ⟨j, hp, hexec⟩), rfl⟩

end Interpreter

end Lox
