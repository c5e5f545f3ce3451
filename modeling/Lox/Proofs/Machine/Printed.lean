import Lox.Proofs.Machine.Silent

namespace Lox

namespace Sink

def unlimited (k : Sink) : Sink := ⟨k.output, none, "", none⟩

/-- The sink with what it has taken so far, and room for a number of prints; it fails afterwards. -/
def limited (room : Nat) (reason : String) (k : Sink) : Sink := ⟨k.output, some room, reason, none⟩

def IsFree (k : Sink) : Prop := k.room = none ∧ k.flushError = none

theorem unlimited_isFree (k : Sink) : k.unlimited.IsFree := ⟨rfl, rfl⟩

theorem IsFree.print {k : Sink} (h : k.IsFree) (text : String) : (k.print text).IsFree :=
  ⟨by rw [Sink.print, h.1, Option.map_none], h.2⟩

theorem IsFree.isFull {k : Sink} (h : k.IsFree) : k.isFull = false := by
  rw [Sink.isFull, h.1]
  rfl

end Sink

def Frame.isHost : Frame → Bool
  | .host _ _ => true
  | _ => false

namespace Interpreter

def unlimited (i : Interpreter) : Interpreter := i.withSink i.sink.unlimited

def limited (room : Nat) (reason : String) (i : Interpreter) : Interpreter :=
  i.withSink (i.sink.limited room reason)

end Interpreter

namespace Machine

def limited (room : Nat) (reason : String) (m : Machine) : Machine :=
  m.withSink (m.state.sink.limited room reason)

/-- The text that the next step prints, if it prints one. -/
def printedNow (m : Machine) : List String := (m.prints?.map Prod.snd).toList

def printed : Nat → Machine → List String
  | 0, _ => []
  | n + 1, m => m.printedNow ++ (m.step.map (printed n)).getD []

def asLines (texts : List String) : String := String.join (texts.map (· ++ "\n"))

theorem asLines_append (l l' : List String) : asLines (l ++ l') = asLines l ++ asLines l' := by
  simp [asLines]

section

variable {m m' : Machine} {room : Nat} {reason : String}

theorem printedNow_of_eq_none (h : m.prints? = none) : m.printedNow = [] := by rw [printedNow, h]; rfl

theorem printed_succ {n : Nat} (hs : m.step = some m') : m.printed (n + 1) = m.printedNow ++ m'.printed n := by
  rw [printed, hs, Option.map_some, Option.getD_some]

theorem printed_succ_of_step_eq_none {n : Nat} (hs : m.step = none) : m.printed (n + 1) = m.printedNow := by
  rw [printed, hs, Option.map_none, Option.getD_none, List.append_nil]

theorem printedNow_of_eq_some {p : Nat × String} (h : m.prints? = some p) : m.printedNow = [p.2] := by
  rw [printedNow, h]
  rfl

theorem isFinal_withSink (s : Sink) : (m.withSink s).isFinal = m.isFinal := by
  obtain ⟨c, k, i⟩ := m
  cases c <;> cases k <;> rfl

theorem step_of_prints {p : Nat × String} (hm : m.state.sink.IsFree) (hp : m.prints? = some p) :
    ∃ k, m.stack = .print p.1 :: k ∧
      m.step = some ⟨.done .normal, k, m.state.withSink (m.state.sink.print p.2)⟩ := by
  obtain ⟨v, k, heq, htext⟩ := prints?_eq_some hp
  refine ⟨k, by rw [heq], ?_⟩
  have hfull : ¬ m.state.sink.isFull = true := by simp [hm.isFull]
  rw [htext, heq]
  exact if_neg hfull

theorem prints?_of_step_eq_none (hs : m.step = none) : m.prints? = none := by
  cases hp : m.prints? with
  | none => rfl
  | some p =>
    obtain ⟨v, k, heq, -⟩ := prints?_eq_some hp
    rw [heq] at hs
    simp only [step, resume] at hs
    split at hs <;> cases hs

/-- One step puts what it prints into the sink, and nothing else. -/
theorem step_printedNow (hm : m.state.sink.IsFree) (hs : m.step = some m') :
    m'.state.sink.IsFree ∧ m'.state.sink.output = m.state.sink.output ++ asLines m.printedNow := by
  cases hp : m.prints? with
  | none =>
    rw [step_sink hs hp, printedNow_of_eq_none hp]
    exact ⟨hm, (String.append_empty).symm⟩
  | some p =>
    obtain ⟨k, -, hstep⟩ := step_of_prints hm hp
    cases hs.symm.trans hstep
    refine ⟨hm.print p.2, ?_⟩
    simp [printedNow_of_eq_some hp, asLines, Interpreter.withSink, Sink.print, String.append_assoc, String.join]

/-- A step that a sink with some room takes as a sink without end does. -/
theorem step_limited (hm : m.state.sink.IsFree) (hroom : m.printedNow.length ≤ room) :
    (m.limited room reason).step = m.step.map (·.limited (room - m.printedNow.length) reason) := by
  cases hp : m.prints? with
  | none =>
    rw [printedNow_of_eq_none hp, List.length_nil, Nat.sub_zero]
    have hstep := step_withSink hp (m.state.sink.limited room reason)
    cases hs : m.step with
    | none => rwa [hs] at hstep
    | some m' =>
      rw [hs] at hstep
      simpa only [Option.map_some, limited, step_sink hs hp] using hstep
  | some p =>
    obtain ⟨v, k, heq, -⟩ := prints?_eq_some hp
    rw [printedNow_of_eq_some hp] at hroom ⊢
    obtain ⟨room, rfl⟩ := Nat.exists_eq_add_of_le' hroom
    have hfull : ¬ m.state.sink.isFull = true := by simp [hm.isFull]
    have hstep : m.step = some ⟨.done .normal, k,
        m.state.withSink (m.state.sink.print (m.state.store.display v))⟩ := by
      rw [heq]
      exact if_neg hfull
    rw [hstep, heq]
    rfl

theorem step_limited_zero {v : Value} {line : Nat} {k : Stack} {i : Interpreter} :
    (limited 0 reason ⟨.value v, .print line :: k, i⟩).step =
      some (limited 0 reason ⟨.fault ⟨.notWritten reason, line⟩, k, i⟩) := rfl

/-- As long as there is room, a run is the one with a sink without end. -/
theorem after_limited {n : Nat} (hm : m.state.sink.IsFree) (hroom : (m.printed n).length ≤ room) :
    (m.limited room reason).after n = (m.after n).map (·.limited (room - (m.printed n).length) reason) := by
  induction n generalizing m room with
  | zero => rfl
  | succ n ih =>
    cases hs : m.step with
    | none =>
      have hnone := printedNow_of_eq_none (prints?_of_step_eq_none hs)
      have hlow : m.printedNow.length ≤ room := by rw [hnone]; exact Nat.zero_le _
      rw [after, after, step_limited hm hlow, hs]
      rfl
    | some m' =>
      rw [printed_succ hs, List.length_append] at hroom ⊢
      rw [after, after, step_limited hm (by omega), hs, Option.map_some, Option.bind_some, Option.bind_some,
        ih (step_printedNow hm hs).1 (by omega), Nat.sub_sub]

theorem after_output {n : Nat} (hm : m.state.sink.IsFree) (h : m.after n = some m') :
    m'.state.sink.IsFree ∧ m'.state.sink.output = m.state.sink.output ++ asLines (m.printed n) := by
  induction n generalizing m with
  | zero =>
    cases h
    exact ⟨hm, String.append_empty.symm⟩
  | succ n ih =>
    obtain ⟨m₁, hs, h⟩ := Option.bind_eq_some_iff.1 h
    obtain ⟨hm₁, hout⟩ := step_printedNow hm hs
    refine ⟨(ih hm₁ h).1, ?_⟩
    rw [(ih hm₁ h).2, hout, printed_succ hs, asLines_append, String.append_assoc]

/-- With room for all that is printed, a run ends as with a sink without end. -/
theorem run_limited {fuel : Nat} (hm : m.state.sink.IsFree) (hroom : (m.printed fuel).length ≤ room) :
    run fuel (m.limited room reason) = (run fuel m).map (·.limited (room - (m.printed fuel).length) reason) := by
  induction fuel generalizing m room with
  | zero => rfl
  | succ fuel ih =>
    have hfinal : (m.limited room reason).isFinal = m.isFinal := isFinal_withSink _
    cases hs : m.step with
    | none =>
      have hnone := printedNow_of_eq_none (prints?_of_step_eq_none hs)
      rw [printed_succ_of_step_eq_none hs, hnone]
      have hlow : m.printedNow.length ≤ room := by rw [hnone]; exact Nat.zero_le _
      rw [run, run, hfinal, step_limited hm hlow, hs]
      split <;> rfl
    | some m' =>
      rw [printed_succ hs, List.length_append] at hroom ⊢
      have hstep : (m.limited room reason).step = _ := step_limited hm (by omega)
      rw [hs] at hstep
      rw [run_succ hstep, run_succ hs, ih (step_printedNow hm hs).1 (by omega), Nat.sub_sub]

/-- A run that prints more than a number of texts comes to the first of them that is too much. -/
theorem exists_print {n : Nat} (hm : m.state.sink.IsFree) (h : room < (m.printed n).length) :
    ∃ n m', m.after n = some m' ∧ (m.printed n).length = room ∧ m'.prints?.isSome = true := by
  induction n generalizing m room with
  | zero => cases h
  | succ n ih =>
    cases hs : m.step with
    | none =>
      rw [printed_succ_of_step_eq_none hs, printedNow_of_eq_none (prints?_of_step_eq_none hs)] at h
      cases h
    | some m₁ =>
      have hlength (n : Nat) : (m.printed (n + 1)).length = m.printedNow.length + (m₁.printed n).length := by
        rw [printed_succ hs, List.length_append]
      rw [hlength] at h
      by_cases hnow : m.printedNow.length ≤ room
      · have hrest : room - m.printedNow.length < (m₁.printed n).length := by omega
        obtain ⟨n', m', hafter, hlen, hp⟩ := ih (step_printedNow hm hs).1 hrest
        refine ⟨n' + 1, m', ?_, by rw [hlength]; omega, hp⟩
        rw [after, hs]
        exact hafter
      · cases hp : m.prints? with
        | none => exact absurd (Nat.zero_le _) (printedNow_of_eq_none hp ▸ hnow)
        | some p =>
          rw [printedNow_of_eq_some hp, List.length_singleton] at hnow
          exact ⟨0, m, rfl, (by omega : 0 = room), by rw [hp]; rfl⟩

end

/-- After a number of steps a statement that prints is under way: it was begun on the given stack, and
its frame has been there ever since. -/
def IsPrinting (m : Machine) (n : Nat) (e : Expr) (k : Stack) : Prop :=
  ∃ a i, a < n ∧ m.after a = some ⟨.exec (.print e), k, i⟩ ∧
    ∀ c m', a < c → c ≤ n → m.after c = some m' → .print e.line :: k <:+ m'.stack

theorem exists_isPrinting {m m' : Machine} (hm : ∀ line, .print line ∉ m.stack) {n : Nat}
    (h : m.after n = some m') {line : Nat} {k : Stack} (hk : .print line :: k <:+ m'.stack) :
    ∃ e, line = e.line ∧ m.IsPrinting n e k := by
  induction n generalizing m' with
  | zero =>
    cases h
    exact absurd (hk.subset List.mem_cons_self) (hm line)
  | succ n ih =>
    rw [after_succ] at h
    obtain ⟨m₁, h₁, hs⟩ := Option.bind_eq_some_iff.1 h
    have hlast {c : Nat} {m₂ : Machine} (hc : c = n + 1) (h₂ : m.after c = some m₂) : m₂ = m' := by
      rw [hc, after_succ, h] at h₂
      exact (Option.some.inj h₂).symm
    rcases step_print_suffix hs hk with hk₁ | ⟨e, hc, rfl, hstack, hstack'⟩
    · obtain ⟨e, rfl, a, i, ha, hbegun, hsince⟩ := ih h₁ hk₁
      refine ⟨e, rfl, a, i, by omega, hbegun, fun c m₂ hac hcn h₂ ↦ ?_⟩
      by_cases hc : c = n + 1
      · rwa [hlast hc h₂]
      · exact hsince c m₂ hac (by omega) h₂
    · refine ⟨e, rfl, n, m₁.state, by omega, ?_, fun c m₂ hac hcn h₂ ↦ ?_⟩
      · rw [h₁, ← hc, ← hstack]
      · rwa [hlast (by omega) h₂]

/-- A fault goes through frames that are not those of a host function: only scopes and depth change. -/
theorem steps_fault {above : Stack} (h : ∀ frame ∈ above, frame.isHost = false) (f : Fault) (k : Stack)
    (i : Interpreter) :
    ∃ env depth, Steps ⟨.fault f, above ++ k, i⟩ ⟨.fault f, k, { i with env := env, depth := depth }⟩ := by
  induction above generalizing i with
  | nil => exact ⟨i.env, i.depth, .refl _⟩
  | cons frame above ih =>
    obtain ⟨hframe, habove⟩ := List.forall_mem_cons.1 h
    cases frame with
    | host line next => cases hframe
    | block rest saved =>
      obtain ⟨env, depth, hsteps⟩ := ih habove { i with env := saved }
      exact ⟨env, depth, hsteps.head rfl⟩
    | leave =>
      obtain ⟨env, depth, hsteps⟩ := ih habove { i with depth := i.depth - 1 }
      exact ⟨env, depth, hsteps.head rfl⟩
    | _ =>
      obtain ⟨env, depth, hsteps⟩ := ih habove i
      exact ⟨env, depth, hsteps.head rfl⟩

end Machine

end Lox
