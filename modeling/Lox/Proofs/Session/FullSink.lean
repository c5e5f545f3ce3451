import Lox.Machine.Stock
import Lox.Proofs.Machine.Printed
import Lox.Session

namespace Lox

open Machine

namespace Interpreter

variable {i : Interpreter} {program : List Stmt} {room : Nat} {reason : String}

theorem conclude_limited {m : Machine} (hm : m.state.sink.IsFree) :
    conclude (m.limited room reason) = (conclude m).map fun r ↦ (r.1, r.2.limited room reason) := by
  have hflush {j : Interpreter} (hj : j.sink.IsFree) (ds : List Diagnostic) : j.flush ds = (ds, j) := by
    rw [flush, hj.2]
  obtain ⟨c, k, j⟩ := m
  cases c with
  | done flow =>
    show some _ = some _
    rw [hflush hm []]
    rfl
  | fault f =>
    have hreset : j.reset.sink.IsFree := hm
    show some _ = some _
    rw [hflush hreset [.fault f]]
    rfl
  | _ => rfl

theorem start_isFree (program : List Stmt) : (i.unlimited.start program).state.sink.IsFree :=
  i.sink.unlimited_isFree

theorem interpret_limited {fuel : Nat} (h : ((i.unlimited.start program).printed fuel).length ≤ room) :
    (i.limited room reason).interpret fuel program = (i.unlimited.interpret fuel program).map fun r ↦
      (r.1, r.2.limited (room - ((i.unlimited.start program).printed fuel).length) reason) := by
  have hstart : (i.limited room reason).start program =
      (i.unlimited.start program).limited room reason := rfl
  rw [interpret, interpret, hstart, run_limited (start_isFree program) h]
  cases hr : run fuel (i.unlimited.start program) with
  | none => rfl
  | some m =>
    have hm : m.state.sink.IsFree := (steps_of_run hr).1.invariant (P := fun m ↦ m.state.sink.IsFree)
      (start_isFree program) fun _ _ hm hs ↦ (step_printedNow hm hs).1
    exact conclude_limited hm

/-- A run that a full sink has stopped: it is where the run with a sink without end comes to its next
print, with `room` texts printed before. -/
structure StopsAt (i : Interpreter) (program : List Stmt) (room n : Nat) (m : Machine) (e : Expr)
    (k : Stack) : Prop where
  after : (i.unlimited.start program).after n = some m
  count : ((i.unlimited.start program).printed n).length = room
  printing : (i.unlimited.start program).IsPrinting n e k
  value : ∃ v, m = ⟨.value v, .print e.line :: k, m.state⟩
  output : m.state.sink.output = i.sink.output ++ asLines ((i.unlimited.start program).printed n)

theorem exists_stopsAt {n : Nat} (h : room < ((i.unlimited.start program).printed n).length) :
    ∃ n m e k, i.StopsAt program room n m e k := by
  obtain ⟨n, m, hafter, hcount, hprints⟩ := exists_print (start_isFree program) h
  obtain ⟨p, hp⟩ := Option.isSome_iff_exists.1 hprints
  obtain ⟨v, k, hm, -⟩ := prints?_eq_some hp
  have hnone (line : Nat) : .print line ∉ (i.unlimited.start program).stack := fun hmem ↦ by
    cases List.mem_singleton.1 hmem
  have hsuffix : .print p.1 :: k <:+ m.stack := hm ▸ List.suffix_rfl
  obtain ⟨e, hline, hprinting⟩ := exists_isPrinting hnone hafter hsuffix
  exact ⟨n, m, e, k, hafter, hcount, hprinting, ⟨v, hline ▸ hm⟩,
    (after_output (start_isFree program) hafter).2⟩

variable {n : Nat} {m : Machine} {e : Expr} {k : Stack}

theorem StopsAt.steps (h : i.StopsAt program room n m e k) (reason : String) :
    Steps ((i.limited room reason).start program)
      ⟨.fault ⟨.notWritten reason, e.line⟩, k, m.state.limited 0 reason⟩ := by
  obtain ⟨v, hm⟩ := h.value
  have hafter : ((i.unlimited.start program).limited room reason).after n = some (m.limited 0 reason) := by
    rw [after_limited (start_isFree program) (Nat.le_of_eq h.count), h.after, h.count, Nat.sub_self]
    rfl
  refine .step (steps_of_after hafter) ?_
  rw [hm]
  exact step_limited_zero

theorem StopsAt.interpret (h : i.StopsAt program room n m e k) (reason : String)
    (hk : ∀ frame ∈ k, frame.isHost = false) : ∃ fuel, (i.limited room reason).interpret fuel program =
      some ([.fault ⟨.notWritten reason, e.line⟩], (m.state.limited 0 reason).reset) := by
  obtain ⟨env, depth, hsteps⟩ := steps_fault hk ⟨.notWritten reason, e.line⟩ [] (m.state.limited 0 reason)
  rw [List.append_nil] at hsteps
  obtain ⟨fuel, hrun⟩ := ((h.steps reason).trans hsteps).run (run_of_isFinal rfl)
  exact ⟨fuel, by rw [Interpreter.interpret, hrun]; rfl⟩

/-- A full sink only truncates. Beside the run with a sink without end, one with room for a number of
prints is the same at every moment up to which no more are printed; so if that is never exceeded, it has
the same output and the same end, or none at all. Else it has printed exactly the texts for which there
was room when the statement `print e` finds the sink full. It reports nothing but that fault, on the line
of `e`, and leaves the interpreter at the top level with all else as it was when `e` had its value. Only
a host function in whose call `e` is printed is handed the fault instead. -/
theorem full_sink_truncates (i : Interpreter) (program : List Stmt) (room : Nat) (reason : String) :
    (∀ n, ((i.unlimited.start program).printed n).length ≤ room →
      ((i.limited room reason).start program).after n = ((i.unlimited.start program).after n).map
        (·.limited (room - ((i.unlimited.start program).printed n).length) reason)) ∧
    ((∀ n, ((i.unlimited.start program).printed n).length ≤ room) → ∀ fuel,
      (i.limited room reason).interpret fuel program = (i.unlimited.interpret fuel program).map fun r ↦
        (r.1, r.2.limited (room - ((i.unlimited.start program).printed fuel).length) reason)) ∧
    ((∃ n, room < ((i.unlimited.start program).printed n).length) →
      ∃ n m e k, i.StopsAt program room n m e k ∧
      ((∀ frame ∈ k, frame.isHost = false) → ∃ fuel, (i.limited room reason).interpret fuel program =
        some ([.fault ⟨.notWritten reason, e.line⟩], (m.state.limited 0 reason).reset)) ∧
      ∀ above line next below, k = above ++ .host line next :: below →
        (∀ frame ∈ above, frame.isHost = false) → ∃ env depth,
        Steps ((i.limited room reason).start program)
          ⟨.act line (next (.error ⟨.notWritten reason, e.line⟩)), below,
            { m.state.limited 0 reason with env := env, depth := depth }⟩) := by
  refine ⟨fun n h ↦ after_limited (start_isFree program) h, fun h fuel ↦ interpret_limited (h fuel), ?_⟩
  rintro ⟨n, hn⟩
  obtain ⟨n, m, e, k, hstops⟩ := exists_stopsAt hn
  refine ⟨n, m, e, k, hstops, hstops.interpret reason, fun above line next below hk habove ↦ ?_⟩
  obtain ⟨env, depth, hsteps⟩ :=
    steps_fault habove ⟨.notWritten reason, e.line⟩ (.host line next :: below) (m.state.limited 0 reason)
  rw [← hk] at hsteps
  exact ⟨env, depth, ((hstops.steps reason).trans hsteps).step rfl⟩

end Interpreter

def Session.prepared? (source : String) (s : Session) : Option (List Stmt × Session) :=
  match s.prepare source with
  | (.ok program, s') => some (program, s')
  | (.error _, _) => none

theorem Session.prepare_of_prepared? {source : String} {s s' : Session} {program : List Stmt}
    (h : s.prepared? source = some (program, s')) : s.prepare source = (.ok program, s') := by
  unfold prepared? at h
  split at h
  · next hp =>
    cases h
    exact hp
  · cases h

theorem Interpreter.second_print_truncated : ∃ program s n m e k fuel,
    (Session.new .unbounded .ticking).prepare "fun f() \x7b\n  print true;\n  print\n    false;\n\x7d\nf();" =
      (.ok program, s) ∧
    s.interpreter.StopsAt program 1 n m e k ∧ e.line = 4 ∧ m.state.sink.output = "true\n" ∧
    (s.interpreter.limited 1 "sink closed").interpret fuel program =
      some ([.fault ⟨.notWritten "sink closed", 4⟩], (m.state.limited 0 "sink closed").reset) := by
  have hcheck : (((Session.new .unbounded .ticking).prepared?
      "fun f() \x7b\n  print true;\n  print\n    false;\n\x7d\nf();").any fun p ↦
      let u := p.2.interpreter.unlimited.start p.1
      decide (1 < (u.printed 40).length) && (u.after 40).isNone && (List.range 40).all fun n ↦
        (u.after n).all fun m ↦ m.stack.all (fun frame ↦ !frame.isHost) &&
          ((u.printed n).length != 1 || m.prints?.all (·.1 == 4) && m.state.sink.output == "true\n")) =
      true := by
    decide +kernel
  obtain ⟨⟨program, s⟩, hp, hcheck⟩ := (Option.any_eq_true _ _).1 hcheck
  simp only [Bool.and_eq_true, decide_eq_true_eq, Option.isNone_iff_eq_none, List.all_eq_true,
    List.mem_range] at hcheck
  obtain ⟨⟨hmore, hend⟩, hall⟩ := hcheck
  obtain ⟨-, -, hstops⟩ := full_sink_truncates s.interpreter program 1 "sink closed"
  obtain ⟨n, m, e, k, hstops, hinterpret, -⟩ := hstops ⟨40, hmore⟩
  obtain ⟨v, hm⟩ := hstops.value
  have hn : n < 40 := by
    refine Nat.lt_of_not_le fun hn ↦ ?_
    cases (after_eq_none_of_le hend hn).symm.trans hstops.after
  have hlast := hall n hn
  rw [hstops.after, hstops.count, hm] at hlast
  simp only [Option.all_some, prints?, List.all_cons, Bool.and_eq_true, List.all_eq_true, bne_self_eq_false,
    Bool.false_or, beq_iff_eq, Bool.not_eq_true'] at hlast
  obtain ⟨⟨-, hhosts⟩, hline, houtput⟩ := hlast
  obtain ⟨fuel, hfuel⟩ := hinterpret hhosts
  rw [hline] at hfuel
  exact ⟨program, s, n, m, e, k, fuel, Session.prepare_of_prepared? hp, hstops, hline, houtput, hfuel⟩

/-- A host function that calls back is handed the fault of a print, and the fault of its own call is
on another line. -/
theorem Session.call_back_is_handed_fault :
    let host := { (Session.new ⟨"", some 0, "sink closed", none⟩ .ticking) with
      interpreter := (Interpreter.new ⟨"", some 0, "sink closed", none⟩ .ticking).defineNative "call0" 1
        (HostFunction.call0 77) }
    (host.run 60 "fun f() \x7b\n  print true;\n\x7d\ncall0(f);").map (fun r ↦ r.1.map Diagnostic.text) =
      some ["Failed to write output: sink closed\n[line 2]\n[line 4]"] := by
  decide +kernel

end Lox
