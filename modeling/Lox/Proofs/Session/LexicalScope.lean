import Lox.Proofs.Lexical.Cells
import Lox.Proofs.Lexical.Lockstep
import Lox.Proofs.Session.History

namespace Lox

open Scope

namespace Lexical

def Link.initial (a : Accepted) (ha : Stmt.selfFreeAll false a.program = true) : Link where
  program := a
  selfFree := ha
  globals := 0
  scopes := 1
  cells := 0
  cell _ _ := none
  globals_lt := Nat.zero_lt_one
  within := nofun
  injective := nofun

theorem storeLinked_new (a : Accepted) (ha : Stmt.selfFreeAll false a.program = true) (sink : Sink)
    (clock : Clock) :
    StoreLinked (.initial a ha) (Interpreter.new sink clock).store (.new sink clock) := by
  have hstore : (Interpreter.new sink clock).store = (Store.empty.addScope .empty).define 0 "clock"
    (.callable (.native ⟨0, "clock", 0⟩)) := rfl
  refine ⟨?_, rfl, nofun, fun x ↦ ?_, fun o ↦ ?_, rfl, rfl⟩
  · rw [hstore, Store.size_define, Store.size_addScope]
    rfl
  · have hglobals : (State.new sink clock).globals = Bindings.empty.insert "clock" (.callable .clock) := rfl
    rw [hstore, hglobals, Bindings.find?_insert, Store.read?_define, Store.read?_addScope]
    by_cases hx : x = "clock"
    · rw [if_pos hx, if_pos ⟨rfl, hx, Nat.zero_lt_one⟩]
      exact .some .clock
    · rw [if_neg hx, if_neg fun h ↦ hx h.2.1]
      exact .none
  · exact .none

theorem start_linked {a : Accepted} (ha : Stmt.selfFreeAll false a.program = true) (sink : Sink)
    (clock : Clock) {D : Distances} (hD : Holds [a] D) :
    Linked (Interpreter.start a.program { Interpreter.new sink clock with distances := D })
      (start a.program sink clock) := by
  have hat : At [a] (.stmts a.program) [] := ⟨a, List.mem_singleton_self a, _, _, .program, rfl⟩
  have henv : EnvLinked (.initial a ha) [] ⟨0, []⟩ .top := ⟨fun _ ↦ ⟨rfl, rfl⟩, nofun, fun _ _ _ ↦ rfl, nofun⟩
  have hstate : StateLinked (.initial a ha) { Interpreter.new sink clock with distances := D }
      (.new sink clock) := ⟨hD, rfl, rfl, storeLinked_new a ha sink clock, rfl, rfl, rfl⟩
  exact .done .normal ⟨⟨hstate, henv, nofun⟩, nofun, .program hat .nil⟩

theorem Linked.isFinal_eq {m : Lox.Machine} {m' : Machine} (h : Linked m m') : m'.isFinal = m.isFinal := by
  cases h with
  | value _ h | done _ h => cases h.stack <;> rfl
  | fault _ hk => cases hk <;> rfl
  | _ => rfl

theorem after_linked {m : Lox.Machine} {m' : Machine} (h : Linked m m') (n : Nat) :
    Option.Rel Linked (m.after n) (m'.after n) := by
  induction n generalizing m m' with
  | zero => exact .some h
  | succ n ih =>
    have hstep := step_linked h
    rw [Lox.Machine.after, Machine.after]
    generalize m.step = o at hstep ⊢
    generalize m'.step = o' at hstep ⊢
    cases hstep with
    | none => exact .none
    | some h => exact ih h

theorem run_linked {m : Lox.Machine} {m' : Machine} (h : Linked m m') (fuel : Nat) :
    Option.Rel Linked (m.run fuel) (m'.run fuel) := by
  induction fuel generalizing m m' with
  | zero => exact .none
  | succ fuel ih =>
    have hstep := step_linked h
    rw [Lox.Machine.run, Machine.run, h.isFinal_eq]
    split
    · exact .some h
    · generalize m.step = o at hstep ⊢
      generalize m'.step = o' at hstep ⊢
      cases hstep with
      | none => exact .none
      | some h => exact ih h

theorem Linked.sink_eq {m : Lox.Machine} {m' : Machine} (h : Linked m m') : m'.state.sink = m.state.sink := by
  cases h with
  | eval _ h | value _ h | done _ h | clock h | seconds h => exact h.scene.sink
  | exec _ h _ _ | fault h _ => exact h.sink

theorem Linked.conclude_eq {m : Lox.Machine} {m' : Machine} (h : Linked m m') :
    (Interpreter.conclude m).map (fun r ↦ (r.1, r.2.sink)) = conclude m' := by
  have hsink := h.sink_eq
  have hflush (i : Interpreter) (ds : List Diagnostic) :
      ((i.flush ds).1, (i.flush ds).2.sink) = (report i.sink ds, i.sink) := by
    cases hf : i.sink.flushError <;> simp [Interpreter.flush, report, hf]
  cases h with
  | @done _ _ _ _ _ _ i s =>
    rw [conclude, show s.sink = i.sink from hsink]
    exact congrArg some (hflush i [])
  | @fault _ _ f _ _ i s =>
    rw [conclude, show s.sink = i.sink from hsink]
    exact congrArg some (hflush i.reset [.fault f])
  | _ => rfl

end Lexical

/-- A source that is free of static errors, and in which no local variable is assigned in its own
initial value, does in a new interpreter what lexical scope says: it prints the same and ends in the
same way, and whatever the number of steps, it has printed the same after them. Lexical scope leaves
what a closure sees as it is, unless it is assigned. -/
theorem Session.run_lexically {sink : Sink} {clock : Clock} {nextId : Nat} {programs : Bindings (List Stmt)}
    {source : String} {program : List Stmt} {s : Session}
    (hp : (⟨.new sink clock, nextId, programs⟩ : Session).prepare source = (.ok program, s))
    (hself : Stmt.selfFreeAll false program = true) :
    (∀ fuel, ((⟨.new sink clock, nextId, programs⟩ : Session).run fuel source).map
      (fun r ↦ (r.1, r.2.interpreter.sink)) = Lexical.run fuel program sink clock) ∧
    (∀ n, ((s.interpreter.start program).after n).map (·.state.sink) =
      ((Lexical.start program sink clock).after n).map (·.state.sink)) ∧
    ∀ m m' : Lexical.Machine, m.step = some m' → m.assigns = false →
      Lexical.Keeps m.state.cells m'.state.cells := by
  obtain ⟨a, rfl, -, hs⟩ := prepare_ok_fits (new_fits sink clock nextId programs) hp
  have hi : s.interpreter = { Interpreter.new sink clock with distances := s.interpreter.distances } := by
    obtain ⟨n, -, -, rfl⟩ := prepare_ok_iff.1 hp
    rfl
  have hstart := Lexical.start_linked hself sink clock hs.interpreter.distances
  refine ⟨fun fuel ↦ ?_, fun n ↦ ?_, fun _ _ ↦ Lexical.Machine.keeps_step⟩
  · have hrun := Lexical.run_linked hstart fuel
    rw [run_of_prepare hp, Option.map_map, hi, Interpreter.interpret, Lexical.run]
    generalize Machine.run fuel _ = r at hrun ⊢
    generalize Lexical.Machine.run fuel _ = r' at hrun ⊢
    cases hrun with
    | none => rfl
    | some h => exact h.conclude_eq
  · have hafter := Lexical.after_linked hstart n
    rw [hi]
    generalize Machine.after n _ = r at hafter ⊢
    generalize Lexical.Machine.after n _ = r' at hafter ⊢
    cases hafter with
    | none => rfl
    | some h => exact congrArg some h.sink_eq.symm

theorem Session.later_binding_lexically : ∃ program s, (Session.new .unbounded .ticking).prepare
      "var a = true; { fun f() { print a; } f(); var a = false; f(); }" = (.ok program, s) ∧
    Stmt.selfFreeAll false program = true ∧
    ∀ fuel, ((Session.new .unbounded .ticking).run fuel
      "var a = true; { fun f() { print a; } f(); var a = false; f(); }").map
        (fun r ↦ (r.1, r.2.interpreter.sink)) = Lexical.run fuel program .unbounded .ticking := by
  have hsource : (match (Session.new .unbounded .ticking).prepare
      "var a = true; { fun f() { print a; } f(); var a = false; f(); }" with
    | (.ok program, _) => Stmt.selfFreeAll false program
    | _ => false) = true := by decide +kernel
  split at hsource
  · next program s hp => exact ⟨program, s, hp, hsource, (run_lexically hp hsource).1⟩
  · cases hsource

end Lox
