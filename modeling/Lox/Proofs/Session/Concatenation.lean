import Lox.Proofs.Machine.Execution
import Lox.Proofs.Session.Renaming
import Lox.Proofs.Token.Newline

namespace Lox

open Scope Machine

theorem Grammar.Declarations.append {q : ElseRule} {n m p : Nat} {ts ts' : List Token} {ss ss' : List Stmt}
    (h : Declarations q n ts ss m) (h' : Declarations q m ts' ss' p) :
    Declarations q n (ts ++ ts') (ss ++ ss') p := by
  match h with
  | .nil => exact h'
  | .cons h hs =>
    rw [List.append_assoc]
    exact .cons h (hs.append h')

namespace Session

theorem declarations_lines {source : String} {n m : Nat} {program : List Stmt}
    (h : readAll source n = (.ok program, m)) (f : Nat → Nat) :
    Grammar.Declarations .nearest n ((Token.words source).map (·.relabel (.lines f)))
      (Stmt.relabelAll (.lines f) program) m := by
  have hparse := Parse.parse_eq_ok_iff.2 (readAll_ok_iff.1 h).2
  have hcounts : (Relabeling.lines f).Counts := fun _ ↦ rfl
  have hlines := Parse.parse_relabel hcounts (Token.exists_eof_scan source) n
  have hlines : Parse.parse ((Token.tokensOf (Token.scan source)).map (·.relabel (.lines f))) n =
      ⟨.ok (Stmt.relabelAll (.lines f) program), m⟩ := by
    refine hlines.trans ?_
    rw [hparse]
    rfl
  have hwords : Parse.beforeEof ((Token.tokensOf (Token.scan source)).map (·.relabel (.lines f))) =
      (Token.words source).map (·.relabel (.lines f)) := by
    unfold Parse.beforeEof Token.words
    rw [List.takeWhile_map]
    rfl
  rw [← hwords]
  exact Parse.parse_eq_ok_iff.1 hlines

theorem readAll_blank {source : String} {n m : Nat} {program : List Stmt}
    (h : readAll source n = (.ok program, m)) (k : Nat) :
    readAll (Token.blank k ++ source) n = (.ok (Stmt.relabelAll (.lines (· + k)) program), m) := by
  refine readAll_ok_iff.2 ⟨Token.errorsOf_blank (readAll_ok_iff.1 h).1 k, ?_⟩
  have hwords := Token.words_blank k source
  have hd := declarations_lines h (· + k)
  rw [← hwords] at hd
  exact hd

/-- Two sources with a newline between them are read as one program. -/
theorem readAll_newline {source source' : String} {n m p : Nat} {program program' : List Stmt}
    (h : readAll source n = (.ok program, m)) (h' : readAll source' m = (.ok program', p)) :
    readAll (source ++ "\n" ++ source') n =
      (.ok (program ++ Stmt.relabelAll (.lines (· + Token.linesOf source)) program'), p) := by
  obtain ⟨he, hd⟩ := readAll_ok_iff.1 h
  refine readAll_ok_iff.2 ⟨Token.errorsOf_newline he (readAll_ok_iff.1 h').1, ?_⟩
  have hwords := Token.words_newline he source'
  have hd' := hd.append (declarations_lines h' (· + Token.linesOf source))
  rw [Token.words] at hwords
  rw [hwords]
  exact hd'

/-- A source that is free of static errors by itself. -/
def Passes (source : String) : Prop :=
  ∃ program n, readAll source 0 = (.ok program, n) ∧ (resolve program .empty).errors = []

instance (source : String) : Decidable (Passes source) :=
  match hr : readAll source 0 with
  | (.ok program, n) => decidable_of_iff ((resolve program .empty).errors.isEmpty = true) (by
      simp [Passes, hr])
  | (.error _, _) => .isFalse (by simp [Passes, hr])

theorem Passes.read {source : String} (h : Passes source) (n : Nat) :
    ∃ program m, readAll source n = (.ok program, m) ∧ ∀ D, (resolve program D).errors = [] := by
  obtain ⟨program, m, hr, he⟩ := h
  have hread := readAll_add source 0 n
  rw [hr, Nat.zero_add] at hread
  exact ⟨_, _, hread, resolve_errors_relabel he (.ids (· + n))⟩

theorem prepare_takes {H : List (List Stmt × Distances)} {s s' : Session} (h : History H s)
    {source : String} {program : List Stmt} (hp : s.prepare source = (.ok program, s')) :
    ∃ A : List Accepted, (∃ a ∈ A, a.program = program) ∧ s'.Fits A ∧ s'.interpreter.Takes A program := by
  obtain ⟨L, hclosed⟩ := h.closed
  obtain ⟨A, -, hfits⟩ := h.fits
  obtain ⟨a, rfl, -, hfits'⟩ := prepare_ok_fits hfits hp
  have hat : At (a :: A) (.stmts a.program) [] := ⟨a, .head A, _, _, .program, rfl⟩
  exact ⟨a :: A, ⟨a, .head A, rfl⟩, hfits',
    .of_at hfits'.interpreter (prepare_closed hclosed hp).isHome hat⟩

theorem prepare_eq {source : String} {s : Session} {program : List Stmt} {n : Nat}
    (hr : readAll source s.nextId = (.ok program, n))
    (he : (resolve program s.interpreter.distances).errors = []) :
    s.prepare source = (.ok program, { s with
      nextId := n, interpreter := { s.interpreter with
        distances := (resolve program s.interpreter.distances).distances } }) :=
  prepare_ok_iff.2 ⟨n, hr, he, rfl⟩

end Session

namespace Interpreter

def report (o : Option Fault) (j : Interpreter) : List Diagnostic × Interpreter :=
  match o with
  | none => ([], j)
  | some f => ([.fault f], j.reset)

theorem conclude_ended (o : Option Fault) {j : Interpreter} (h : j.sink.flushError = none) :
    conclude (ended o j) = some (report o j) := by
  have hflush (i : Interpreter) (hi : i.sink.flushError = none) (ds : List Diagnostic) :
      i.flush ds = (ds, i) := by
    unfold flush
    rw [hi]
  cases o with
  | none => exact congrArg some (hflush j h [])
  | some f => exact congrArg some (hflush j.reset h [.fault f])

theorem interpret_iff {A : List Accepted} {i : Interpreter} {p : List Stmt} (hi : i.Takes A p)
    (hflush : i.sink.flushError = none) {fuel : Nat} {r : List Diagnostic × Interpreter} :
    i.interpret fuel p = some r ↔
      ∃ o j, Machine.run fuel (i.start p) = some (ended o j) ∧ r = report o j := by
  have hsink {o : Option Fault} {j : Interpreter} (hrun : Machine.run fuel (i.start p) = some (ended o j)) :
      j.sink.flushError = none := by
    have hstate : (ended o j).state = j := by cases o <;> rfl
    have haccounts := (start_accounts hi.isHome p).steps (steps_of_run hrun).1
    rw [← hstate, haccounts.sink.flushError, hflush]
  constructor
  · intro h
    obtain ⟨m, hrun, hm⟩ := Option.bind_eq_some_iff.1 h
    obtain ⟨o, j, -, rfl⟩ := executes_of_run hi hrun
    rw [conclude_ended o (hsink hrun)] at hm
    exact ⟨o, j, hrun, (Option.some.inj hm).symm⟩
  · intro h
    obtain ⟨o, j, hrun, rfl⟩ := h
    unfold interpret
    rw [hrun]
    exact conclude_ended o (hsink hrun)

theorem ended_vary (D : Distances) (o : Option Fault) (j : Interpreter) :
    (ended o j).vary ⟨.refl, [], D⟩ = ended o { j with distances := D } := by
  have hj : j.vary ⟨.refl, [], D⟩ = { j with distances := D } := by simp [Interpreter.vary]
  cases o with
  | none => exact congrArg (Machine.mk (.done .normal) []) hj
  | some f => exact congrArg (Machine.mk (.fault f) []) hj

theorem ended_inj {o o' : Option Fault} {j j' : Interpreter} (h : ended o j = ended o' j') :
    o = o' ∧ j = j' := by
  cases o with
  | none =>
    cases o' with
    | none => exact ⟨rfl, congrArg Machine.state h⟩
    | some f => cases h
  | some f =>
    cases o' with
    | none => cases h
    | some f' =>
      cases h
      exact ⟨rfl, rfl⟩

/-- An accepted program runs in the same way with any table that has its distances. -/
theorem run_distances {A : List Accepted} {i : Interpreter} {a : Accepted} (hi : i.Takes A a.program)
    (ha : a ∈ A) {D : Distances} (hD : Holds A D) {o : Option Fault} {j' : Interpreter} :
    (∃ fuel, Machine.run fuel ({ i with distances := D }.start a.program) = some (ended o j')) ↔
      ∃ j, j' = { j with distances := D } ∧
        ∃ fuel, Machine.run fuel (i.start a.program) = some (ended o j) := by
  let v : Variant := ⟨.refl, [], D⟩
  have hallows : (i.start a.program).Allows v := by
    intro m hm
    have hfits := hm.invariant (start_fits hi.fits hi.isHome.1 ha) fun _ _ ↦ step_fits
    exact ⟨hfits.plain, hfits.readsAlike (fun _ ↦ rfl) hD⟩
  have hstart : { i with distances := D }.start a.program = (i.start a.program).vary v := by
    simp [start, Machine.vary, Interpreter.vary, Stack.vary, Frame.vary, Control.relabel, Flow.relabel, v]
  simp only [hstart, run_vary hallows rfl]
  constructor
  · intro h
    obtain ⟨fuel, h⟩ := h
    obtain ⟨m, hrun, hm⟩ := Option.map_eq_some_iff.1 h
    obtain ⟨o', j, -, rfl⟩ := executes_of_run hi hrun
    obtain ⟨rfl, rfl⟩ := ended_inj ((ended_vary D o' j).symm.trans hm)
    exact ⟨j, rfl, fuel, hrun⟩
  · intro h
    obtain ⟨j, rfl, fuel, hrun⟩ := h
    exact ⟨fuel, by rw [hrun, Option.map_some, ended_vary]⟩

end Interpreter

namespace Session

theorem run_iff {s t : Session} {source : String} {program : List Stmt}
    (hp : s.prepare source = (.ok program, t)) {A : List Accepted} (ht : t.interpreter.Takes A program)
    (hflush : t.interpreter.sink.flushError = none) {ds : List Diagnostic} {s' : Session} :
    (∃ fuel, s.run fuel source = some (ds, s')) ↔
      ∃ o j, (∃ fuel, Machine.run fuel (t.interpreter.start program) = some (Interpreter.ended o j)) ∧
        (ds, s') = ((Interpreter.report o j).1, { t with interpreter := (Interpreter.report o j).2 }) := by
  constructor
  · intro h
    obtain ⟨fuel, h⟩ := h
    rw [run_of_prepare hp] at h
    obtain ⟨r, hr, heq⟩ := Option.map_eq_some_iff.1 h
    obtain ⟨o, j, hrun, rfl⟩ := (Interpreter.interpret_iff ht hflush).1 hr
    exact ⟨o, j, ⟨fuel, hrun⟩, heq.symm⟩
  · intro h
    obtain ⟨o, j, ⟨fuel, hrun⟩, heq⟩ := h
    refine ⟨fuel, ?_⟩
    rw [run_of_prepare hp, (Interpreter.interpret_iff ht hflush).2 ⟨o, j, hrun, rfl⟩, heq]
    rfl

theorem prepare_blank {s : Session} {source : String} {program : List Stmt} {n : Nat}
    (hr : readAll source s.nextId = (.ok program, n)) (he : ∀ D, (resolve program D).errors = [])
    (k : Nat) : s.prepare (Token.blank k ++ source) =
      (.ok (Stmt.relabelAll (.lines (· + k)) program), { s with
        nextId := n, interpreter := { s.interpreter with
          distances := (resolve program s.interpreter.distances).distances } }) := by
  have hprepare := prepare_eq (readAll_blank hr k)
    (resolve_errors_relabel (he .empty) (.lines (· + k)) s.interpreter.distances)
  rwa [resolve_distances_lines] at hprepare

theorem prepare_newline {s : Session} {source source' : String} {program program' : List Stmt} {m n : Nat}
    (hr : readAll source s.nextId = (.ok program, m)) (hr' : readAll source' m = (.ok program', n))
    (he : ∀ D, (resolve program D).errors = []) (he' : ∀ D, (resolve program' D).errors = []) :
    s.prepare (source ++ "\n" ++ source') =
      (.ok (program ++ Stmt.relabelAll (.lines (· + Token.linesOf source)) program'), { s with
        nextId := n, interpreter := { s.interpreter with
          distances :=
            (resolve program' (resolve program s.interpreter.distances).distances).distances } }) := by
  have happend := resolve_append (readAll_yields hr).2 (he s.interpreter.distances)
    (Stmt.relabelAll (.lines (· + Token.linesOf source)) program')
  have hprepare := prepare_eq (readAll_newline hr hr') (s := s) (by
    rw [happend]
    exact resolve_errors_relabel (he' .empty) _ _)
  rwa [happend, resolve_distances_lines] at hprepare

/-- A source behind empty lines is run like the source on other lines. -/
theorem run_blank_iff {H : List (List Stmt × Distances)} {s : Session} (h : History H s)
    (hflush : s.interpreter.sink.flushError = none) {source : String} {program : List Stmt} {n : Nat}
    (hr : readAll source s.nextId = (.ok program, n)) (he : ∀ D, (resolve program D).errors = [])
    {k : Nat} {ds : List Diagnostic} {s' : Session} :
    (∃ fuel, s.run fuel (Token.blank k ++ source) = some (ds, s')) ↔
      ∃ o j, (∃ fuel, Machine.run fuel ({ s.interpreter with
          distances := (resolve program s.interpreter.distances).distances }.start
            (Stmt.relabelAll (.lines (· + k)) program)) = some (Interpreter.ended o j)) ∧
        (ds, s') = ((Interpreter.report o j).1,
          { s with nextId := n, interpreter := (Interpreter.report o j).2 }) := by
  have hprepare := prepare_blank hr he k
  obtain ⟨A, -, -, htakes⟩ := prepare_takes h hprepare
  exact run_iff hprepare htakes hflush

/-- Two sources with a newline between them are run like the first one and then the second one, some
lines further down. If the first one faults, the ids and distances of the second are all that is left. -/
theorem run_newline_iff {H : List (List Stmt × Distances)} {s : Session} (h : History H s)
    (hflush : s.interpreter.sink.flushError = none) {source source' : String} (hs : Passes source)
    (hs' : Passes source') : ∃ n D, ∀ ds s',
      (∃ fuel, s.run fuel (source ++ "\n" ++ source') = some (ds, s')) ↔
        (∃ f s₁, (∃ fuel, s.run fuel source = some ([.fault f], s₁)) ∧ ds = [.fault f] ∧
          s' = { s₁ with nextId := n, interpreter := { s₁.interpreter with distances := D } }) ∨
        ∃ s₁, (∃ fuel, s.run fuel source = some ([], s₁)) ∧
          ∃ fuel, s₁.run fuel (Token.blank (Token.linesOf source) ++ source') = some (ds, s') := by
  obtain ⟨p, m, hr, he⟩ := hs.read s.nextId
  obtain ⟨q, n, hr', he'⟩ := hs'.read m
  let D₁ := (resolve p s.interpreter.distances).distances
  let D := (resolve q D₁).distances
  let t : Session := { s with nextId := m, interpreter := { s.interpreter with distances := D₁ } }
  have ht : s.prepare source = (.ok p, t) := prepare_eq hr (he _)
  have hu := prepare_newline hr hr' he he'
  obtain ⟨A, ⟨a, ha, rfl⟩, hfits, htakes⟩ := prepare_takes h ht
  obtain ⟨B, -, -, htakes'⟩ := prepare_takes h hu
  have hD : Holds A D := hfits.holds_resolve (readAll_yields hr').1
  have hsecond {j : Interpreter}
      (hrun : ∃ fuel, Machine.run fuel (t.interpreter.start a.program) = some (Interpreter.ended none j)) :
      History (s.accepts source ++ H) { t with interpreter := j } ∧ j.distances = D₁ ∧
        j.sink.flushError = none := by
    obtain ⟨fuel, hrun'⟩ := (run_iff ht htakes hflush).2 ⟨none, j, hrun, rfl⟩
    obtain ⟨_, hstart⟩ := hrun
    have haccounts := (Interpreter.start_accounts htakes.isHome a.program).steps (steps_of_run hstart).1
    exact ⟨h.run hrun', haccounts.distances, haccounts.sink.flushError.trans hflush⟩
  refine ⟨n, D, fun ds s' ↦ ?_⟩
  rw [run_iff hu htakes' hflush]
  constructor
  · intro hrun
    obtain ⟨o, j', hrun, heq⟩ := hrun
    rcases (Interpreter.run_append_iff htakes').1 hrun with ⟨f, j, hend, hp⟩ | ⟨j, hp, hq⟩
    · rw [hend] at hp
      obtain ⟨j₁, rfl, hp₁⟩ := (Interpreter.run_distances htakes ha hD).1 hp
      obtain ⟨rfl, rfl⟩ := Interpreter.ended_inj hend
      cases heq
      exact .inl ⟨f, _, (run_iff ht htakes hflush).2 ⟨some f, j₁, hp₁, rfl⟩, rfl, rfl⟩
    · obtain ⟨j₁, rfl, hp₁⟩ := (Interpreter.run_distances htakes ha hD).1 hp
      obtain ⟨h₁, hj, hsink⟩ := hsecond hp₁
      refine .inr ⟨_, (run_iff ht htakes hflush).2 ⟨none, j₁, hp₁, rfl⟩, ?_⟩
      refine (run_blank_iff h₁ hsink hr' he').2 ⟨o, j', ?_, heq⟩
      rw [hj]
      exact hq
  · intro hrun
    rcases hrun with ⟨f, s₁, hp, rfl, rfl⟩ | ⟨s₁, hp, hq⟩
    · obtain ⟨o, j, hp₁, heq⟩ := (run_iff ht htakes hflush).1 hp
      cases o with
      | none => cases heq
      | some f' =>
        cases heq
        have hfirst := (Interpreter.run_distances htakes ha hD).2 ⟨j, rfl, hp₁⟩
        exact ⟨some f, _, (Interpreter.run_append_iff htakes').2 (.inl ⟨f, _, rfl, hfirst⟩), rfl⟩
    · obtain ⟨o, j, hp₁, heq⟩ := (run_iff ht htakes hflush).1 hp
      cases o with
      | some f' => cases heq
      | none =>
        cases heq
        obtain ⟨h₁, hj, hsink⟩ := hsecond hp₁
        obtain ⟨o, j', hq₁, heq⟩ := (run_blank_iff h₁ hsink hr' he').1 hq
        rw [hj] at hq₁
        have hfirst := (Interpreter.run_distances htakes ha hD).2 ⟨j, rfl, hp₁⟩
        exact ⟨o, j', (Interpreter.run_append_iff htakes').2 (.inr ⟨_, hfirst, hq₁⟩), heq⟩

end Session

end Lox
