import Lox.Proofs.Session.Renaming
import Lox.Proofs.Token.Lines

namespace Lox

open Scope Machine

def Diagnostic.isStatic : Diagnostic → Bool
  | .lex _ | .parse _ | .scope _ => true
  | .fault _ | .io _ => false

namespace Token

theorem errorsOf_pairwise (line : Nat) (spans : List Span) :
    (errorsOf (itemsFrom line spans)).Pairwise fun e e' ↦ e.line ≤ e'.line := by
  induction spans generalizing line with
  | nil => exact .nil
  | cons s spans ih =>
    rw [itemsFrom]
    cases s.piece with
    | token kind | gap => exact ih (line + s.newlines)
    | error cause =>
      exact .cons (fun e he ↦ (lineOf_mem_itemsFrom (mem_errorsOf.1 he)).1) (ih (line + s.newlines))

theorem errorsOf_scan_pairwise (source : String) :
    (errorsOf (scan source)).Pairwise fun e e' ↦ e.line ≤ e'.line := by
  rw [scan_eq]
  exact errorsOf_pairwise 1 _

end Token

theorem Interpreter.interpret_not_static {i i' : Interpreter} {fuel : Nat} {program : List Stmt}
    {ds : List Diagnostic} (h : i.interpret fuel program = some (ds, i')) {d : Diagnostic} (hd : d ∈ ds) :
    d.isStatic = false := by
  have hflush (j : Interpreter) (es : List Diagnostic) (hes : ∀ e ∈ es, e.isStatic = false)
      (hmem : d ∈ (j.flush es).1) : d.isStatic = false := by
    unfold flush at hmem
    split at hmem
    · cases List.mem_singleton.1 hmem
      rfl
    · exact hes d hmem
  obtain ⟨m, -, hm⟩ := Option.bind_eq_some_iff.1 h
  unfold conclude at hm
  split at hm
  · next j hj =>
    have hds : (j.flush []).1 = ds := congrArg Prod.fst (Option.some.inj hm)
    exact hflush j [] (by simp) (hds ▸ hd)
  · next f j hj =>
    have hds : (j.reset.flush [.fault f]).1 = ds := congrArg Prod.fst (Option.some.inj hm)
    refine hflush j.reset [.fault f] ?_ (hds ▸ hd)
    intro e he
    cases List.mem_singleton.1 he
    rfl
  · cases hm

namespace Session

/-- Diagnostics about the text of a source: those of its stretches in their order, then those of its
syntax; those of its scopes only if there are no others. -/
def ReportsStatic (source : String) (ds : List Diagnostic) : Prop :=
  ∃ syntactic misplaced, ds =
      (Token.errorsOf (Token.scan source)).map .lex ++ syntactic.map .parse ++ misplaced.map .scope ∧
    (Token.errorsOf (Token.scan source)).Pairwise (fun e e' ↦ e.line ≤ e'.line) ∧
    (misplaced ≠ [] → Token.errorsOf (Token.scan source) = [] ∧ syntactic = [])

theorem reports_readAll {source : String} {n m : Nat} {ds : List Diagnostic}
    (h : readAll source n = (.error ds, m)) : ReportsStatic source ds := by
  have hsorted := Token.errorsOf_scan_pairwise source
  unfold readAll at h
  dsimp only at h
  split at h
  · next hp =>
    split at h
    · cases h
    · cases h
      exact ⟨[], [], by simp, hsorted, fun h ↦ absurd rfl h⟩
  · next es hp =>
    cases h
    exact ⟨es, [], by simp, hsorted, fun h ↦ absurd rfl h⟩

theorem reports_prepare {source : String} {s s' : Session} {ds : List Diagnostic}
    (h : s.prepare source = (.error ds, s')) : ReportsStatic source ds := by
  unfold prepare at h
  split at h
  · next hr =>
    cases h
    exact reports_readAll hr
  · next program n hr =>
    have hlexical := (readAll_ok_iff.1 hr).1
    have hsorted := Token.errorsOf_scan_pairwise source
    dsimp only at h
    split at h
    · cases h
    · cases h
      refine ⟨[], (resolve program s.interpreter.distances).errors, ?_, hsorted, fun _ ↦ ⟨hlexical, rfl⟩⟩
      rw [hlexical]
      rfl

/-- A run that reports on the text of its source has not gone beyond that. -/
theorem prepare_of_isStatic {s s' : Session} {fuel : Nat} {source : String} {ds : List Diagnostic}
    (h : s.run fuel source = some (ds, s')) (hd : ∃ d ∈ ds, d.isStatic = true) :
    s.prepare source = (.error ds, s') := by
  obtain ⟨d, hmem, hstatic⟩ := hd
  unfold run at h
  split at h
  · next hp =>
    cases h
    exact hp
  · split at h
    · next hi =>
      cases h
      rw [Interpreter.interpret_not_static hi hmem] at hstatic
      cases hstatic
    · cases h

/-- What comes of one source after the other: the diagnostics of each, and all output up to then. It
ends with the first run that is cut off. -/
def transcript : List (Nat × String) → Session → List (List Diagnostic × String)
  | [], _ => []
  | (fuel, source) :: rest, s =>
    match s.run fuel source with
    | some (ds, s) => (ds, s.interpreter.sink.output) :: transcript rest s
    | none => []

theorem Moved.transcript {n k : Nat} (later : List (Nat × String)) {H : List (List Stmt × Distances)}
    {s s' : Session} (hs : History H s) (h : Moved n k s s') :
    s'.transcript later = s.transcript later := by
  induction later generalizing H s s' with
  | nil => rfl
  | cons p rest ih =>
    obtain ⟨fuel, source⟩ := p
    unfold Session.transcript
    rcases h.run hs fuel source with ⟨hr, hr'⟩ | ⟨ds, s₁, s₁', hr, hr', h₁⟩
    · rw [hr, hr']
    · have houtput : s₁'.interpreter.sink.output = s₁.interpreter.sink.output :=
        congrArg (·.sink.output) h₁.interpreter
      rw [hr, hr']
      dsimp only
      rw [ih (hs.run hr) h₁, houtput]

theorem Closed.moved_prepare {L : Nat} {s s' : Session} (h : s.Closed L) {source : String}
    {r : Except (List Diagnostic) (List Stmt)} (hp : s.prepare source = (r, s')) :
    Moved s.nextId (s'.nextId - s.nextId) s s' := by
  obtain ⟨hle, -, htable⟩ := prepare_table hp
  obtain ⟨D, hD⟩ := prepare_interpreter hp
  refine ⟨Nat.le_refl _, by omega, ?_, ?_⟩
  · have hstore := h.store (.ids (moved s.nextId (s'.nextId - s.nextId))) (fun _ _ ↦ rfl)
      fun _ hlt ↦ moved_of_lt hlt
    rw [hD, Interpreter.vary, hstore]
  · intro id
    by_cases hid : id < s.nextId
    · rw [moved_of_lt hid]
      exact htable id (.inl hid)
    · rw [moved_of_le (by omega), htable _ (.inr (by omega)), h.distances id (by omega)]
      exact h.distances _ (by omega)

/-- A source with a static error is reported and leaves no trace: nothing has changed but the table of
distances, at ids given out to this source, and whatever follows goes as it would have gone without. -/
theorem History.rejected_leaves_no_trace {H : List (List Stmt × Distances)} {s s' : Session}
    (h : History H s) {fuel : Nat} {source : String} {ds : List Diagnostic}
    (hr : s.run fuel source = some (ds, s')) (hd : ∃ d ∈ ds, d.isStatic = true) :
    ReportsStatic source ds ∧
    s'.interpreter = { s.interpreter with distances := s'.interpreter.distances } ∧
    (∀ id, s'.interpreter.distances.find? id ≠ s.interpreter.distances.find? id →
      s.nextId ≤ id ∧ id < s'.nextId) ∧
    ∀ later, s'.transcript later = s.transcript later := by
  have hp := prepare_of_isStatic hr hd
  obtain ⟨-, -, htable⟩ := prepare_table hp
  obtain ⟨D, hD⟩ := prepare_interpreter hp
  obtain ⟨L, hclosed⟩ := h.closed
  refine ⟨reports_prepare hp, by rw [hD], ?_, fun later ↦ (hclosed.moved_prepare hp).transcript later h⟩
  intro id hne
  by_cases hid : s.nextId ≤ id ∧ id < s'.nextId
  · exact hid
  · exact absurd (htable id (by omega)) hne

theorem return_leaves_no_trace : ∃ H s ds s', History H s ∧
    s.run 40 "{ var a = 1; { var b = a; return b; } }" = some (ds, s') ∧
    (∃ d ∈ ds, d.isStatic = true) ∧ s.nextId < s'.nextId ∧
    s'.transcript [(40, "{ var c = f(2); print c; }"), (40, "print d;")] =
      s.transcript [(40, "{ var c = f(2); print c; }"), (40, "print d;")] := by
  have hreach : (run 40 "fun f(x) { return x; }" (.new .unbounded .ticking)).any (fun r ↦
      (r.2.run 40 "{ var a = 1; { var b = a; return b; } }").any fun r' ↦
        r'.1.any (·.isStatic) && decide (r.2.nextId < r'.2.nextId)) = true := by decide +kernel
  obtain ⟨⟨ds₀, s⟩, hrun, hreach⟩ := (Option.any_eq_true _ _).1 hreach
  obtain ⟨⟨ds, s'⟩, hrun', hds⟩ := (Option.any_eq_true _ _).1 hreach
  obtain ⟨hstatic, hlt⟩ := Bool.and_eq_true_iff.1 hds
  have hstatic : ∃ d ∈ ds, d.isStatic = true := List.any_eq_true.1 hstatic
  have hs := History.run (.new .unbounded .ticking 0 .empty) hrun
  obtain ⟨-, -, -, hlater⟩ := hs.rejected_leaves_no_trace hrun' hstatic
  have hlt : s.nextId < s'.nextId := of_decide_eq_true hlt
  exact ⟨_, s, ds, s', hs, hrun', hstatic, hlt, hlater _⟩

end Session

end Lox
