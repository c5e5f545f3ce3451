import Lox.Proofs.Session.Rejected

namespace Lox

open Scope Machine

def Diagnostic.line? : Diagnostic → Option Nat
  | .lex e => some e.line
  | .parse e => some e.token.line
  | .scope e => some e.token.line
  | .fault f => some f.line
  | .io _ => none

section

variable {f : Nat → Nat} {source : String}

theorem forall_mem_of_map_eq {α : Type} {g : α → α} {l : List α} (h : l.map g = l) : ∀ x ∈ l, g x = x :=
  List.map_inj_left.1 (h.trans (List.map_id l).symm)

theorem Parse.parse_relabel_eq (hf : ∀ t ∈ Token.tokensOf (Token.scan source), f t.line = t.line) (n : Nat) :
    (parse (Token.tokensOf (Token.scan source)) n).relabel (.lines f) =
      parse (Token.tokensOf (Token.scan source)) n := by
  have hcounts : (Relabeling.lines f).Counts := fun _ ↦ rfl
  have htoken : ∀ t ∈ Token.tokensOf (Token.scan source), t.relabel (.lines f) = t := by
    intro t ht
    change { t with line := f t.line } = t
    rw [hf t ht]
  have htokens : (Token.tokensOf (Token.scan source)).map (·.relabel (.lines f)) =
      Token.tokensOf (Token.scan source) := (List.map_congr_left htoken).trans (List.map_id _)
  have hparse := parse_relabel hcounts (Token.exists_eof_scan source) n
  exact hparse.symm.trans (congrArg (parse · n) htokens)

theorem Scope.errors_relabel_eq {program : List Stmt} (h : Stmt.relabelAll (.lines f) program = program)
    (D : Distances) : ∀ e ∈ (resolve program D).errors, f e.token.line = e.token.line := by
  have hP : Follows (.lines f) fun _ _ ↦ True := ⟨fun _ _ _ ↦ trivial, fun _ _ ↦ trivial⟩
  have herrors : (resolve (Stmt.relabelAll (.lines f) program) D).errors =
      (resolve program D).errors.map (·.relabel (.lines f)) := (resolve_relabel hP program trivial).1
  rw [h] at herrors
  intro e he
  exact congrArg (·.token.line) (forall_mem_of_map_eq herrors.symm e he)

namespace Session

variable (hf : ∀ t ∈ Token.tokensOf (Token.scan source), f t.line = t.line)
include hf

theorem readAll_ok_relabel_eq {program : List Stmt} {n m : Nat} (h : readAll source n = (.ok program, m)) :
    Stmt.relabelAll (.lines f) program = program := by
  have hparse := Parse.parse_eq_ok_iff.2 (readAll_ok_iff.1 h).2
  have hkept := Parse.parse_relabel_eq hf n
  rw [hparse] at hkept
  exact Except.ok.inj (congrArg Parse.Result.outcome hkept)

theorem readAll_error_lines {ds : List Diagnostic} {n m : Nat} (h : readAll source n = (.error ds, m)) :
    ∀ d ∈ ds, (∃ e ∈ Token.errorsOf (Token.scan source), d = .lex e) ∨ ∀ line ∈ d.line?, f line = line := by
  have hkept := Parse.parse_relabel_eq hf n
  intro d hd
  unfold readAll at h
  dsimp only at h
  split at h
  · split at h
    · cases h
    · cases h
      obtain ⟨e, he, rfl⟩ := List.mem_map.1 hd
      exact .inl ⟨e, he, rfl⟩
  · next es hes =>
    cases h
    rcases List.mem_append.1 hd with hd | hd
    · obtain ⟨e, he, rfl⟩ := List.mem_map.1 hd
      exact .inl ⟨e, he, rfl⟩
    · obtain ⟨e, he, rfl⟩ := List.mem_map.1 hd
      have herrors := congrArg Parse.Result.outcome hkept
      simp only [Parse.Result.relabel, hes] at herrors
      have hline := congrArg (·.token.line) (forall_mem_of_map_eq (Except.error.inj herrors) e he)
      refine .inr fun line hmem ↦ ?_
      cases hmem
      exact hline

theorem prepare_error_lines {s s' : Session} {ds : List Diagnostic} (h : s.prepare source = (.error ds, s')) :
    ∀ d ∈ ds, (∃ e ∈ Token.errorsOf (Token.scan source), d = .lex e) ∨ ∀ line ∈ d.line?, f line = line := by
  unfold prepare at h
  split at h
  · next hr =>
    cases h
    exact readAll_error_lines hf hr
  · next program n hr =>
    dsimp only at h
    split at h
    · cases h
    · cases h
      intro d hd
      obtain ⟨e, he, rfl⟩ := List.mem_map.1 hd
      have hline := errors_relabel_eq (readAll_ok_relabel_eq hf hr) s.interpreter.distances e he
      refine .inr fun line hmem ↦ ?_
      cases hmem
      exact hline

end Session

/-- A run in which a relabeling leaves all code as it is leaves the lines of its faults as they are, too. -/
theorem Interpreter.interpret_lines {A : List Accepted} {i i' : Interpreter} (hi : i.Fits A)
    (henv : i.env = i.globalEnv) {a : Accepted} (ha : a ∈ A)
    (hprogram : Stmt.relabelAll (.lines f) a.program = a.program)
    (hstore : i.store.relabel (.lines f) = i.store) {fuel : Nat} {ds : List Diagnostic}
    (h : i.interpret fuel a.program = some (ds, i')) : ∀ d ∈ ds, ∀ line ∈ d.line?, f line = line := by
  obtain ⟨m, hrun, hm⟩ := Option.bind_eq_some_iff.1 h
  have hend := vary_eq_of_start hi henv ha hprogram hstore (steps_of_run hrun).1
  have hconclude := conclude_vary ⟨.lines f, [], i.distances⟩ m
  rw [hend, hm] at hconclude
  have hds : ds.map (·.relabel (.lines f)) = ds := (congrArg Prod.fst (Option.some.inj hconclude)).symm
  intro d hd line hline
  have hkept := forall_mem_of_map_eq hds d hd
  have hstatic := interpret_not_static h hd
  cases d with
  | lex | parse | scope => cases hstatic
  | io reason => cases hline
  | fault fault =>
    cases hline
    exact congrArg Fault.line (Diagnostic.fault.inj hkept)

end

namespace Session

/-- Whatever a source is run to, by any interpreter on which nothing has run before, each diagnostic but that of a full
sink names a line of the source, and the line of one of its tokens unless it comes from the scan. -/
theorem run_names_lines {sink : Sink} {clock : Clock} {nextId : Nat} {programs : Bindings (List Stmt)}
    {fuel : Nat} {source : String} {ds : List Diagnostic} {s' : Session}
    (h : (⟨.new sink clock, nextId, programs⟩ : Session).run fuel source = some (ds, s')) :
    ∀ d ∈ ds, ∀ line ∈ d.line?, (1 ≤ line ∧ line ≤ source.toList.count '\n' + 1) ∧
      ((∀ e, d ≠ .lex e) → ∃ t ∈ Token.tokensOf (Token.scan source), t.line = line) := by
  let f (line : Nat) : Nat := if ∃ t ∈ Token.tokensOf (Token.scan source), t.line = line then line else line + 1
  have hf : ∀ t ∈ Token.tokensOf (Token.scan source), f t.line = t.line := fun t ht ↦ if_pos ⟨t, ht, rfl⟩
  have hkept : ∀ d ∈ ds, (∃ e ∈ Token.errorsOf (Token.scan source), d = .lex e) ∨
      ∀ line ∈ d.line?, f line = line := by
    unfold run at h
    split at h
    · next hp =>
      cases h
      exact prepare_error_lines hf hp
    · next program s hp =>
      split at h
      · next hi =>
        cases h
        obtain ⟨n, hr, -, -⟩ := prepare_ok_iff.1 hp
        obtain ⟨D, hD⟩ := prepare_interpreter hp
        obtain ⟨a, rfl, -, hs⟩ := prepare_ok_fits (new_fits sink clock nextId programs) hp
        have hstore : s.interpreter.store.relabel (.lines f) = s.interpreter.store := by
          rw [hD]
          exact Interpreter.new_relabel sink clock (.lines f)
        exact fun d hd ↦ .inr (Interpreter.interpret_lines hs.interpreter hs.env (.head _)
          (readAll_ok_relabel_eq hf hr) hstore hi d hd)
      · cases h
  intro d hd line hline
  rcases hkept d hd with ⟨e, he, rfl⟩ | hkept
  · cases hline
    exact ⟨Token.lineOf_mem_scan (Token.mem_errorsOf.1 he), fun hne ↦ absurd rfl (hne e)⟩
  · by_cases htoken : ∃ t ∈ Token.tokensOf (Token.scan source), t.line = line
    · obtain ⟨t, ht, rfl⟩ := htoken
      exact ⟨Token.lineOf_mem_scan (Token.mem_tokensOf.1 ht), fun _ ↦ ⟨t, ht, rfl⟩⟩
    · have hmoved : f line = line + 1 := if_neg htoken
      have hsame := hkept line hline
      omega

def faultInCall : String := "fun f(x) \x7b\n  return -x;\n\x7d\n\nf(\n  nil);"

theorem faultInCall_names_line :
    ∃ ds s', (Session.new .unbounded .ticking).run 50 faultInCall = some (ds, s') ∧
      ∃ d ∈ ds, d.isStatic = false ∧ d.line? = some 2 ∧
        ∃ t ∈ Token.tokensOf (Token.scan faultInCall), t.line = 2 := by
  have hrun : ((Session.new .unbounded .ticking).run 50 faultInCall).any (fun p ↦
      p.1.any fun d ↦ !d.isStatic && d.line? == some 2) = true := by decide +kernel
  obtain ⟨⟨ds, s'⟩, h, hds⟩ := (Option.any_eq_true _ _).1 hrun
  obtain ⟨d, hd, hdline⟩ := List.any_eq_true.1 hds
  obtain ⟨hstatic, hline⟩ := Bool.and_eq_true_iff.1 hdline
  have hline : d.line? = some 2 := beq_iff_eq.1 hline
  have hstatic : d.isStatic = false := by simpa using hstatic
  refine ⟨ds, s', h, d, hd, hstatic, hline, (run_names_lines h d hd 2 hline).2 ?_⟩
  rintro e rfl
  cases hstatic

end Session

end Lox
