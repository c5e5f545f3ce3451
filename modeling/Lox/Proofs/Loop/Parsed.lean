import Lox.Proofs.Grammar.Tree
import Lox.Proofs.Loop.Direct
import Lox.Proofs.Parse.Relabel
import Lox.Proofs.Parse.SoundStatement

namespace Lox

namespace Parse

open Rule Grammar

def forClauses (n : Nat) (statement : Rule Stmt) (line : Nat) : Rule ForLoop := do
  let _ ← expect (.mark .leftParen) .forStart
  let first ← forFirst n
  let test ← optionalExpression n (.mark .semicolon)
  let _ ← expect (.mark .semicolon) .loopConditionEnd
  let step ← optionalExpression n (.mark .rightParen)
  let _ ← expect (.mark .rightParen) .forClausesEnd
  let body ← statement
  pure ⟨line, first, test, step, body⟩

theorem Rule.map_apply {α β : Type} (f : α → β) (p : Rule α) (s : State) :
    (f <$> p) s = match p s with
      | .ok a s => .ok (f a) s
      | .fail e s => .fail e s := rfl

theorem Rule.map_bind {α β γ : Type} (f : β → γ) (p : Rule α) (q : α → Rule β) :
    f <$> (p >>= q) = p >>= fun a ↦ f <$> q a := by
  funext s
  rw [Rule.map_apply]
  change (match (match p s with
      | .ok a s => q a s
      | .fail e s => .fail e s : Reply β) with
    | .ok b s => .ok (f b) s
    | .fail e s => .fail e s : Reply γ) = _
  change _ = (match p s with
    | .ok a s => (f <$> q a) s
    | .fail e s => .fail e s : Reply γ)
  cases p s with
  | ok a s => rfl
  | fail e s => rfl

/-- The parser puts the tree of the clauses in their place. -/
theorem forStatement_eq (n : Nat) (statement : Rule Stmt) (line : Nat) :
    forStatement n statement line = ForLoop.tree <$> forClauses n statement line := by
  simp only [forClauses, Rule.map_bind]
  rfl

theorem forClauses_carries {r : Relabeling} (hr : r.Counts) (n line : Nat) :
    (forClauses n (statement n) line).Carries r (·.relabel r) (forClauses n (statement n) (r.line line)) :=
  (carries_expect _ _).bind fun _ ↦ (forFirst_carries hr n).bind fun first ↦
    (optionalExpression_carries hr n _).bind fun test ↦ (carries_expect _ _).bind fun _ ↦
    (optionalExpression_carries hr n _).bind fun step ↦ (carries_expect _ _).bind fun _ ↦
    (statement_declaration_carries hr n).1.bind fun body ↦
    carries_pure (ForLoop.relabel r) ⟨line, first, test, step, body⟩

end Parse

namespace ForLoop

open Grammar Parse

def refs (l : ForLoop) : List Ref :=
  optionalRefs l.first ++ Expr.optionalRefs l.test ++ Expr.optionalRefs l.step ++ l.body.refs

theorem perm_refs_tree (l : ForLoop) : l.refs.Perm l.tree.refs := refs_forLoop ..

/-- Clauses that come from a source. -/
structure Proper (l : ForLoop) : Prop where
  first : ∀ s ∈ l.first, s.All proper
  test : Expr.OptionalAll proper l.test
  step : Expr.OptionalAll proper l.step
  body : l.body.All proper
  declares : l.body.declared? = none

theorem forClauses_reads (N line : Nat) : (forClauses N (statement N) line).Reads fun n ts l m _ ↦
    Yields n m ts l.refs l.Proper := by
  refine Rule.Reads.mono (Rule.Reads.expect_bind fun _ ↦ (forFirst_reads N).bind fun first ↦
    (optionalExpression_reads N _).bind fun test ↦ Rule.Reads.expect_bind fun _ ↦
    (optionalExpression_reads N _).bind fun step ↦ Rule.Reads.expect_bind fun _ ↦
    (statement_declaration_reads N).1.bind fun body ↦ Rule.reads_pure _) ?_
  rintro n ts l m rest ⟨left, ts, rfl, -, first, ts, ts₁, k, rfl, hf, test, ts₁, ts₂, k₁, rfl, ht, stop, ts₂,
    rfl, -, step, ts₂, ts₃, k₂, rfl, hi, right, ts₃, rfl, -, body, ts₃, ts₄, k₃, rfl, ⟨dangling, hb, -⟩, rfl,
    rfl, rfl⟩
  have h := ((hf.yields.append ht.yields).append hi.yields).append hb.yields
  refine h.among (by grind) ?_
  rintro ⟨⟨⟨hf, ht⟩, hi⟩, hb, hd⟩
  exact ⟨hf, ht, hi, hb, hd⟩

theorem Proper.tree {l : ForLoop} (h : l.Proper) : l.tree.All proper ∧ l.tree.declared? = none :=
  all_forLoop leavesLoops_proper l.line h.first h.test h.step h.body h.declares

/-- The parser reads the clauses of a `for` from the tokens of a source, and finds no fault in them. -/
structure Parsed (n : Nat) (s s' : Parse.State) (l : ForLoop) : Prop where
  reads : forClauses n (statement n) l.line s = .ok l s'
  quiet : s'.errors.size = s.errors.size
  eof : s.eof.kind = .eof
  genuine : ∀ t ∈ s.rest, t.Genuine

namespace Parsed

variable {n : Nat} {s s' : Parse.State} {l : ForLoop}

theorem numbered_and_proper (h : l.Parsed n s s') : Numbered s.nextId s'.nextId l.refs ∧ l.Proper := by
  have hmeets := forClauses_reads n l.line s h.eof
  rw [h.reads] at hmeets
  obtain ⟨ts, rest, m, hr, rfl, hy⟩ := hmeets.2 h.quiet
  refine ⟨hy.numbered, hy.nodes fun t ht ↦ h.genuine t ?_⟩
  rw [hr]
  exact List.mem_append_left rest ht

/-- Read with later ids, the clauses are the same but for their ids. -/
theorem shift (h : l.Parsed n s s') (k : Nat) :
    (l.relabel (.ids (· + k))).Parsed n (s.relabel (.ids (· + k))) (s'.relabel (.ids (· + k))) := by
  have hcounts : (Relabeling.ids (· + k)).Counts := fun n ↦ Nat.add_right_comm n 1 k
  have hcarries := forClauses_carries hcounts n l.line s
  rw [h.reads] at hcarries
  refine ⟨hcarries, ?_, h.eof, ?_⟩
  · simpa [State.relabel] using h.quiet
  · rw [State.rest_relabel, List.forall_mem_map]
    exact h.genuine

end Parsed

end ForLoop

end Lox
