import Lox.Proofs.Loop.Parsed
import Lox.Proofs.Skip.Copy

namespace Lox.ForLoop

open Skip Scope

/-- The scope that only the tree has: with a step, each round has one of its own. -/
def gap (l : ForLoop) : Clause → Gap
  | .first | .test => .nowhere
  | .step => .out 0
  | .body =>
    match l.step with
    | some _ => .out 0
    | none => .nowhere

/-- Clauses that are alike across the scopes of the rounds. -/
structure ClausesLinked (D : Distances) (l l' : ForLoop) : Prop where
  first : Option.Rel (StmtLinked D .nowhere) l.first l'.first
  test : Option.Rel (ExprLinked D .nowhere) l.test l'.test
  step : Option.Rel (ExprLinked D (.out 0)) l.step l'.step
  body : StmtLinked D (l.gap .body) l.body l'.body

theorem recorded_optional {D : Distances} {k : Context} {o : Option Expr} {ss : List Stmt} {w : Walk}
    (h : Recorded D ⟨k, .stmts (o.toList.map .expr ++ ss), w⟩) :
    (∀ e ∈ o, Recorded D ⟨k, .expr e, w⟩) ∧ Recorded D ⟨k, .stmts ss, optional k o w⟩ := by
  cases o with
  | none => exact ⟨fun _ he ↦ (by cases he), h⟩
  | some e =>
    refine ⟨fun _ he ↦ ?_, h.part .tailStmts⟩
    cases he
    exact (h.part .headStmt).part .expr

section

variable {l : ForLoop} {k : Context} {w w' : Walk} (f : Nat → Nat)

theorem skips_same (hw : w'.scopes = w.scopes) : Skips .nowhere w.scopes w'.scopes := by
  rw [hw]
  exact .same _

theorem skips_step (hS : Settled w.scopes) (hw : w'.scopes = w.scopes) (hl : l.Proper) :
    Skips (.out 0) (stmt k l.body w.enter).scopes w'.scopes := by
  rw [scopes_stmt k l.body _ hl.body, hl.declares, hw]
  exact .here hS

theorem skips_body (hS : Settled w.scopes) (hw : w'.scopes = w.scopes) :
    Skips (.out 0) w.enter.scopes w'.scopes := by
  rw [hw]
  exact .here hS

theorem settled_first (hS : Settled w.scopes) {s : Stmt} (hs : s.All proper) :
    Settled (stmt k s w.enter).scopes := by
  rw [scopes_stmt k s _ hs]
  exact hS.enter.afterDeclaring _

theorem scopes_first (hw : w'.scopes = w.scopes) {s : Stmt} (hs : s.All proper) :
    (stmt k (s.relabel (.ids f)) w'.enter).scopes = (stmt k s w.enter).scopes := by
  rw [scopes_stmt_ids, scopes_stmt k s _ hs, scopes_stmt k s _ hs, Walk.enter, Walk.enter, hw]

theorem repeated_linked {D : Distances} (hS : Settled w.scopes) (hw : w'.scopes = w.scopes) (hl : l.Proper)
    (h : Sound D ⟨k, .stmt (.loop l.condition l.round), w⟩)
    (h' : Recorded D ⟨k, .stmts (l.relabel (.ids f)).repeated, w'⟩) :
    Option.Rel (ExprLinked D .nowhere) l.test (l.relabel (.ids f)).test ∧
      Option.Rel (ExprLinked D (.out 0)) l.step (l.relabel (.ids f)).step ∧
      StmtLinked D (l.gap .body) l.body (l.relabel (.ids f)).body := by
  obtain ⟨line, first, test, step, body⟩ := l
  obtain ⟨htest', h'⟩ := recorded_optional h'
  obtain ⟨hstep', h'⟩ := recorded_optional h'
  have hbody' := h'.part .headStmt
  have htest := h.part .loopTest
  have hround := h.part .loopBody
  refine ⟨?_, ?_⟩
  · cases test with
    | none => exact .none
    | some e =>
      exact .some (exprLinked f e (skips_same hw) htest (htest' _ rfl))
  · have hS₁ : Settled (expr k (condition ⟨line, first, test, step, body⟩) w).scopes := by
      rw [scopes_expr]
      exact hS
    cases step with
    | none =>
      refine ⟨.none, stmtLinked f body (fun hg ↦ by cases hg) (skips_same ?_) hround hbody'⟩
      simp only [scopes_optional, scopes_expr, hw]
    | some e =>
      have hscope := hround.part .block
      refine ⟨.some (exprLinked f e ?_ ((hscope.part .tailStmts).part .headStmt |>.part .expr) (hstep' _ rfl)),
        stmtLinked f body (fun _ ↦ hl.declares) ?_ (hscope.part .headStmt) hbody'⟩
      · exact skips_step hS₁ (by simp only [scopes_optional, scopes_expr, hw]) hl
      · exact skips_body hS₁ (by simp only [scopes_optional, scopes_expr, hw])

/-- The clauses, resolved as they are and as parts of the tree. -/
theorem clausesLinked {D : Distances} (hS : Settled w.scopes) (hw : w'.scopes = w.scopes) (hl : l.Proper)
    (h : Sound D ⟨k, .stmt l.tree, w⟩) (h' : Recorded D ⟨k, (l.relabel (.ids f)).node, w'⟩) :
    ClausesLinked D l (l.relabel (.ids f)) := by
  cases hfirst : l.first with
  | none =>
    have hfirst' : (l.relabel (.ids f)).first = none := by rw [relabel, hfirst]; rfl
    rw [tree_of_none hfirst] at h
    rw [node, hfirst'] at h'
    obtain ⟨ht, hs, hb⟩ := repeated_linked f hS hw hl h h'
    refine ⟨?_, ht, hs, hb⟩
    rw [hfirst, hfirst']
    exact .none
  | some s =>
    have hfirst' : (l.relabel (.ids f)).first = some (s.relabel (.ids f)) := by rw [relabel, hfirst]; rfl
    rw [tree_of_some hfirst] at h
    rw [node, hfirst'] at h'
    have hscope := h.part .block
    have hscope' := h'.part .block
    have hp : s.All proper := hl.first s hfirst
    obtain ⟨ht, hst, hb⟩ := repeated_linked f (settled_first hS hp) (scopes_first f hw hp) hl
      ((hscope.part .tailStmts).part .headStmt) (hscope'.part .tailStmts)
    refine ⟨?_, ht, hst, hb⟩
    rw [hfirst, hfirst']
    refine .some (stmtLinked f s (fun hg ↦ by cases hg) (skips_same ?_) (hscope.part .headStmt)
      (hscope'.part .headStmt))
    rw [Walk.enter, Walk.enter, hw]

theorem quiet_expr_copy_iff {g : Gap} (h : Skips g w.scopes w'.scopes) (e : Expr) :
    Quiet w (expr k e w) ↔ Quiet w' (expr k (e.relabel (.ids f)) w') :=
  (quiet_expr_iff k e h).trans (quiet_stmt_ids f k (.expr e) w').symm

theorem quiet_stmt_copy_iff {g : Gap} (h : Skips g w.scopes w'.scopes) {s : Stmt} (hs : s.All proper)
    (hg : g = .out 0 → s.declared? = none) :
    Quiet w (stmt k s w) ↔ Quiet w' (stmt k (s.relabel (.ids f)) w') :=
  (quiet_stmt_iff k s hs hg h).trans (quiet_stmt_ids f k s w').symm

theorem quiet_round_iff (hS : Settled w.scopes) (hw : w'.scopes = w.scopes) (hl : l.Proper) :
    Quiet w (stmt k l.round w) ↔
      Quiet w' (stmt k (l.relabel (.ids f)).body (optional k (l.relabel (.ids f)).step w')) := by
  obtain ⟨line, first, test, step, body⟩ := l
  cases step with
  | none =>
    exact quiet_stmt_copy_iff f (skips_same hw) hl.body fun hg ↦ by cases hg
  | some e =>
    have hround := Quiet.trans_iff (effect_stmt k body w.enter) (effect_expr k e (stmt k body w.enter))
    have hclauses := Quiet.trans_iff (effect_expr k (e.relabel (.ids f)) w')
      (effect_stmt k (body.relabel (.ids f)) _)
    change Quiet w.enter (expr k e (stmt k body w.enter)) ↔ _
    refine hround.trans (and_comm.trans (Iff.trans ?_ hclauses.symm))
    refine and_congr (quiet_expr_copy_iff f (skips_step hS hw hl) e)
      (quiet_stmt_copy_iff f (skips_body hS ?_) hl.body fun _ ↦ hl.declares)
    rw [scopes_expr, hw]

theorem quiet_repeated_iff (hS : Settled w.scopes) (hw : w'.scopes = w.scopes) (hl : l.Proper) :
    Quiet w (stmt k (.loop l.condition l.round) w) ↔
      Quiet w' (stmts k (l.relabel (.ids f)).repeated w') := by
  let l' := l.relabel (.ids f)
  have hstmts : stmts k l'.repeated w' = stmt k l'.body (optional k l'.step (optional k l'.test w')) := by
    rw [repeated]
    cases l'.test <;> cases l'.step <;> rfl
  have htest : Quiet w (expr k l.condition w) ↔ Quiet w' (optional k l'.test w') := by
    rw [condition, show l'.test = l.test.map (·.relabel (.ids f)) from rfl]
    cases l.test with
    | none => exact iff_of_true rfl rfl
    | some e =>
      exact quiet_expr_copy_iff f (skips_same hw) e
  have hround : Quiet (expr k l.condition w) (stmt k l.round (expr k l.condition w)) ↔
      Quiet (optional k l'.test w') (stmt k l'.body (optional k l'.step (optional k l'.test w'))) := by
    refine quiet_round_iff f ?_ ?_ hl
    · rw [scopes_expr]
      exact hS
    · rw [scopes_expr, scopes_optional, hw]
  rw [hstmts]
  exact quiet_append_iff (effect_expr k l.condition w) (effect_stmt k l.round _)
    (effect_optional k l'.test w') ((effect_optional k l'.step _).append (effect_stmt k l'.body _)) htest hround

/-- The clauses have errors if and only if the tree has some. -/
theorem quiet_node_iff (hS : Settled w.scopes) (hw : w'.scopes = w.scopes) (hl : l.Proper) :
    Quiet w (stmt k l.tree w) ↔ Quiet w' ((l.relabel (.ids f)).node.walk k w') := by
  cases hfirst : l.first with
  | none =>
    have hfirst' : (l.relabel (.ids f)).first = none := by rw [relabel, hfirst]; rfl
    rw [tree_of_none hfirst, node, hfirst']
    exact quiet_repeated_iff f hS hw hl
  | some s =>
    have hfirst' : (l.relabel (.ids f)).first = some (s.relabel (.ids f)) := by rw [relabel, hfirst]; rfl
    have hp : s.All proper := hl.first s hfirst
    rw [tree_of_some hfirst, node, hfirst']
    change Quiet w.enter (stmt k (.loop l.condition l.round) (stmt k s w.enter)) ↔
      Quiet w'.enter (stmts k (l.relabel (.ids f)).repeated (stmt k (s.relabel (.ids f)) w'.enter))
    refine quiet_append_iff (effect_stmt k s _) (effect_stmt k _ _) (effect_stmt k _ _) (effect_stmts k _ _) ?_
      (quiet_repeated_iff f (settled_first hS hp) (scopes_first f hw hp) hl)
    refine quiet_stmt_copy_iff f (skips_same ?_) hp fun hg ↦ by cases hg
    rw [Walk.enter, Walk.enter, hw]

end

theorem refs_node (l : ForLoop) : l.node.refs = l.refs := by
  obtain ⟨line, first, test, step, body⟩ := l
  cases first <;> cases test <;> cases step <;>
    simp [node, refs, repeated, Node.refs, Stmt.refs, Stmt.refsOf, Grammar.optionalRefs, Expr.optionalRefs]

theorem effect_node (l : ForLoop) (k : Context) (w : Walk) : Effect l.refs w (l.node.walk k w) := by
  rw [← refs_node, node]
  split
  · exact effect_stmt k _ w
  · exact effect_stmts k _ w

namespace Parsed

variable {n : Nat} {s s' : Parse.State} {l : ForLoop} (h : l.Parsed n s s') (k : Context) (w : Walk)
include h

theorem numbered_copy (m : Nat) : Numbered (s.nextId + m) (s'.nextId + m) (l.copy m).refs :=
  (h.shift m).numbered_and_proper.1

theorem recorded_tree : Recorded (l.resolve s'.nextId k w).distances ⟨k, .stmt l.tree, w⟩ := by
  have htree := h.numbered_and_proper.1.perm l.perm_refs_tree
  refine ⟨htree.distinct, fun ref href ↦ (effect_node _ k _).distances ref.id fun ref' href' ↦ ?_⟩
  have hlt := (htree.within ref href).2
  have hle := ((h.numbered_copy s'.nextId).within ref' href').1
  omega

theorem recorded_copy :
    Recorded (l.resolve s'.nextId k w).distances ⟨k, (l.copy s'.nextId).node, stmt k l.tree w⟩ := by
  refine ⟨?_, fun _ _ ↦ rfl⟩
  rw [refs_node]
  exact (h.numbered_copy s'.nextId).distinct

theorem scopes_tree : (stmt k l.tree w).scopes = w.scopes := by
  have htree := h.numbered_and_proper.2.tree
  rw [scopes_stmt k l.tree w htree.1, htree.2]
  rfl

end Parsed

end Lox.ForLoop
