import Lox.Proofs.Skip.Scopes

namespace Lox.Skip

open Scope

/-- A table that holds what a visit finds. -/
structure Recorded (D : Distances) (v : Visit) : Prop where
  distinct : v.node.refs.Pairwise (·.id ≠ ·.id)
  entries : ∀ ref ∈ v.node.refs, D.find? ref.id = v.after.distances.find? ref.id

/-- A visit without errors to code that comes from a source. -/
structure Sound (D : Distances) (v : Visit) : Prop extends Recorded D v where
  proper : v.node.All proper
  nested : Nested none v.walk.scopes
  errors : v.after.errors.size = 0

section

variable {D : Distances} {v u : Visit}

theorem Recorded.part (h : Recorded D v) (hp : v.Part u) : Recorded D u := by
  obtain ⟨before, behind, hr, he⟩ := hp.split
  have hd := h.distinct
  rw [hr] at hd
  have hd' := List.pairwise_append.1 (List.pairwise_append.1 hd).2.1
  refine ⟨hd'.1, fun ref href ↦ ?_⟩
  rw [h.entries ref (hp.refs_sublist.subset href)]
  exact he.distances ref.id fun ref' href' ↦ (hd'.2.2 ref href ref' href').symm

theorem Sound.part (h : Sound D v) (hp : v.Part u) : Sound D u := by
  refine ⟨h.toRecorded.part hp, hp.all h.proper, hp.nested h.proper h.nested, ?_⟩
  obtain ⟨_, _, -, he⟩ := hp.split
  exact Nat.le_zero.1 (h.errors ▸ he.errors)

variable {k : Context} {e : Expr} {ref : Ref} {w : Walk}

theorem Recorded.find?_eq (h : Recorded D ⟨k, .expr e, w⟩) (hr : e.ref? = some ref)
    (hk : e = .this ref → k.cls ≠ .none) : D.find? ref.id = distanceIn w.scopes ref.name.lexeme :=
  (h.entries ref (Expr.mem_refs_of_ref? hr)).trans (find?_expr_eq hr hk)

theorem Sound.cls_ne (h : Sound D ⟨k, .expr (.this ref), w⟩) : k.cls ≠ .none := by
  intro hk
  have herrors := h.errors
  simp [Visit.after, Node.walk, expr, hk, Walk.error] at herrors

end

section

variable (f : Nat → Nat)

theorem map_relabel_ids (ts : List Token) : ts.map (·.relabel (.ids f)) = ts := List.map_id ts

theorem alike_ids (w : Walk) : w.Alike (.ids f) (fun _ _ ↦ True) w :=
  ⟨rfl, (Array.map_id w.errors).symm, trivial⟩

theorem follows_ids : Follows (.ids f) fun _ _ ↦ True := ⟨fun _ _ _ ↦ trivial, fun _ _ ↦ trivial⟩

theorem scopes_stmt_ids (k : Context) (s : Stmt) (w : Walk) :
    (stmt k (s.relabel (.ids f)) w).scopes = (stmt k s w).scopes :=
  (alike_stmt (follows_ids f) k s (alike_ids f w)).scopes

theorem quiet_stmt_ids (k : Context) (s : Stmt) (w : Walk) :
    Quiet w (stmt k (s.relabel (.ids f)) w) ↔ Quiet w (stmt k s w) := by
  have herrors := (alike_stmt (follows_ids f) k s (alike_ids f w)).errors
  rw [Quiet, Quiet, herrors, Array.size_map]

end

section

variable {D : Distances} (f : Nat → Nat)

theorem refLinked {g : Gap} {k : Context} {e : Expr} {w w' : Walk} (hS : Skips g w.scopes w'.scopes)
    (h : Sound D ⟨k, .expr e, w⟩) (h' : Recorded D ⟨k, .expr (e.relabel (.ids f)), w'⟩) {ref : Ref}
    (hr : e.ref? = some ref) : RefLinked D g ref (ref.relabel (.ids f)) := by
  have hthis : e = .this ref → k.cls ≠ .none := by
    rintro rfl
    exact h.cls_ne
  have hr' : (e.relabel (.ids f)).ref? = some (ref.relabel (.ids f)) := by
    cases e <;> cases hr <;> rfl
  have hthis' : e.relabel (.ids f) = .this (ref.relabel (.ids f)) → k.cls ≠ .none := by
    cases e with
    | this =>
      cases hr
      exact fun _ ↦ h.cls_ne
    | _ => exact fun heq ↦ by cases heq
  refine ⟨rfl, ?_⟩
  rw [h.find?_eq hr hthis, h'.find?_eq hr' hthis']
  exact hS.distance ref.name.lexeme

theorem superLinked {g : Gap} {k : Context} {ref : Ref} {method : Token} {w w' : Walk}
    (hS : Skips g w.scopes w'.scopes) (h : Sound D ⟨k, .expr (.super ref method), w⟩)
    (h' : Recorded D ⟨k, .expr ((Expr.super ref method).relabel (.ids f)), w'⟩) :
    SuperLinked D g ref (ref.relabel (.ids f)) := by
  have hname : ref.name.lexeme = "super" := h.proper
  refine ⟨refLinked f hS h h' rfl, ?_⟩
  have hd := h.find?_eq rfl fun heq ↦ by cases heq
  have hr' : ((Expr.super ref method).relabel (.ids f)).ref? = some (ref.relabel (.ids f)) := rfl
  have hd' := h'.find?_eq hr' fun heq ↦ by cases heq
  rw [hd, hd', Ref.relabel, Token.lexeme_relabel, hname]
  exact hS.distance_this h.nested

mutual

theorem exprLinked : ∀ (e : Expr) {g : Gap} {k : Context} {w w' : Walk}, Skips g w.scopes w'.scopes →
    Sound D ⟨k, .expr e, w⟩ → Recorded D ⟨k, .expr (e.relabel (.ids f)), w'⟩ →
    ExprLinked D g e (e.relabel (.ids f))
  | .literal value line, _, _, _, _, _, _, _ => .literal value line
  | .var _, _, _, _, _, hS, h, h' => .var (refLinked f hS h h' rfl)
  | .assign _ e, _, _, _, _, hS, h, h' =>
    .assign (refLinked f hS h h' rfl) (exprLinked e hS (h.part .assign) (h'.part .assign))
  | .unary op e, _, _, _, _, hS, h, h' => .unary op (exprLinked e hS (h.part .unary) (h'.part .unary))
  | .binary l op r, _, _, _, _, hS, h, h' =>
    .binary op (exprLinked l hS (h.part .binaryLeft) (h'.part .binaryLeft))
      (exprLinked r (by simpa using hS) (h.part .binaryRight) (h'.part .binaryRight))
  | .logical l op r, _, _, _, _, hS, h, h' =>
    .logical op (exprLinked l hS (h.part .logicalLeft) (h'.part .logicalLeft))
      (exprLinked r (by simpa using hS) (h.part .logicalRight) (h'.part .logicalRight))
  | .grouping e, _, _, _, _, hS, h, h' => .grouping (exprLinked e hS (h.part .grouping) (h'.part .grouping))
  | .call e es paren, _, _, _, _, hS, h, h' =>
    .call paren (exprLinked e hS (h.part .callee) (h'.part .callee))
      (exprsLinked es (by simpa using hS) (h.part .arguments) (h'.part .arguments))
  | .get e name, _, _, _, _, hS, h, h' => .get name (exprLinked e hS (h.part .get) (h'.part .get))
  | .set o name e, _, _, _, _, hS, h, h' =>
    .set name (exprLinked o (by simpa using hS) (h.part .setObject) (h'.part .setObject))
      (exprLinked e hS (h.part .setValue) (h'.part .setValue))
  | .this _, _, _, _, _, hS, h, h' => .this (refLinked f hS h h' rfl)
  | .super _ method, _, _, _, _, hS, h, h' => .super method (superLinked f hS h h')

theorem exprsLinked : ∀ (es : List Expr) {g : Gap} {k : Context} {w w' : Walk},
    Skips g w.scopes w'.scopes → Sound D ⟨k, .exprs es, w⟩ →
    Recorded D ⟨k, .exprs (Expr.relabelAll (.ids f) es), w'⟩ →
    List.Forall₂ (ExprLinked D g) es (Expr.relabelAll (.ids f) es)
  | [], _, _, _, _, _, _, _ => .nil
  | e :: es, _, _, _, _, hS, h, h' =>
    .cons (exprLinked e hS (h.part .headExpr) (h'.part .headExpr))
      (exprsLinked es (by simpa using hS) (h.part .tailExprs) (h'.part .tailExprs))

end

mutual

theorem stmtLinked : ∀ (s : Stmt) {g : Gap} {k : Context} {w w' : Walk}, (g = .out 0 → s.declared? = none) →
    Skips g w.scopes w'.scopes → Sound D ⟨k, .stmt s, w⟩ →
    Recorded D ⟨k, .stmt (s.relabel (.ids f)), w'⟩ → StmtLinked D g s (s.relabel (.ids f))
  | .expr e, _, _, _, _, _, hS, h, h' => .expr (exprLinked f e hS (h.part .expr) (h'.part .expr))
  | .print e, _, _, _, _, _, hS, h, h' => .print (exprLinked f e hS (h.part .print) (h'.part .print))
  | .var name none, _, _, _, _, hg, _, _, _ =>
    .var name (fun heq ↦ absurd (hg heq) (by simp [Stmt.declared?])) .none
  | .var name (some e), g, _, _, _, hg, hS, h, h' => by
    have hg' : g ≠ .out 0 := fun heq ↦ absurd (hg heq) (by simp [Stmt.declared?])
    have he := exprLinked f e (by simpa using hS.declareIn hg' name.lexeme) (h.part .initial) (h'.part .initial)
    exact .var name hg' (.some he)
  | .block ss, _, _, _, _, _, hS, h, h' =>
    .block (stmtsLinked ss (Gap.inside_ne _) (hS.cons .empty) (h.part .block) (h'.part .block))
  | .cond e y none, _, _, _, _, _, hS, h, h' =>
    .cond (exprLinked f e hS (h.part .condTest) (h'.part .condTest))
      (stmtLinked y (fun _ ↦ h.proper.1) (by simpa using hS) (h.part .condYes) (h'.part .condYes))
  | .cond e y (some n), g, k, w, w', _, hS, h, h' => by
    have hp := h.proper
    have hy : Skips g (stmt k y (expr k e w)).scopes
        (stmt k (y.relabel (.ids f)) (expr k (e.relabel (.ids f)) w')).scopes := by
      rw [scopes_stmt_ids, scopes_stmt k y _ hp.2.2.1, scopes_stmt k y _ hp.2.2.1, hp.1.1, scopes_expr,
        scopes_expr]
      exact hS
    exact .condElse (exprLinked f e hS (h.part .condTest) (h'.part .condTest))
      (stmtLinked y (fun _ ↦ hp.1.1) (by simpa using hS) (h.part .condYes) (h'.part .condYes))
      (stmtLinked n (fun _ ↦ hp.1.2) hy (h.part .condNo) (h'.part .condNo))
  | .loop e s, _, _, _, _, _, hS, h, h' =>
    .loop (exprLinked f e hS (h.part .loopTest) (h'.part .loopTest))
      (stmtLinked s (fun _ ↦ h.proper.1) (by simpa using hS) (h.part .loopBody) (h'.part .loopBody))
  | .function d, g, _, w, w', hg, hS, h, h' => by
    have hg' : g ≠ .out 0 := fun heq ↦ absurd (hg heq) (by simp [Stmt.declared?])
    refine .function hg' (functionLinked d ?_ (h.part .function) (h'.part .function))
    simpa [bindIn_declareIn] using hS.bindIn hg' d.name.lexeme
  | .ret keyword none, _, _, _, _, _, _, _, _ => .ret keyword .none
  | .ret keyword (some e), _, _, _, _, _, hS, h, h' =>
    .ret keyword (.some (exprLinked f e (by simpa using hS) (h.part .ret) (h'.part .ret)))
  | .classDecl name none ds, g, _, _, _, hg, hS, h, h' => by
    have hg' : g ≠ .out 0 := fun heq ↦ absurd (hg heq) (by simp [Stmt.declared?])
    have hmethods := (hS.bindIn hg' name.lexeme).methodScopes none
    rw [← scopes_classHead, ← scopes_classHead] at hmethods
    exact .classDecl name hg' (functionsLinked ds hmethods (h.part .methods) (h'.part .methods))
  | .classDecl name (some ref) ds, g, _, w, w', hg, hS, h, h' => by
    have hg' : g ≠ .out 0 := fun heq ↦ absurd (hg heq) (by simp [Stmt.declared?])
    have hname := hS.bindIn hg' name.lexeme
    have hmethods : Skips g.inside.inside (classHead name (some ref) w).scopes
        (classHead (name.relabel (.ids f)) (some (ref.relabel (.ids f))) w').scopes := by
      rw [scopes_classHead, scopes_classHead]
      exact hname.methodScopes (some ref)
    have hr := refLinked f (e := .var ref) (by simpa using hname) (h.part .superclass)
      (h'.part .superclass) rfl
    exact .subclass name hg' hr (functionsLinked ds hmethods (h.part .methods) (h'.part .methods))

theorem stmtsLinked : ∀ (ss : List Stmt) {g : Gap} {k : Context} {w w' : Walk}, g ≠ .out 0 →
    Skips g w.scopes w'.scopes → Sound D ⟨k, .stmts ss, w⟩ →
    Recorded D ⟨k, .stmts (Stmt.relabelAll (.ids f) ss), w'⟩ →
    StmtsLinked D g ss (Stmt.relabelAll (.ids f) ss)
  | [], _, _, _, _, _, _, _, _ => .nil
  | s :: ss, _, k, w, w', hg, hS, h, h' => by
    refine .cons (stmtLinked s (fun heq ↦ absurd heq hg) hS (h.part .headStmt) (h'.part .headStmt))
      (stmtsLinked ss hg ?_ (h.part .tailStmts) (h'.part .tailStmts))
    rw [scopes_stmt_ids, scopes_stmt k s w h.proper.1, scopes_stmt k s w' h.proper.1]
    exact hS.afterDeclaring fun heq ↦ absurd heq hg

theorem functionLinked : ∀ (d : FunctionDecl) {g : Gap} {k : Context} {w w' : Walk},
    Skips g w.scopes w'.scopes → Sound D ⟨k, .function d, w⟩ →
    Recorded D ⟨k, .function (d.relabel (.ids f)), w'⟩ → FunctionLinked D g d (d.relabel (.ids f))
  | .mk name params body, g, _, _, _, hS, h, h' => by
    have hbody := (hS.cons .empty).parameters g.inside_ne params
    rw [FunctionDecl.relabel, map_relabel_ids] at h' ⊢
    refine .mk name params (stmtsLinked body g.inside_ne ?_ (h.part .body) (h'.part .body))
    rwa [Walk.scopes_declareAll, Walk.scopes_declareAll]

theorem functionsLinked : ∀ (ds : List FunctionDecl) {g : Gap} {k : Context} {w w' : Walk},
    Skips g w.scopes w'.scopes → Sound D ⟨k, .functions ds, w⟩ →
    Recorded D ⟨k, .functions (FunctionDecl.relabelAll (.ids f) ds), w'⟩ →
    FunctionsLinked D g ds (FunctionDecl.relabelAll (.ids f) ds)
  | [], _, _, _, _, _, _, _ => .nil
  | d :: ds, _, _, _, _, hS, h, h' => by
    have hkind : methodKind (d.relabel (.ids f)) = methodKind d := by
      rw [methodKind, FunctionDecl.name_relabel]
      rfl
    have hhead := h'.part .headFunction
    rw [hkind] at hhead
    exact .cons (functionLinked d hS (h.part .headFunction) hhead)
      (functionsLinked ds (by simpa using hS) (h.part .tailFunctions) (h'.part .tailFunctions))

end

end

end Lox.Skip
