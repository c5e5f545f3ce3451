import Lox.Proofs.Scope.Effect
import Lox.Proofs.Tree.Relabel

namespace Lox

def ScopeError.relabel (r : Relabeling) (e : ScopeError) : ScopeError :=
  { e with token := e.token.relabel r }

namespace Scope

/-- Tables of distances that stay related as occurrences are entered into one, and into the other under
their new ids. -/
structure Follows (r : Relabeling) (P : Distances → Distances → Prop) : Prop where
  record : ∀ {D D' : Distances}, P D D' → ∀ id d, P (D.record id d) (D'.record (r.id id) d)
  forget : ∀ {D D' : Distances}, P D D' → ∀ id, P (D.forget id) (D'.forget (r.id id))

/-- Walks that have come to the same scopes with the same errors. -/
structure Walk.Alike (r : Relabeling) (P : Distances → Distances → Prop) (w w' : Walk) : Prop where
  scopes : w'.scopes = w.scopes
  errors : w'.errors = w.errors.map (·.relabel r)
  distances : P w.distances w'.distances

namespace Walk.Alike

variable {r : Relabeling} {P : Distances → Distances → Prop} {w w' : Walk}

theorem error (h : w.Alike r P w') (cause : ScopeCause) (t : Token) :
    (w.error cause t).Alike r P (w'.error cause (t.relabel r)) := by
  refine ⟨h.scopes, ?_, h.distances⟩
  simp [Walk.error, h.errors, ScopeError.relabel]

theorem enter (h : w.Alike r P w') : w.enter.Alike r P w'.enter :=
  ⟨congrArg (Bindings.empty :: ·) h.scopes, h.errors, h.distances⟩

theorem leave (h : w.Alike r P w') : w.leave.Alike r P w'.leave :=
  ⟨congrArg List.tail h.scopes, h.errors, h.distances⟩

theorem bind (h : w.Alike r P w') (name : String) : (w.bind name).Alike r P (w'.bind name) := by
  have hs := h.scopes
  unfold Walk.bind
  rw [hs]
  split
  · exact h
  · exact ⟨rfl, h.errors, h.distances⟩

theorem define (h : w.Alike r P w') (t : Token) : (w.define t).Alike r P (w'.define (t.relabel r)) :=
  h.bind t.lexeme

theorem declare (h : w.Alike r P w') (t : Token) : (w.declare t).Alike r P (w'.declare (t.relabel r)) := by
  have hs := h.scopes
  unfold Walk.declare
  rw [hs, Token.lexeme_relabel]
  split
  · exact h
  · split
    · exact h.error .alreadyDeclared t
    · exact ⟨rfl, h.errors, h.distances⟩

theorem declareAll (h : w.Alike r P w') (ts : List Token) :
    (w.declareAll ts).Alike r P (w'.declareAll (ts.map (·.relabel r))) := by
  induction ts generalizing w w' with
  | nil => exact h
  | cons t ts ih => exact ih ((h.declare t).define t)

theorem locate (hP : Follows r P) (h : w.Alike r P w') (ref : Ref) :
    (w.locate ref).Alike r P (w'.locate (ref.relabel r)) := by
  have hs := h.scopes
  have hd : w'.distance? (ref.relabel r).name.lexeme = w.distance? ref.name.lexeme := by
    unfold distance?
    rw [hs]
    rfl
  unfold Walk.locate
  rw [hd]
  split
  · exact ⟨hs, h.errors, hP.record h.distances _ _⟩
  · exact ⟨hs, h.errors, hP.forget h.distances _⟩

theorem read (hP : Follows r P) (h : w.Alike r P w') (ref : Ref) :
    (w.read ref).Alike r P (w'.read (ref.relabel r)) := by
  have hp : w'.isPending (ref.relabel r).name.lexeme = w.isPending ref.name.lexeme := by
    unfold isPending
    rw [h.scopes]
    rfl
  unfold Walk.read
  rw [hp]
  split
  · exact (h.error .ownInitializer _).locate hP ref
  · exact h.locate hP ref

end Walk.Alike

section

variable {r : Relabeling} {P : Distances → Distances → Prop} {w w' : Walk}

mutual

theorem alike_expr (hP : Follows r P) (k : Context) : ∀ (e : Expr) {w w' : Walk}, w.Alike r P w' →
    (expr k e w).Alike r P (expr k (e.relabel r) w')
  | .literal _ _, _, _, h => h
  | .var ref, _, _, h => h.read hP ref
  | .assign ref value, _, _, h => (alike_expr hP k value h).locate hP ref
  | .unary _ operand, _, _, h => alike_expr hP k operand h
  | .binary left _ right, _, _, h => alike_expr hP k right (alike_expr hP k left h)
  | .logical left _ right, _, _, h => alike_expr hP k right (alike_expr hP k left h)
  | .grouping inner, _, _, h => alike_expr hP k inner h
  | .call callee arguments _, _, _, h => alike_exprs hP k arguments (alike_expr hP k callee h)
  | .get object _, _, _, h => alike_expr hP k object h
  | .set object _ value, _, _, h => alike_expr hP k object (alike_expr hP k value h)
  | .this ref, _, _, h => by
    rw [Expr.relabel, expr, expr]
    split
    · exact h.error .thisOutsideClass _
    · exact h.locate hP ref
  | .super ref _, _, _, h => by
    rw [Expr.relabel, expr, expr]
    cases k.cls with
    | none => exact (h.error .superOutsideClass _).locate hP ref
    | plain => exact (h.error .superWithoutSuperclass _).locate hP ref
    | subclass => exact h.locate hP ref

theorem alike_exprs (hP : Follows r P) (k : Context) : ∀ (es : List Expr) {w w' : Walk}, w.Alike r P w' →
    (exprs k es w).Alike r P (exprs k (Expr.relabelAll r es) w')
  | [], _, _, h => h
  | e :: es, _, _, h => alike_exprs hP k es (alike_expr hP k e h)

end

theorem alike_optional (hP : Follows r P) (k : Context) (e : Option Expr) (h : w.Alike r P w') :
    (optional k e w).Alike r P (optional k (e.map (·.relabel r)) w') := by
  cases e with
  | none => exact h
  | some e => exact alike_expr hP k e h

theorem alike_ret (hP : Follows r P) (k : Context) (keyword : Token) (value : Option Expr) (h : w.Alike r P w') :
    (ret k keyword value w).Alike r P (ret k (keyword.relabel r) (value.map (·.relabel r)) w') := by
  have herror {p : Prop} [Decidable p] (cause : ScopeCause) {w w' : Walk} (h : w.Alike r P w') :
      (if p then w.error cause keyword else w).Alike r P
        (if p then w'.error cause (keyword.relabel r) else w') := by
    split
    · exact h.error cause _
    · exact h
  unfold ret
  rw [Option.isSome_map]
  exact alike_optional hP k value (herror .returnFromInitializer (herror .returnAtTopLevel h))

theorem alike_classHead (hP : Follows r P) (name : Token) (superclass : Option Ref) (h : w.Alike r P w') :
    (classHead name superclass w).Alike r P
      (classHead (name.relabel r) (superclass.map (·.relabel r)) w') := by
  have hname := (h.declare name).define name
  cases superclass with
  | none => exact hname.enter.bind "this"
  | some ref =>
    have hself : (if ref.name.lexeme = name.lexeme then
        ((w.declare name).define name).error .selfInheritance ref.name
      else (w.declare name).define name).Alike r P (if ref.name.lexeme = name.lexeme then
        ((w'.declare (name.relabel r)).define (name.relabel r)).error .selfInheritance (ref.name.relabel r)
      else (w'.declare (name.relabel r)).define (name.relabel r)) := by
      split
      · exact hname.error .selfInheritance _
      · exact hname
    exact ((((hself.read hP ref).enter).bind "super").enter).bind "this"

theorem alike_classEnd (superclass : Option Ref) (h : w.Alike r P w') :
    (classEnd superclass w).Alike r P (classEnd (superclass.map (·.relabel r)) w') := by
  cases superclass with
  | none => exact h.leave
  | some _ => exact h.leave.leave

mutual

theorem alike_stmt (hP : Follows r P) (k : Context) : ∀ (s : Stmt) {w w' : Walk}, w.Alike r P w' →
    (stmt k s w).Alike r P (stmt k (s.relabel r) w')
  | .expr e, _, _, h => alike_expr hP k e h
  | .print e, _, _, h => alike_expr hP k e h
  | .var name initial, _, _, h => (alike_optional hP k initial (h.declare name)).define name
  | .block body, _, _, h => (alike_stmts hP k body h.enter).leave
  | .cond test yes none, _, _, h => alike_stmt hP k yes (alike_expr hP k test h)
  | .cond test yes (some no), _, _, h => alike_stmt hP k no (alike_stmt hP k yes (alike_expr hP k test h))
  | .loop test body, _, _, h => alike_stmt hP k body (alike_expr hP k test h)
  | .function decl, _, _, h => by
    have hname := (h.declare decl.name).define decl.name
    rw [← FunctionDecl.name_relabel] at hname
    exact alike_function hP _ decl hname
  | .ret keyword value, _, _, h => alike_ret hP k keyword value h
  | .classDecl name superclass methods, _, _, h => by
    have hkind : classKind (superclass.map (·.relabel r)) = classKind superclass := by
      cases superclass <;> rfl
    rw [Stmt.relabel, stmt, stmt, hkind]
    exact alike_classEnd superclass (alike_functions hP _ methods (alike_classHead hP name superclass h))

theorem alike_stmts (hP : Follows r P) (k : Context) : ∀ (ss : List Stmt) {w w' : Walk}, w.Alike r P w' →
    (stmts k ss w).Alike r P (stmts k (Stmt.relabelAll r ss) w')
  | [], _, _, h => h
  | s :: ss, _, _, h => alike_stmts hP k ss (alike_stmt hP k s h)

theorem alike_function (hP : Follows r P) (k : Context) : ∀ (d : FunctionDecl) {w w' : Walk}, w.Alike r P w' →
    (function k d w).Alike r P (function k (d.relabel r) w')
  | .mk _ params body, _, _, h => (alike_stmts hP k body (h.enter.declareAll params)).leave

theorem alike_functions (hP : Follows r P) (k : Context) :
    ∀ (ds : List FunctionDecl) {w w' : Walk}, w.Alike r P w' →
    (functions k ds w).Alike r P (functions k (FunctionDecl.relabelAll r ds) w')
  | [], _, _, h => h
  | d :: ds, _, _, h => by
    have hkind : methodKind (d.relabel r) = methodKind d := by
      rw [methodKind, FunctionDecl.name_relabel]
      rfl
    rw [FunctionDecl.relabelAll, functions, functions, hkind]
    exact alike_functions hP k ds (alike_function hP _ d h)

end

/-- A relabeled program has the same errors, and distances that stay related. -/
theorem resolve_relabel (hP : Follows r P) (program : List Stmt) {D D' : Distances} (hD : P D D') :
    (resolve (Stmt.relabelAll r program) D').errors = (resolve program D).errors.map (·.relabel r) ∧
      P (resolve program D).distances (resolve (Stmt.relabelAll r program) D').distances := by
  have hstart : Walk.Alike r P ⟨[], #[], D⟩ ⟨[], #[], D'⟩ := ⟨rfl, Array.map_empty.symm, hD⟩
  have halike := alike_stmts hP topLevel program hstart
  refine ⟨?_, halike.distances⟩
  have herrors := congrArg Array.toList halike.errors
  rwa [Array.toList_map] at herrors

/-- Whether a program has errors does not depend on its lines and ids, nor on the distances known. -/
theorem resolve_errors_relabel {program : List Stmt} {D : Distances}
    (h : (resolve program D).errors = []) (r : Relabeling) (D' : Distances) :
    (resolve (Stmt.relabelAll r program) D').errors = [] := by
  have hP : Follows r fun _ _ ↦ True := ⟨fun _ _ _ ↦ trivial, fun _ _ ↦ trivial⟩
  have herrors : (resolve (Stmt.relabelAll r program) D').errors =
      (resolve program D).errors.map (·.relabel r) := (resolve_relabel hP program trivial).1
  rwa [h] at herrors

/-- The lines of a program do not count for distances. -/
theorem resolve_distances_lines (program : List Stmt) (D : Distances) (f : Nat → Nat) :
    (resolve (Stmt.relabelAll (.lines f) program) D).distances = (resolve program D).distances := by
  have hP : Follows (.lines f) Eq := ⟨fun h id d ↦ by rw [h]; rfl, fun h id ↦ by rw [h]; rfl⟩
  exact (resolve_relabel hP program rfl).2.symm

end

theorem stmts_append (k : Context) (ss ss' : List Stmt) (w : Walk) :
    stmts k (ss ++ ss') w = stmts k ss' (stmts k ss w) := by
  induction ss generalizing w with
  | nil => rfl
  | cons s ss ih => exact ih (stmt k s w)

theorem scopes_stmts_topLevel (k : Context) {ss : List Stmt} (h : Stmt.AllOf proper ss) {w : Walk}
    (hw : w.scopes = []) : (stmts k ss w).scopes = [] := by
  induction ss generalizing w with
  | nil => exact hw
  | cons s ss ih =>
    refine ih h.2 ?_
    rw [scopes_stmt k s w h.1, hw]
    cases s.declared? <;> rfl

/-- A program is resolved behind another one as it is by itself. -/
theorem resolve_append {program : List Stmt} {D : Distances} (hp : Stmt.AllOf proper program)
    (h : (resolve program D).errors = []) (program' : List Stmt) :
    resolve (program ++ program') D = resolve program' (resolve program D).distances := by
  have hscopes := scopes_stmts_topLevel topLevel hp (w := ⟨[], #[], D⟩) rfl
  have herrors : (stmts topLevel program ⟨[], #[], D⟩).errors = #[] := Array.toList_eq_nil_iff.1 h
  unfold resolve
  rw [stmts_append]
  generalize stmts topLevel program ⟨[], #[], D⟩ = w at *
  obtain ⟨S, es, D'⟩ := w
  subst hscopes herrors
  rfl

end Scope

end Lox
