import Lox.Proofs.Scope.Declare
import Lox.Proofs.Scope.Legal

namespace Lox

mutual

def Expr.targets : Expr → List Ref
  | .literal _ _ | .var _ | .this _ | .super _ _ => []
  | .assign ref value => value.targets ++ [ref]
  | .unary _ e | .grouping e | .get e _ => e.targets
  | .binary left _ right | .logical left _ right => left.targets ++ right.targets
  | .call callee arguments _ => callee.targets ++ Expr.targetsOf arguments
  | .set object _ value => value.targets ++ object.targets

def Expr.targetsOf : List Expr → List Ref
  | [] => []
  | e :: es => e.targets ++ Expr.targetsOf es

end

mutual

/-- The assignments in the initial value of a local variable that have its name as their target. -/
def Stmt.premature (isLocal : Bool) : Stmt → List Ref
  | .var name (some e) => if isLocal then e.targets.filter (·.name.lexeme == name.lexeme) else []
  | .block body => Stmt.prematureOf true body
  | .cond _ yes none => yes.premature isLocal
  | .cond _ yes (some no) => yes.premature isLocal ++ no.premature isLocal
  | .loop _ body => body.premature isLocal
  | .function decl => decl.premature
  | .classDecl _ _ methods => FunctionDecl.prematureOf methods
  | _ => []

def Stmt.prematureOf (isLocal : Bool) : List Stmt → List Ref
  | [] => []
  | s :: ss => s.premature isLocal ++ Stmt.prematureOf isLocal ss

def FunctionDecl.premature : FunctionDecl → List Ref
  | .mk _ _ body => Stmt.prematureOf true body

def FunctionDecl.prematureOf : List FunctionDecl → List Ref
  | [] => []
  | d :: ds => d.premature ++ FunctionDecl.prematureOf ds

end

mutual

theorem Expr.targets_sublist : ∀ e : Expr, e.targets.Sublist e.refs
  | .literal _ _ | .var _ | .this _ | .super _ _ => List.nil_sublist _
  | .assign _ value => (targets_sublist value).append (.refl _)
  | .unary _ e | .grouping e | .get e _ => targets_sublist e
  | .binary left _ right | .logical left _ right => (targets_sublist left).append (targets_sublist right)
  | .call callee arguments _ => (targets_sublist callee).append (targetsOf_sublist arguments)
  | .set object _ value => (targets_sublist value).append (targets_sublist object)

theorem Expr.targetsOf_sublist : ∀ es : List Expr, (Expr.targetsOf es).Sublist (Expr.refsOf es)
  | [] => .slnil
  | e :: es => (targets_sublist e).append (targetsOf_sublist es)

end

mutual

theorem Stmt.premature_sublist (b : Bool) : ∀ s : Stmt, (s.premature b).Sublist s.refs
  | .expr _ | .print _ | .var _ none | .ret _ _ => List.nil_sublist _
  | .var name (some e) => by
    rw [Stmt.premature]
    split
    · exact List.filter_sublist.trans e.targets_sublist
    · exact List.nil_sublist _
  | .block body => Stmt.prematureOf_sublist true body
  | .cond test yes none => (List.nil_sublist _).append (Stmt.premature_sublist b yes)
  | .cond test yes (some no) =>
    (List.nil_sublist _).append ((Stmt.premature_sublist b yes).append (Stmt.premature_sublist b no))
  | .loop test body => (List.nil_sublist _).append (Stmt.premature_sublist b body)
  | .function decl => FunctionDecl.premature_sublist decl
  | .classDecl _ _ methods => (List.nil_sublist _).append (FunctionDecl.prematureOf_sublist methods)

theorem Stmt.prematureOf_sublist (b : Bool) : ∀ ss : List Stmt,
    (Stmt.prematureOf b ss).Sublist (Stmt.refsOf ss)
  | [] => .slnil
  | s :: ss => (Stmt.premature_sublist b s).append (Stmt.prematureOf_sublist b ss)

theorem FunctionDecl.premature_sublist : ∀ d : FunctionDecl, d.premature.Sublist d.refs
  | .mk _ _ body => Stmt.prematureOf_sublist true body

theorem FunctionDecl.prematureOf_sublist : ∀ ds : List FunctionDecl,
    (FunctionDecl.prematureOf ds).Sublist (FunctionDecl.refsOf ds)
  | [] => .slnil
  | d :: ds => (FunctionDecl.premature_sublist d).append (FunctionDecl.prematureOf_sublist ds)

end

namespace Scope

/-- The part has the assignment in it, and the name of its target waits or will wait there. -/
def Node.Premature (S : List Names) (ref : Ref) : Node → Prop
  | .expr e => ref ∈ e.targets ∧ Pending S ref.name.lexeme
  | .exprs es => ref ∈ Expr.targetsOf es ∧ Pending S ref.name.lexeme
  | .stmt s => ref ∈ s.premature (!S.isEmpty)
  | .stmts ss => ref ∈ Stmt.prematureOf (!S.isEmpty) ss
  | .function d => ref ∈ d.premature
  | .functions ds => ref ∈ FunctionDecl.prematureOf ds

section

variable {p q ps qs : List Ref} {ref : Ref}

theorem notMem_right (hd : (p ++ q).Pairwise (·.id ≠ ·.id)) (hqs : qs.Sublist q) (hr : ref ∈ p) :
    ref ∉ qs := fun h ↦ (List.pairwise_append.1 hd).2.2 ref hr ref (hqs.subset h) rfl

theorem mem_append_iff_left (hd : (p ++ q).Pairwise (·.id ≠ ·.id)) (hqs : qs.Sublist q) (hr : ref ∈ p) :
    ref ∈ ps ++ qs ↔ ref ∈ ps := by
  simp [notMem_right hd hqs hr]

theorem mem_append_iff_right (hd : (p ++ q).Pairwise (·.id ≠ ·.id)) (hps : ps.Sublist p) (hr : ref ∈ q) :
    ref ∈ ps ++ qs ↔ ref ∈ qs := by
  have hnot : ref ∉ ps := fun h ↦ (List.pairwise_append.1 hd).2.2 ref (hps.subset h) ref hr rfl
  simp [hnot]

end

namespace Accepted

variable {a : Accepted} {v u : Visit} {ref : Ref}

theorem pending_initial {k : Context} {t : Token} {e : Expr} {w : Walk}
    (hv : a.Visits ⟨k, .stmt (.var t (some e)), w⟩) {x : String} :
    Pending (declareIn t.lexeme w.scopes) x ↔ x = t.lexeme ∧ w.scopes.isEmpty = false := by
  have herrors : (stmt k (.var t (some e)) w).errors.size = 0 := errors_after hv
  have hle := errors_declare_le k (s := .var t (some e)) rfl w
  have hfresh : Fresh w.scopes t.lexeme := fresh_of_errors_declare (by omega)
  constructor
  · exact Settled.of_pending_declareIn (settles hv)
  · rintro ⟨rfl, hS⟩
    exact hfresh.pending_declareIn hS

theorem premature_part (hv : a.Visits v) (hp : v.Part u) (hr : ref ∈ u.node.refs) :
    v.node.Premature v.walk.scopes ref ↔ u.node.Premature u.walk.scopes ref := by
  have hd := a.distinct.sublist hv.refs_sublist
  have hnodes := all hv
  have hsettles := settles hv
  have settled {S : List Names} (hS : Settled S) (e : Expr) : ¬Node.Premature S ref (.expr e) :=
    fun h ↦ hS.not_pending _ h.2
  cases hp with
  | unary | grouping | get | block | function | methods => exact Iff.rfl
  | assign => exact and_congr_left' (mem_append_iff_left hd (.refl _) hr)
  | binaryLeft | logicalLeft | setValue =>
    exact and_congr_left' (mem_append_iff_left hd (Expr.targets_sublist _) hr)
  | binaryRight | logicalRight | setObject =>
    simp only [Node.Premature, scopes_expr]
    exact and_congr_left' (mem_append_iff_right hd (Expr.targets_sublist _) hr)
  | callee | headExpr =>
    exact and_congr_left' (mem_append_iff_left hd (Expr.targetsOf_sublist _) hr)
  | arguments | tailExprs =>
    simp only [Node.Premature, scopes_expr]
    exact and_congr_left' (mem_append_iff_right hd (Expr.targets_sublist _) hr)
  | expr | print => exact iff_of_false nofun (settled hsettles _)
  | ret =>
    refine iff_of_false nofun (settled ?_ _)
    rw [scopes_checkReturn]
    exact hsettles
  | initial =>
    rw [Node.Premature, Node.Premature, Walk.scopes_declare, pending_initial hv, Stmt.premature]
    cases Walk.scopes _ <;> simp
  | @condTest _ _ _ y n =>
    refine iff_of_false ?_ (settled hsettles _)
    cases n with
    | none => exact notMem_right hd (Stmt.premature_sublist _ y) hr
    | some n => exact notMem_right hd ((Stmt.premature_sublist _ y).append (Stmt.premature_sublist _ n)) hr
  | @condYes _ _ _ _ n =>
    simp only [Node.Premature, scopes_expr]
    cases n with
    | none => exact Iff.rfl
    | some n => exact mem_append_iff_left (List.pairwise_append.1 hd).2.1 (Stmt.premature_sublist _ _) hr
  | condNo =>
    simp only [Node.Premature]
    rw [scopes_stmt _ _ _ hnodes.2.2.1, isEmpty_afterDeclaring, scopes_expr]
    exact mem_append_iff_right (List.pairwise_append.1 hd).2.1 (Stmt.premature_sublist _ _) hr
  | @loopTest _ _ _ s =>
    exact iff_of_false (notMem_right hd (Stmt.premature_sublist _ s) hr) (settled hsettles _)
  | loopBody =>
    simp only [Node.Premature, scopes_expr]
    exact Iff.rfl
  | superclass =>
    refine iff_of_false (notMem_right hd (FunctionDecl.prematureOf_sublist _) hr) ?_
    exact fun h ↦ nomatch h.1
  | headStmt => exact mem_append_iff_left hd (Stmt.prematureOf_sublist _ _) hr
  | tailStmts =>
    simp only [Node.Premature]
    rw [scopes_stmt _ _ _ hnodes.1, isEmpty_afterDeclaring]
    exact mem_append_iff_right hd (Stmt.premature_sublist _ _) hr
  | body =>
    simp only [Node.Premature]
    rw [Walk.scopes_declareAll, isEmpty_parameters]
    exact Iff.rfl
  | headFunction => exact mem_append_iff_left hd (FunctionDecl.prematureOf_sublist _) hr
  | tailFunctions => exact mem_append_iff_right hd (FunctionDecl.premature_sublist _) hr

theorem premature_visit (hv : a.Visits v) (hr : ref ∈ v.node.refs) :
    ref ∈ Stmt.prematureOf false a.program ↔ v.node.Premature v.walk.scopes ref := by
  induction hv with
  | program => exact Iff.rfl
  | part hv hp ih => exact (ih (hp.refs_sublist.subset hr)).trans (premature_part hv hp hr)

/-- An assignment is premature if and only if the name of its target waits there. -/
theorem premature_iff_pending {k : Context} {e : Expr} {w : Walk}
    (hv : a.Visits ⟨k, .expr (.assign ref e), w⟩) :
    ref ∈ Stmt.prematureOf false a.program ↔ Pending w.scopes ref.name.lexeme := by
  have htarget : ref ∈ (Expr.assign ref e).targets := List.mem_append_right _ (List.mem_singleton_self _)
  rw [premature_visit hv (Expr.mem_refs_of_ref? rfl), Node.Premature]
  exact and_iff_right htarget

end Accepted

end Scope

end Lox
