import Lox.Interpreter
import Lox.Proofs.Scope.Findings

namespace Lox

open Scope (Names Walk Context FunctionKind ClassKind)

structure Resolver where
  interpreter : Interpreter
  scopes : List Names
  function : FunctionKind
  cls : ClassKind
  errors : Array ScopeError

namespace Resolver

def new (i : Interpreter) : Resolver := ⟨i, [], .none, .none, #[]⟩

def context (r : Resolver) : Context := ⟨r.function, r.cls⟩

def walk (r : Resolver) : Walk := ⟨r.scopes, r.errors, r.interpreter.distances⟩

def carry (r : Resolver) (visit : Walk → Walk) : Resolver :=
  let w := visit r.walk
  { r with scopes := w.scopes, errors := w.errors, interpreter := { r.interpreter with distances := w.distances } }

def error (r : Resolver) (cause : ScopeCause) (token : Token) : Resolver := r.carry (·.error cause token)

mutual

def expr : Expr → Resolver → Resolver
  | .literal _ _, r => r
  | .var ref, r => r.carry (·.read ref)
  | .assign ref value, r => (expr value r).carry (·.locate ref)
  | .unary _ operand, r => expr operand r
  | .binary left _ right, r => expr right (expr left r)
  | .logical left _ right, r => expr right (expr left r)
  | .grouping inner, r => expr inner r
  | .call callee arguments _, r => exprs arguments (expr callee r)
  | .get object _, r => expr object r
  | .set object _ value, r => expr object (expr value r)
  | .this ref, r =>
    if r.cls = .none then r.error .thisOutsideClass ref.name else r.carry (·.locate ref)
  | .super ref _, r =>
    let r := match r.cls with
      | .none => r.error .superOutsideClass ref.name
      | .plain => r.error .superWithoutSuperclass ref.name
      | .subclass => r
    r.carry (·.locate ref)

def exprs : List Expr → Resolver → Resolver
  | [], r => r
  | e :: es, r => exprs es (expr e r)

end

def optional (e : Option Expr) (r : Resolver) : Resolver :=
  match e with
  | none => r
  | some e => expr e r

def ret (keyword : Token) (value : Option Expr) (r : Resolver) : Resolver :=
  let r := if r.function = .none then r.error .returnAtTopLevel keyword else r
  match value with
  | none => r
  | some e =>
    expr e (if r.function = .initializer then r.error .returnFromInitializer keyword else r)

/-- Enters a class: its name, then its superclass, then the scopes around its methods. -/
def enterClass (name : Token) (superclass : Option Ref) (r : Resolver) : Resolver :=
  let r := { r with cls := .plain }
  let r := r.carry fun w ↦ (w.declare name).define name
  let r := match superclass with
    | none => r
    | some ref =>
      let r := if ref.name.lexeme = name.lexeme then r.error .selfInheritance ref.name else r
      let r := { r with cls := .subclass }
      (r.carry (·.read ref)).carry (·.enter.bind "super")
  r.carry (·.enter.bind "this")

def leaveClass (superclass : Option Ref) (enclosing : ClassKind) (r : Resolver) : Resolver :=
  let r := r.carry Walk.leave
  let r := if superclass.isSome then r.carry Walk.leave else r
  { r with cls := enclosing }

mutual

/-- Visits a statement. The kinds of function and class are set on the way in and set back on the way out. -/
def stmt : Stmt → Resolver → Resolver
  | .expr e, r => expr e r
  | .print e, r => expr e r
  | .var name initial, r => (optional initial (r.carry (·.declare name))).carry (·.define name)
  | .block body, r => (stmts body (r.carry Walk.enter)).carry Walk.leave
  | .cond test yes none, r => stmt yes (expr test r)
  | .cond test yes (some no), r => stmt no (stmt yes (expr test r))
  | .loop test body, r => stmt body (expr test r)
  | .function decl, r =>
    functionBody .function decl (r.carry fun w ↦ (w.declare decl.name).define decl.name)
  | .ret keyword value, r => ret keyword value r
  | .classDecl name superclass methods, r =>
    leaveClass superclass r.cls (functions methods (enterClass name superclass r))

def stmts : List Stmt → Resolver → Resolver
  | [], r => r
  | s :: ss, r => stmts ss (stmt s r)

def functionBody (kind : FunctionKind) : FunctionDecl → Resolver → Resolver
  | .mk _ params body, r =>
    let inside := { r with function := kind }.carry (·.enter.declareAll params)
    { (stmts body inside).carry Walk.leave with function := r.function }

def functions : List FunctionDecl → Resolver → Resolver
  | [], r => r
  | d :: ds, r => functions ds (functionBody (Scope.methodKind d) d r)

end

/-- Resolves a program and hands over the errors. -/
def resolve (program : List Stmt) (r : Resolver) : List Diagnostic × Resolver :=
  let r := stmts program r
  (r.errors.toList.map .scope, { r with errors := #[] })

@[simp] theorem carry_carry (r : Resolver) (visit visit' : Walk → Walk) :
    (r.carry visit).carry visit' = r.carry fun w ↦ visit' (visit w) := rfl

@[simp] theorem context_carry (r : Resolver) (visit : Walk → Walk) : (r.carry visit).context = r.context := rfl

theorem ite_carry (r : Resolver) (p : Prop) [Decidable p] (visit : Walk → Walk) :
    (if p then r.carry visit else r) = r.carry fun w ↦ if p then visit w else w := by
  split <;> rfl

mutual

theorem expr_eq : ∀ (e : Expr) (r : Resolver), expr e r = r.carry (Scope.expr r.context e)
  | .literal _ _, r => rfl
  | .var ref, r => rfl
  | .assign ref value, r => by
    rw [expr, expr_eq value]
    rfl
  | .unary _ operand, r => expr_eq operand r
  | .binary left _ right, r => by
    rw [expr, expr_eq left, expr_eq right]
    rfl
  | .logical left _ right, r => by
    rw [expr, expr_eq left, expr_eq right]
    rfl
  | .grouping inner, r => expr_eq inner r
  | .call callee arguments _, r => by
    rw [expr, expr_eq callee, exprs_eq arguments]
    rfl
  | .get object _, r => expr_eq object r
  | .set object _ value, r => by
    rw [expr, expr_eq value, expr_eq object]
    rfl
  | .this ref, r => by
    by_cases hcls : r.cls = .none
    · rw [expr, if_pos hcls]
      have hwalk : Scope.expr r.context (.this ref) = (·.error .thisOutsideClass ref.name) := by
        funext w
        rw [Scope.expr]
        exact if_pos hcls
      rw [hwalk]
      rfl
    · rw [expr, if_neg hcls]
      have hwalk : Scope.expr r.context (.this ref) = (·.locate ref) := by
        funext w
        rw [Scope.expr]
        exact if_neg hcls
      rw [hwalk]
  | .super ref _, r => by
    obtain ⟨i, S, kind, cls, E⟩ := r
    cases cls <;> rfl

theorem exprs_eq : ∀ (es : List Expr) (r : Resolver), exprs es r = r.carry (Scope.exprs r.context es)
  | [], r => rfl
  | e :: es, r => by
    rw [exprs, expr_eq e, exprs_eq es]
    rfl

end

theorem optional_eq (e : Option Expr) (r : Resolver) :
    optional e r = r.carry (Scope.optional r.context e) := by
  cases e with
  | none => rfl
  | some e => exact expr_eq e r

theorem ret_eq (keyword : Token) (value : Option Expr) (r : Resolver) :
    ret keyword value r = r.carry (Scope.ret r.context keyword value) := by
  obtain ⟨i, S, kind, cls, E⟩ := r
  cases value with
  | none => cases kind <;> rfl
  | some e => cases kind <;> exact expr_eq e _

theorem enterClass_eq (name : Token) (superclass : Option Ref) (r : Resolver) :
    enterClass name superclass r =
      { r with cls := Scope.classKind superclass }.carry (Scope.classHead name superclass) := by
  cases superclass with
  | none => rfl
  | some ref =>
    unfold enterClass Scope.classHead error
    simp only [ite_carry]
    rfl

theorem leaveClass_eq (superclass : Option Ref) (enclosing : ClassKind) (r : Resolver) :
    leaveClass superclass enclosing r = { r.carry (Scope.classEnd superclass) with cls := enclosing } := by
  cases superclass <;> rfl

mutual

/-- A resolver walks as if the kinds of function and class were passed down the tree. -/
theorem stmt_eq : ∀ (s : Stmt) (r : Resolver), stmt s r = r.carry (Scope.stmt r.context s)
  | .expr e, r => expr_eq e r
  | .print e, r => expr_eq e r
  | .var name initial, r => by
    rw [stmt, optional_eq]
    rfl
  | .block body, r => by
    rw [stmt, stmts_eq body]
    rfl
  | .cond test yes none, r => by
    rw [stmt, expr_eq, stmt_eq yes]
    rfl
  | .cond test yes (some no), r => by
    rw [stmt, expr_eq, stmt_eq yes, stmt_eq no]
    rfl
  | .loop test body, r => by
    rw [stmt, expr_eq, stmt_eq body]
    rfl
  | .function decl, r => by
    rw [stmt, functionBody_eq]
    rfl
  | .ret keyword value, r => ret_eq keyword value r
  | .classDecl name superclass methods, r => by
    rw [stmt, enterClass_eq, functions_eq methods, leaveClass_eq]
    rfl

theorem stmts_eq : ∀ (ss : List Stmt) (r : Resolver), stmts ss r = r.carry (Scope.stmts r.context ss)
  | [], r => rfl
  | s :: ss, r => by
    rw [stmts, stmt_eq s, stmts_eq ss]
    rfl

theorem functionBody_eq (kind : FunctionKind) : ∀ (d : FunctionDecl) (r : Resolver),
    functionBody kind d r = r.carry (Scope.function ⟨kind, r.cls⟩ d)
  | .mk name params body, r => by
    rw [functionBody, stmts_eq body]
    rfl

theorem functions_eq : ∀ (ds : List FunctionDecl) (r : Resolver),
    functions ds r = r.carry (Scope.functions r.context ds)
  | [], r => rfl
  | d :: ds, r => by
    rw [functions, functionBody_eq _ d, functions_eq ds]
    rfl

end

end Resolver

theorem Interpreter.exists_resolve_eq (program : List Stmt) :
    ∃ (errors : List Diagnostic) (notes : List (Nat × Option Nat)),
      (∀ n ∈ notes, ∃ ref ∈ Stmt.refsOf program, ref.id = n.1) ∧
      ∀ i : Interpreter, i.resolve program = (errors, { i with distances := i.distances.noteAll notes }) := by
  obtain ⟨errors, notes, hnotes, hwalk⟩ := Scope.exists_findings program
  refine ⟨(#[] ++ errors).toList.map .scope, notes, hnotes, fun i ↦ ?_⟩
  rw [resolve, Scope.resolve, hwalk ⟨[], #[], i.distances⟩ rfl]

namespace Resolver

theorem resolve_new (i : Interpreter) (program : List Stmt) :
    (new i).resolve program = ((i.resolve program).1, new (i.resolve program).2) := by
  obtain ⟨errors, notes, -, hwalk⟩ := Scope.exists_findings program
  have hnew : Scope.stmts (new i).context program (new i).walk = ⟨[], #[] ++ errors, i.distances.noteAll notes⟩ :=
    hwalk (new i).walk rfl
  rw [resolve, stmts_eq, carry, hnew, Interpreter.resolve, Scope.resolve, hwalk ⟨[], #[], i.distances⟩ rfl]
  rfl

/-- Resolution changes only the table of distances, and there only the entries of the program's own
occurrences. A second time it changes nothing and finds the same errors. Programs with different ids can be
resolved in either order, and a resolver can be used again. -/
theorem resolution_independent (i : Interpreter) (P Q : List Stmt) :
    (new i).resolve P = ((i.resolve P).1, new (i.resolve P).2) ∧
    ((i.resolve P).2 = { i with distances := (i.resolve P).2.distances } ∧
      ∀ id, (∀ ref ∈ Stmt.refsOf P, ref.id ≠ id) →
        (i.resolve P).2.distances.find? id = i.distances.find? id) ∧
    (i.resolve P).2.resolve P = i.resolve P ∧
    ((∀ p ∈ Stmt.refsOf P, ∀ q ∈ Stmt.refsOf Q, p.id ≠ q.id) →
      ((i.resolve P).2.resolve Q).2 = ((i.resolve Q).2.resolve P).2 ∧
      ((i.resolve P).2.resolve Q).1 = (i.resolve Q).1 ∧
      ((i.resolve Q).2.resolve P).1 = (i.resolve P).1) ∧
    ((new i).resolve P).2.resolve Q = (new ((new i).resolve P).2.interpreter).resolve Q ∧
    (((new i).resolve P).2.resolve Q).1 = ((new i).resolve Q).1 := by
  obtain ⟨errors, notes, hnotes, hP⟩ := Interpreter.exists_resolve_eq P
  obtain ⟨errors', notes', hnotes', hQ⟩ := Interpreter.exists_resolve_eq Q
  refine ⟨resolve_new i P, ⟨?_, fun id hid ↦ ?_⟩, ?_, fun hids ↦ ?_, ?_, ?_⟩
  · rw [hP]
  · have hother : ∀ n ∈ notes, n.1 ≠ id := by
      intro n hn
      obtain ⟨ref, href, heq⟩ := hnotes n hn
      exact heq ▸ hid ref href
    rw [hP, Distances.find?_noteAll, Distances.lastNote_eq_none hother]
    rfl
  · simp only [hP, Distances.noteAll_noteAll]
  · have hother : ∀ n ∈ notes, ∀ n' ∈ notes', n.1 ≠ n'.1 := by
      intro n hn n' hn'
      obtain ⟨p, hp, heq⟩ := hnotes n hn
      obtain ⟨q, hq, heq'⟩ := hnotes' n' hn'
      exact heq ▸ heq' ▸ hids p hp q hq
    simp only [hP, hQ, Distances.noteAll_comm i.distances hother, and_self]
  · rw [resolve_new]
    rfl
  · simp only [resolve_new, hQ]

def misused : List Stmt :=
  let a : Token := ⟨.identifier, "a", 1⟩
  [.block [.var a (some (.var ⟨0, a⟩))], .print (.this ⟨1, ⟨.keyword .kThis, "this", 1⟩⟩)]

def enclosed : List Stmt :=
  let a : Token := ⟨.identifier, "a", 1⟩
  [.block [.var a none, .block [.print (.var ⟨2, a⟩)]]]

theorem misused_independent : (∀ p ∈ Stmt.refsOf misused, ∀ q ∈ Stmt.refsOf enclosed, p.id ≠ q.id) ∧
    ((Interpreter.new .unbounded .ticking).resolve misused).1.length = 2 ∧
    (((Interpreter.new .unbounded .ticking).resolve misused).2.resolve enclosed).2 =
      (((Interpreter.new .unbounded .ticking).resolve enclosed).2.resolve misused).2 ∧
    (((Interpreter.new .unbounded .ticking).resolve misused).2.resolve enclosed).2.distances.find? 2 = some 1 := by
  have hids : ∀ p ∈ Stmt.refsOf misused, ∀ q ∈ Stmt.refsOf enclosed, p.id ≠ q.id := by
    simp [misused, enclosed, Stmt.refsOf, Stmt.refs, Expr.refs, Expr.optionalRefs]
  obtain ⟨-, -, -, hcomm, -⟩ := resolution_independent (Interpreter.new .unbounded .ticking) misused enclosed
  exact ⟨hids, rfl, (hcomm hids).1, rfl⟩

end Resolver

end Lox
