import Lox.Tree.Basic

namespace Lox

mutual

/-- The occurrences of names in an expression, in the order in which they are resolved. -/
def Expr.refs : Expr → List Ref
  | .literal _ _ => []
  | .var ref => [ref]
  | .assign ref value => value.refs ++ [ref]
  | .unary _ operand => operand.refs
  | .binary left _ right => left.refs ++ right.refs
  | .logical left _ right => left.refs ++ right.refs
  | .grouping inner => inner.refs
  | .call callee arguments _ => callee.refs ++ Expr.refsOf arguments
  | .get object _ => object.refs
  | .set object _ value => value.refs ++ object.refs
  | .this ref => [ref]
  | .super ref _ => [ref]

def Expr.refsOf : List Expr → List Ref
  | [] => []
  | e :: es => e.refs ++ Expr.refsOf es

end

def Expr.optionalRefs : Option Expr → List Ref
  | none => []
  | some e => e.refs

mutual

def Stmt.refs : Stmt → List Ref
  | .expr e => e.refs
  | .print e => e.refs
  | .var _ initial => Expr.optionalRefs initial
  | .block body => Stmt.refsOf body
  | .cond test yes none => test.refs ++ yes.refs
  | .cond test yes (some no) => test.refs ++ (yes.refs ++ no.refs)
  | .loop test body => test.refs ++ body.refs
  | .function decl => decl.refs
  | .ret _ value => Expr.optionalRefs value
  | .classDecl _ superclass methods => superclass.toList ++ FunctionDecl.refsOf methods

def Stmt.refsOf : List Stmt → List Ref
  | [] => []
  | s :: ss => s.refs ++ Stmt.refsOf ss

def FunctionDecl.refs : FunctionDecl → List Ref
  | .mk _ _ body => Stmt.refsOf body

def FunctionDecl.refsOf : List FunctionDecl → List Ref
  | [] => []
  | d :: ds => d.refs ++ FunctionDecl.refsOf ds

end

/-- What is asked of the nodes of a tree, each by itself. -/
structure Condition where
  expr : Expr → Prop
  stmt : Stmt → Prop
  function : FunctionDecl → Prop

mutual

def Expr.All (c : Condition) : Expr → Prop
  | .literal value line => c.expr (.literal value line)
  | .var ref => c.expr (.var ref)
  | .assign ref value => c.expr (.assign ref value) ∧ value.All c
  | .unary op operand => c.expr (.unary op operand) ∧ operand.All c
  | .binary left op right => c.expr (.binary left op right) ∧ left.All c ∧ right.All c
  | .logical left op right => c.expr (.logical left op right) ∧ left.All c ∧ right.All c
  | .grouping inner => c.expr (.grouping inner) ∧ inner.All c
  | .call callee arguments paren =>
    c.expr (.call callee arguments paren) ∧ callee.All c ∧ Expr.AllOf c arguments
  | .get object name => c.expr (.get object name) ∧ object.All c
  | .set object name value => c.expr (.set object name value) ∧ object.All c ∧ value.All c
  | .this ref => c.expr (.this ref)
  | .super ref method => c.expr (.super ref method)

def Expr.AllOf (c : Condition) : List Expr → Prop
  | [] => True
  | e :: es => e.All c ∧ Expr.AllOf c es

end

def Expr.OptionalAll (c : Condition) : Option Expr → Prop
  | none => True
  | some e => e.All c

mutual

def Stmt.All (c : Condition) : Stmt → Prop
  | .expr e => c.stmt (.expr e) ∧ e.All c
  | .print e => c.stmt (.print e) ∧ e.All c
  | .var name initial => c.stmt (.var name initial) ∧ Expr.OptionalAll c initial
  | .block body => c.stmt (.block body) ∧ Stmt.AllOf c body
  | .cond test yes none => c.stmt (.cond test yes none) ∧ test.All c ∧ yes.All c
  | .cond test yes (some no) =>
    c.stmt (.cond test yes (some no)) ∧ test.All c ∧ yes.All c ∧ no.All c
  | .loop test body => c.stmt (.loop test body) ∧ test.All c ∧ body.All c
  | .function decl => c.stmt (.function decl) ∧ decl.All c
  | .ret keyword value => c.stmt (.ret keyword value) ∧ Expr.OptionalAll c value
  | .classDecl name superclass methods =>
    c.stmt (.classDecl name superclass methods) ∧ (∀ ref ∈ superclass, c.expr (.var ref)) ∧
      FunctionDecl.AllOf c methods

def Stmt.AllOf (c : Condition) : List Stmt → Prop
  | [] => True
  | s :: ss => s.All c ∧ Stmt.AllOf c ss

def FunctionDecl.All (c : Condition) : FunctionDecl → Prop
  | .mk name params body => c.function (.mk name params body) ∧ Stmt.AllOf c body

def FunctionDecl.AllOf (c : Condition) : List FunctionDecl → Prop
  | [] => True
  | d :: ds => d.All c ∧ FunctionDecl.AllOf c ds

end

def Stmt.declared? : Stmt → Option Token
  | .var name _ => some name
  | .function decl => some decl.name
  | .classDecl name _ _ => some name
  | _ => none

def Token.Ordinary (t : Token) : Prop := t.lexeme ≠ "this" ∧ t.lexeme ≠ "super"

def unaryOperators : List Kind := [.mark .bang, .mark .minus]

def binaryOperators : List Kind :=
  [.mark .bangEqual, .mark .equalEqual, .mark .greater, .mark .greaterEqual, .mark .less,
    .mark .lessEqual, .mark .minus, .mark .plus, .mark .slash, .mark .star]

/-- What holds of each node of a tree that comes from a source: no ordinary name is that of an object
of methods, operators are those of their place, and branches and loop bodies declare nothing. -/
def proper : Condition where
  expr
    | .this ref => ref.name.lexeme = "this"
    | .super ref _ => ref.name.lexeme = "super"
    | .assign ref _ => ref.name.Ordinary
    | .unary op _ => op.kind ∈ unaryOperators
    | .binary _ op _ => op.kind ∈ binaryOperators
    | _ => True
  stmt
    | .cond _ yes none => yes.declared? = none
    | .cond _ yes (some no) => yes.declared? = none ∧ no.declared? = none
    | .loop _ body => body.declared? = none
    | s => ∀ name ∈ s.declared?, name.Ordinary
  function d := ∀ p ∈ d.params, p.Ordinary

end Lox
