import Lox.Token.Basic

namespace Lox

inductive Literal where
  | nil
  | bool (b : Bool)
  | number (x : Float)
  | string (s : String)

/-- An occurrence of a name. No two occurrences of one parse, or of one session, have the same id. -/
structure Ref where
  id : Nat
  name : Token

inductive Expr where
  | literal (value : Literal) (line : Nat)
  | var (ref : Ref)
  | assign (ref : Ref) (value : Expr)
  | unary (op : Token) (operand : Expr)
  | binary (left : Expr) (op : Token) (right : Expr)
  | logical (left : Expr) (op : Token) (right : Expr)
  | grouping (inner : Expr)
  | call (callee : Expr) (arguments : List Expr) (paren : Token)
  | get (object : Expr) (name : Token)
  | set (object : Expr) (name : Token) (value : Expr)
  | this (ref : Ref)
  | super (ref : Ref) (method : Token)

def Expr.line : Expr → Nat
  | literal _ line => line
  | var ref => ref.name.line
  | assign ref _ => ref.name.line
  | unary op _ => op.line
  | binary _ op _ => op.line
  | logical _ op _ => op.line
  | grouping inner => inner.line
  | call _ _ paren => paren.line
  | get _ name => name.line
  | set _ name _ => name.line
  | this ref => ref.name.line
  | super ref _ => ref.name.line

mutual

inductive Stmt where
  | expr (e : Expr)
  | print (e : Expr)
  | var (name : Token) (initial : Option Expr)
  | block (body : List Stmt)
  | cond (test : Expr) (yes : Stmt) (no : Option Stmt)
  | loop (test : Expr) (body : Stmt)
  | function (decl : FunctionDecl)
  | ret (keyword : Token) (value : Option Expr)
  | classDecl (name : Token) (superclass : Option Ref) (methods : List FunctionDecl)

inductive FunctionDecl where
  | mk (name : Token) (params : List Token) (body : List Stmt)

end

namespace FunctionDecl

def name : FunctionDecl → Token
  | mk name _ _ => name

def params : FunctionDecl → List Token
  | mk _ params _ => params

def body : FunctionDecl → List Stmt
  | mk _ _ body => body

end FunctionDecl

namespace Stmt

/-- A loop with an optional first statement, condition and step. Without a condition it goes on for
ever; `line` is the line of the condition then put in. -/
def forLoop (line : Nat) (first : Option Stmt) (test step : Option Expr) (body : Stmt) : Stmt :=
  let body := match step with
    | some e => block [body, expr e]
    | none => body
  let whole := loop (test.getD (.literal (.bool true) line)) body
  match first with
  | some s => block [s, whole]
  | none => whole

end Stmt

end Lox
