import Lox.Tree.Basic

namespace Lox

def Literal.render : Literal → String
  | nil => "nil"
  | bool b => if b then "true" else "false"
  | number x => Number.literal x
  | string s => s

mutual

def Expr.render : Expr → String
  | .literal value _ => value.render
  | .var ref => ref.name.lexeme
  | .assign ref value => "(= " ++ ref.name.lexeme ++ " " ++ value.render ++ ")"
  | .unary op operand => "(" ++ op.lexeme ++ " " ++ operand.render ++ ")"
  | .binary left op right => "(" ++ op.lexeme ++ " " ++ left.render ++ " " ++ right.render ++ ")"
  | .logical left op right => "(" ++ op.lexeme ++ " " ++ left.render ++ " " ++ right.render ++ ")"
  | .grouping inner => "(group " ++ inner.render ++ ")"
  | .call callee arguments _ => "(call " ++ callee.render ++ Expr.renderEach arguments ++ ")"
  | .get object name => "(. " ++ object.render ++ " " ++ name.lexeme ++ ")"
  | .set object name value =>
    "(= (. " ++ object.render ++ " " ++ name.lexeme ++ ") " ++ value.render ++ ")"
  | .this _ => "this"
  | .super _ method => "(super " ++ method.lexeme ++ ")"

def Expr.renderEach : List Expr → String
  | [] => ""
  | e :: es => " " ++ e.render ++ Expr.renderEach es

end

mutual

def Stmt.render : Stmt → String
  | .expr e => "(; " ++ e.render ++ ")"
  | .print e => "(print " ++ e.render ++ ")"
  | .var name none => "(var " ++ name.lexeme ++ ")"
  | .var name (some e) => "(var " ++ name.lexeme ++ " " ++ e.render ++ ")"
  | .block body => "(block" ++ Stmt.renderEach body ++ ")"
  | .cond test yes none => "(if " ++ test.render ++ " " ++ yes.render ++ ")"
  | .cond test yes (some no) =>
    "(if " ++ test.render ++ " " ++ yes.render ++ " " ++ no.render ++ ")"
  | .loop test body => "(while " ++ test.render ++ " " ++ body.render ++ ")"
  | .function decl => decl.render
  | .ret _ none => "(return)"
  | .ret _ (some e) => "(return " ++ e.render ++ ")"
  | .classDecl name none methods =>
    "(class " ++ name.lexeme ++ FunctionDecl.renderEach methods ++ ")"
  | .classDecl name (some ref) methods =>
    "(class " ++ name.lexeme ++ " < " ++ ref.name.lexeme ++ FunctionDecl.renderEach methods ++ ")"

def Stmt.renderEach : List Stmt → String
  | [] => ""
  | s :: ss => " " ++ s.render ++ Stmt.renderEach ss

def FunctionDecl.render : FunctionDecl → String
  | .mk name params body =>
    "(fun " ++ name.lexeme ++ " (" ++ String.intercalate " " (params.map Token.lexeme) ++ ")" ++
      Stmt.renderEach body ++ ")"

def FunctionDecl.renderEach : List FunctionDecl → String
  | [] => ""
  | d :: ds => " " ++ d.render ++ FunctionDecl.renderEach ds

end

end Lox
