import Lox.Parse.Expression

namespace Lox.Parse

open Rule

def stopsAt (stop : Kind → Bool) : Rule Bool := fun s ↦
  match s.rest with
  | [] => .ok true s
  | t :: _ => .ok (stop t.kind) s

def closesBlock : Kind → Bool
  | .mark .rightBrace => true
  | _ => false

/-- Declarations up to a token that stops them. One with a fault leaves nothing behind. -/
def declarations (stop : Kind → Bool) (declaration : Rule (Option Stmt)) : Nat → Rule (List Stmt)
  | 0 => pure []
  | n + 1 => do
    if ← stopsAt stop then pure []
    else
      match ← declaration with
      | some d => pure (d :: (← declarations stop declaration n))
      | none => declarations stop declaration n

def block (n : Nat) (declaration : Rule (Option Stmt)) : Rule (List Stmt) := do
  let body ← declarations closesBlock declaration n
  let _ ← expect (.mark .rightBrace) .blockEnd
  pure body

def parameter (count : Nat) : Rule Token := do
  if maxArity ≤ count then report .tooManyParameters (← peek)
  expect .identifier .parameterName

def parameters : Nat → Nat → Rule (List Token)
  | 0, count => do pure [← parameter count]
  | n + 1, count => do
    let p ← parameter count
    match ← accept (.mark .comma) with
    | none => pure [p]
    | some _ => pure (p :: (← parameters n (count + 1)))

def function (n : Nat) (declaration : Rule (Option Stmt)) (r : Routine) : Rule FunctionDecl := do
  let name ← expect .identifier (.routineName r)
  let _ ← expect (.mark .leftParen) (.parametersStart r)
  let params ← if ← check (.mark .rightParen) then pure [] else parameters n 0
  let _ ← expect (.mark .rightParen) .parametersEnd
  let _ ← expect (.mark .leftBrace) (.routineBody r)
  let body ← block n declaration
  pure (.mk name params body)

def methods (method : Rule FunctionDecl) : Nat → Rule (List FunctionDecl)
  | 0 => pure []
  | n + 1 => do
    if ← stopsAt closesBlock then pure []
    else
      let m ← method
      pure (m :: (← methods method n))

def superclass : Rule (Option Ref) := do
  match ← accept (.mark .less) with
  | none => pure none
  | some _ => pure (some (← occurrence (← expect .identifier .superclassName)))

def classDeclaration (n : Nat) (declaration : Rule (Option Stmt)) : Rule Stmt := do
  let name ← expect .identifier .className
  let super ← superclass
  let _ ← expect (.mark .leftBrace) .classBody
  let ms ← methods (function n declaration .method) n
  let _ ← expect (.mark .rightBrace) .classEnd
  pure (.classDecl name super ms)

def varDeclaration (n : Nat) : Rule Stmt := do
  let name ← expect .identifier .variableName
  let initial ← match ← accept (.mark .equal) with
    | some _ => some <$> expression n
    | none => pure none
  let _ ← expect (.mark .semicolon) .variableEnd
  pure (.var name initial)

def expressionStatement (n : Nat) : Rule Stmt := do
  let e ← expression n
  let _ ← expect (.mark .semicolon) .expressionEnd
  pure (.expr e)

def optionalExpression (n : Nat) (stop : Kind) : Rule (Option Expr) := do
  if ← check stop then pure none else some <$> expression n

def forFirst (n : Nat) : Rule (Option Stmt) := do
  match ← accept (.mark .semicolon) with
  | some _ => pure none
  | none =>
    match ← accept (.keyword .kVar) with
    | some _ => some <$> varDeclaration n
    | none => some <$> expressionStatement n

def forStatement (n : Nat) (statement : Rule Stmt) (line : Nat) : Rule Stmt := do
  let _ ← expect (.mark .leftParen) .forStart
  let first ← forFirst n
  let test ← optionalExpression n (.mark .semicolon)
  let _ ← expect (.mark .semicolon) .loopConditionEnd
  let step ← optionalExpression n (.mark .rightParen)
  let _ ← expect (.mark .rightParen) .forClausesEnd
  let body ← statement
  pure (.forLoop line first test step body)

def ifStatement (n : Nat) (statement : Rule Stmt) : Rule Stmt := do
  let _ ← expect (.mark .leftParen) .ifStart
  let test ← expression n
  let _ ← expect (.mark .rightParen) .ifConditionEnd
  let yes ← statement
  let no ← match ← accept (.keyword .kElse) with
    | some _ => some <$> statement
    | none => pure none
  pure (.cond test yes no)

def whileStatement (n : Nat) (statement : Rule Stmt) : Rule Stmt := do
  let _ ← expect (.mark .leftParen) .whileStart
  let test ← expression n
  let _ ← expect (.mark .rightParen) .whileConditionEnd
  let body ← statement
  pure (.loop test body)

def printStatement (n : Nat) : Rule Stmt := do
  let e ← expression n
  let _ ← expect (.mark .semicolon) .printEnd
  pure (.print e)

def returnStatement (n : Nat) (keyword : Token) : Rule Stmt := do
  let value ← optionalExpression n (.mark .semicolon)
  let _ ← expect (.mark .semicolon) .returnEnd
  pure (.ret keyword value)

def statementWith (n : Nat) (declaration : Rule (Option Stmt)) (statement : Rule Stmt) :
    Rule Stmt := do
  let t ← peek
  match t.kind with
  | .keyword .kFor => advance; forStatement n statement t.line
  | .keyword .kIf => advance; ifStatement n statement
  | .keyword .kPrint => advance; printStatement n
  | .keyword .kReturn => advance; returnStatement n t
  | .keyword .kWhile => advance; whileStatement n statement
  | .mark .leftBrace => advance; .block <$> block n declaration
  | _ => expressionStatement n

def declarationWith (n : Nat) (declaration : Rule (Option Stmt)) (statement : Rule Stmt) :
    Rule Stmt := do
  let t ← peek
  match t.kind with
  | .keyword .kClass => advance; classDeclaration n declaration
  | .keyword .kFun => advance; .function <$> function n declaration .function
  | .keyword .kVar => advance; varDeclaration n
  | _ => statementWith n declaration statement

mutual

def statement : Nat → Rule Stmt
  | 0, s => missing .expression s
  | n + 1, s => statementWith (n + 1) (declaration n) (statement n) s

def declaration : Nat → Rule (Option Stmt)
  | 0, s => recovering (missing .expression) s
  | n + 1, s => recovering (declarationWith (n + 1) (declaration n) (statement n)) s

end

end Lox.Parse
