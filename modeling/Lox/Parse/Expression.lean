import Lox.Parse.State

namespace Lox.Parse

open Rule

def maxArity : Nat := 255

/-- What may follow the first operand of a left-associative operator. Here and in the rules below
`n` bounds the number of tokens ahead, so that with `0` the input has ended. -/
def operands (isOp : Kind → Bool) (node : Expr → Token → Expr → Expr) (operand : Rule Expr) :
    Nat → Expr → Rule Expr
  | 0, left => pure left
  | n + 1, left => do
    match ← acceptIf isOp with
    | none => pure left
    | some op =>
      let right ← operand
      operands isOp node operand n (node left op right)

def leftAssoc (n : Nat) (isOp : Kind → Bool) (node : Expr → Token → Expr → Expr)
    (operand : Rule Expr) : Rule Expr := do
  operands isOp node operand n (← operand)

def isOr : Kind → Bool
  | .keyword .kOr => true
  | _ => false

def isAnd : Kind → Bool
  | .keyword .kAnd => true
  | _ => false

def isEquality : Kind → Bool
  | .mark .bangEqual | .mark .equalEqual => true
  | _ => false

def isComparison : Kind → Bool
  | .mark .greater | .mark .greaterEqual | .mark .less | .mark .lessEqual => true
  | _ => false

def isTerm : Kind → Bool
  | .mark .minus | .mark .plus => true
  | _ => false

def isFactor : Kind → Bool
  | .mark .slash | .mark .star => true
  | _ => false

def isUnary : Kind → Bool
  | .mark .bang | .mark .minus => true
  | _ => false

def primary (expr : Rule Expr) : Rule Expr := do
  let t ← peek
  match t.kind with
  | .keyword .kFalse => advance; pure (.literal (.bool false) t.line)
  | .keyword .kTrue => advance; pure (.literal (.bool true) t.line)
  | .keyword .kNil => advance; pure (.literal .nil t.line)
  | .number x => advance; pure (.literal (.number x) t.line)
  | .string s => advance; pure (.literal (.string s) t.line)
  | .keyword .kSuper =>
    advance
    let _ ← expect (.mark .dot) .superDot
    let method ← expect .identifier .superMethodName
    pure (.super (← occurrence t) method)
  | .keyword .kThis => advance; pure (.this (← occurrence t))
  | .identifier => advance; pure (.var (← occurrence t))
  | .mark .leftParen =>
    advance
    let inner ← expr
    let _ ← expect (.mark .rightParen) .groupEnd
    pure (.grouping inner)
  | _ => missing .expression

def argument (expr : Rule Expr) (count : Nat) : Rule Expr := do
  if maxArity ≤ count then report .tooManyArguments (← peek)
  expr

def arguments (expr : Rule Expr) : Nat → Nat → Rule (List Expr)
  | 0, count => do pure [← argument expr count]
  | n + 1, count => do
    let e ← argument expr count
    match ← accept (.mark .comma) with
    | none => pure [e]
    | some _ => pure (e :: (← arguments expr n (count + 1)))

def finishCall (expr : Rule Expr) (n : Nat) (callee : Expr) : Rule Expr := do
  let args ← if ← check (.mark .rightParen) then pure [] else arguments expr n 0
  let paren ← expect (.mark .rightParen) .argumentsEnd
  pure (.call callee args paren)

def suffixes (expr : Rule Expr) : Nat → Expr → Rule Expr
  | 0, e => pure e
  | n + 1, e => do
    match ← accept (.mark .leftParen) with
    | some _ => suffixes expr n (← finishCall expr n e)
    | none =>
      match ← accept (.mark .dot) with
      | some _ => suffixes expr n (.get e (← expect .identifier .propertyName))
      | none => pure e

def call (n : Nat) (expr : Rule Expr) : Rule Expr := do
  suffixes expr n (← primary expr)

def unary (operand : Rule Expr) : Nat → Rule Expr
  | 0 => operand
  | n + 1 => do
    match ← acceptIf isUnary with
    | some op => pure (.unary op (← unary operand n))
    | none => operand

def factor (n : Nat) (expr : Rule Expr) : Rule Expr :=
  leftAssoc n isFactor .binary (unary (call n expr) n)

def term (n : Nat) (expr : Rule Expr) : Rule Expr :=
  leftAssoc n isTerm .binary (factor n expr)

def comparison (n : Nat) (expr : Rule Expr) : Rule Expr :=
  leftAssoc n isComparison .binary (term n expr)

def equality (n : Nat) (expr : Rule Expr) : Rule Expr :=
  leftAssoc n isEquality .binary (comparison n expr)

def conjunction (n : Nat) (expr : Rule Expr) : Rule Expr :=
  leftAssoc n isAnd .logical (equality n expr)

def disjunction (n : Nat) (expr : Rule Expr) : Rule Expr :=
  leftAssoc n isOr .logical (conjunction n expr)

/-- The assignment of `value` to what `target` denotes. What cannot be assigned to is reported at
the equals sign and stands alone. -/
def assignTo (target : Expr) (equals : Token) (value : Expr) : Rule Expr :=
  match target with
  | .var ref => do pure (.assign (← occurrence ref.name) value)
  | .get object name => pure (.set object name value)
  | other => do
    report .invalidTarget equals
    pure other

def assignment (n : Nat) (expr : Rule Expr) : Rule Expr := do
  let target ← disjunction n expr
  match ← accept (.mark .equal) with
  | none => pure target
  | some equals => assignTo target equals (← expr)

def expression : Nat → Rule Expr
  | 0, s => missing .expression s
  | n + 1, s => assignment (n + 1) (expression n) s

end Lox.Parse
