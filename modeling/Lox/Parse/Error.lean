import Lox.Token.Basic

namespace Lox

inductive Routine where
  | function
  | method
  deriving DecidableEq

def Routine.text : Routine → String
  | function => "function"
  | method => "method"

inductive Expectation where
  | expression
  | className
  | superclassName
  | classBody
  | classEnd
  | routineName (r : Routine)
  | parametersStart (r : Routine)
  | parameterName
  | parametersEnd
  | routineBody (r : Routine)
  | variableName
  | variableEnd
  | forStart
  | loopConditionEnd
  | forClausesEnd
  | ifStart
  | ifConditionEnd
  | printEnd
  | returnEnd
  | whileStart
  | whileConditionEnd
  | expressionEnd
  | blockEnd
  | propertyName
  | argumentsEnd
  | superDot
  | superMethodName
  | groupEnd
  deriving DecidableEq

def Expectation.message : Expectation → String
  | expression => "Expect expression."
  | className => "Expect class name."
  | superclassName => "Expect superclass name."
  | classBody => "Expect '\x7b' before class body."
  | classEnd => "Expect '\x7d' after class body."
  | routineName r => "Expect " ++ r.text ++ " name."
  | parametersStart r => "Expect '(' after " ++ r.text ++ " name."
  | parameterName => "Expect parameter name."
  | parametersEnd => "Expect ')' after parameters."
  | routineBody r => "Expect '\x7b' before " ++ r.text ++ " body."
  | variableName => "Expect variable name."
  | variableEnd => "Expect ';' after variable declaration."
  | forStart => "Expect '(' after 'for'."
  | loopConditionEnd => "Expect ';' after loop condition."
  | forClausesEnd => "Expect ')' after for clauses."
  | ifStart => "Expect '(' after 'if'."
  | ifConditionEnd => "Expect ')' after if condition."
  | printEnd => "Expect ';' after value."
  | returnEnd => "Expect ';' after return value."
  | whileStart => "Expect '(' after 'while'."
  | whileConditionEnd => "Expect ')' after condition."
  | expressionEnd => "Expect ';' after expression."
  | blockEnd => "Expect '\x7d' after block."
  | propertyName => "Expect property name after '.'."
  | argumentsEnd => "Expect ')' after arguments."
  | superDot => "Expect '.' after 'super'."
  | superMethodName => "Expect superclass method name."
  | groupEnd => "Expect ')' after expression."

inductive SyntaxCause where
  | missing (what : Expectation)
  | tooManyParameters
  | tooManyArguments
  | invalidTarget
  deriving DecidableEq

structure SyntaxError where
  cause : SyntaxCause
  token : Token

def SyntaxError.message (e : SyntaxError) : String :=
  match e.cause with
  | .missing what => what.message
  | .tooManyParameters => "Cannot have more than 255 parameters."
  | .tooManyArguments => "Cannot have more than 255 arguments."
  | .invalidTarget => "Invalid assignment target."

end Lox
