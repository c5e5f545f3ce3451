namespace Lox

inductive FaultCause where
  | undefinedVariable (name : String)
  | operandNotNumber
  | operandsNotNumbers
  | operandsNotAddable
  | invalidUnary
  | invalidBinary
  | notCallable
  | wrongArity (expected got : Nat)
  | noProperties
  | noFields
  | undefinedProperty (name : String)
  | superclassNotClass
  | stackOverflow
  | notWritten (reason : String)
  | native (text : String)
  deriving DecidableEq

def FaultCause.message : FaultCause → String
  | undefinedVariable name => "Undefined variable '" ++ name ++ "'."
  | operandNotNumber => "Operand must be a number."
  | operandsNotNumbers => "Operands must be numbers."
  | operandsNotAddable => "Operands must be two numbers or two strings."
  | invalidUnary => "Invalid unary operator."
  | invalidBinary => "Invalid binary operator."
  | notCallable => "Can only call functions and classes."
  | wrongArity expected got =>
    "Expected " ++ toString expected ++ " arguments but got " ++ toString got ++ "."
  | noProperties => "Only instances have properties."
  | noFields => "Only instances have fields."
  | undefinedProperty name => "Undefined property '" ++ name ++ "'."
  | superclassNotClass => "Superclass must be a class."
  | stackOverflow => "Stack overflow."
  | notWritten reason => "Failed to write output: " ++ reason
  | native text => text

structure Fault where
  cause : FaultCause
  line : Nat
  deriving DecidableEq

def Fault.text (f : Fault) : String := f.cause.message ++ "\n[line " ++ toString f.line ++ "]"

end Lox
