import Lox.Bindings
import Lox.Tree.Basic

namespace Lox

abbrev ScopeId := Nat

abbrev ObjectId := Nat

structure Env where
  inner : ScopeId
  outer : List ScopeId
  deriving DecidableEq

namespace Env

def chain (env : Env) : List ScopeId := env.inner :: env.outer

def enclose (env : Env) (scope : ScopeId) : Env := ⟨scope, env.chain⟩

end Env

/-- A function or a method, with the scopes around its declaration. -/
structure Closure where
  decl : FunctionDecl
  env : Env
  isInitializer : Bool

namespace Closure

def name (c : Closure) : String := c.decl.name.lexeme

def arity (c : Closure) : Nat := c.decl.params.length

end Closure

inductive Class where
  | mk (id : Nat) (name : String) (superclass : Option Class) (methods : Bindings Closure)

namespace Class

def id : Class → Nat
  | mk id _ _ _ => id

def name : Class → String
  | mk _ name _ _ => name

def superclass : Class → Option Class
  | mk _ _ superclass _ => superclass

def methods : Class → Bindings Closure
  | mk _ _ _ methods => methods

def findMethod? (name : String) : Class → Option Closure
  | mk _ _ none methods => methods.find? name
  | mk _ _ (some superclass) methods =>
    match methods.find? name with
    | some m => some m
    | none => superclass.findMethod? name

def initializer? (c : Class) : Option Closure := c.findMethod? "init"

def arity (c : Class) : Nat := (c.initializer?.map Closure.arity).getD 0

end Class

structure Native where
  id : Nat
  name : String
  arity : Nat

/-- What can be called. The id of a function tells it apart from others with the same closure. -/
inductive Callable where
  | native (f : Native)
  | function (id : Nat) (closure : Closure)
  | cls (c : Class)

namespace Callable

def arity : Callable → Nat
  | native f => f.arity
  | function _ closure => closure.arity
  | cls c => c.arity

def same : Callable → Callable → Bool
  | native f, native g => f.id == g.id
  | function a _, function b _ => a == b
  | cls c, cls d => c.id == d.id
  | _, _ => false

def display : Callable → String
  | native _ => "<native fn>"
  | function _ closure => "<fn " ++ closure.name ++ ">"
  | cls c => c.name

end Callable

inductive Value where
  | nil
  | bool (b : Bool)
  | number (x : Float)
  | string (s : String)
  | callable (c : Callable)
  | object (id : ObjectId)

namespace Value

def ofLiteral : Literal → Value
  | .nil => nil
  | .bool b => bool b
  | .number x => number x
  | .string s => string s

def isTruthy : Value → Bool
  | nil => false
  | bool b => b
  | _ => true

/-- Equality within a type; callables and objects are equal only to themselves. -/
def same : Value → Value → Bool
  | nil, nil => true
  | bool a, bool b => a == b
  | number a, number b => a == b
  | string a, string b => a == b
  | callable a, callable b => a.same b
  | object a, object b => a == b
  | _, _ => false

def typeName : Value → String
  | nil => "nil"
  | bool _ => "bool"
  | number _ => "number"
  | string _ => "string"
  | callable _ => "callable"
  | object _ => "instance"

end Value

end Lox
