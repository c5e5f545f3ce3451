import Lox.Machine.Host

namespace Lox.Lexical

abbrev Cell := Nat

/-- The cells of the local names in sight, or none at the top level. An environment never changes: a
declaration makes another one, for the text behind it. -/
structure Env where
  locals : Option (Bindings Cell)

namespace Env

def top : Env := ⟨none⟩

def find? (ρ : Env) (x : String) : Option Cell := ρ.locals.bind (·.find? x)

def inside (ρ : Env) : Env := ⟨some (ρ.locals.getD .empty)⟩

def extend (ρ : Env) (x : String) (c : Cell) : Env := ⟨some ((ρ.locals.getD .empty).insert x c)⟩

end Env

/-- A function or a method, with the names in sight at its declaration. -/
structure Closure where
  decl : FunctionDecl
  env : Env
  isInitializer : Bool

inductive Class where
  | mk (id : Nat) (name : String) (superclass : Option Class) (methods : Bindings Closure)

namespace Class

def id : Class → Nat
  | mk id _ _ _ => id

def name : Class → String
  | mk _ name _ _ => name

def findMethod? (name : String) : Class → Option Closure
  | mk _ _ none methods => methods.find? name
  | mk _ _ (some superclass) methods =>
    match methods.find? name with
    | some m => some m
    | none => superclass.findMethod? name

end Class

inductive Callable where
  | clock
  | function (id : Nat) (closure : Closure)
  | cls (c : Class)

namespace Callable

def arity : Callable → Nat
  | clock => 0
  | function _ closure => closure.decl.params.length
  | cls c => ((c.findMethod? "init").map (·.decl.params.length)).getD 0

def same : Callable → Callable → Bool
  | clock, clock => true
  | function a _, function b _ => a == b
  | cls c, cls d => c.id == d.id
  | _, _ => false

def display : Callable → String
  | clock => "<native fn>"
  | function _ closure => "<fn " ++ closure.decl.name.lexeme ++ ">"
  | cls c => c.name

end Callable

inductive Value where
  | nil
  | bool (b : Bool)
  | number (x : Float)
  | string (s : String)
  | callable (c : Callable)
  | object (id : ObjectId)

namespace Value

def ofLiteral : Literal → Value
  | .nil => nil
  | .bool b => bool b
  | .number x => number x
  | .string s => string s

def isTruthy : Value → Bool
  | nil => false
  | bool b => b
  | _ => true

def same : Value → Value → Bool
  | nil, nil => true
  | bool a, bool b => a == b
  | number a, number b => a == b
  | string a, string b => a == b
  | callable a, callable b => a.same b
  | object a, object b => a == b
  | _, _ => false

def unary (op : Kind) (v : Value) : Except FaultCause Value :=
  match op, v with
  | .mark .minus, number x => .ok (number (-x))
  | .mark .minus, _ => .error .operandNotNumber
  | .mark .bang, v => .ok (bool !v.isTruthy)
  | _, _ => .error .invalidUnary

def plus : Value → Value → Except FaultCause Value
  | number a, number b => .ok (number (a + b))
  | string a, string b => .ok (string (a ++ b))
  | string a, number b => .ok (string (a ++ Number.display b))
  | _, _ => .error .operandsNotAddable

def arithmetic (op : Kind) (a b : Float) : Except FaultCause Value :=
  match op with
  | .mark .minus => .ok (number (a - b))
  | .mark .star => .ok (number (a * b))
  | .mark .slash => .ok (number (a / b))
  | .mark .greater => .ok (bool (decide (b < a)))
  | .mark .greaterEqual => .ok (bool (decide (b ≤ a)))
  | .mark .less => .ok (bool (decide (a < b)))
  | .mark .lessEqual => .ok (bool (decide (a ≤ b)))
  | _ => .error .invalidBinary

def binary (op : Kind) (left right : Value) : Except FaultCause Value :=
  match op with
  | .mark .equalEqual => .ok (bool (left.same right))
  | .mark .bangEqual => .ok (bool !left.same right)
  | .mark .plus => plus left right
  | op =>
    match left, right with
    | number a, number b => arithmetic op a b
    | _, _ => .error .operandsNotNumbers

def decides (op : Kind) (left : Value) : Bool :=
  match op with
  | .keyword .kOr => left.isTruthy
  | _ => !left.isTruthy

end Value

structure Object where
  cls : Class
  fields : Bindings Value

/-- Variables by their cells, the one table of global names, and objects by their ids. -/
structure State where
  env : Env
  cells : Array Value
  globals : Bindings Value
  objects : Array Object
  nextIdentity : Nat
  depth : Nat
  clock : Clock
  sink : Sink

namespace State

def new (sink : Sink) (clock : Clock) : State where
  env := .top
  cells := #[]
  globals := Bindings.empty.insert "clock" (.callable .clock)
  objects := #[]
  nextIdentity := 0
  depth := 0
  clock := clock
  sink := sink

/-- The value of a name: that of its cell, or the global one if it is not in sight. -/
def read? (s : State) (x : String) : Option Value :=
  match s.env.find? x with
  | some c => s.cells[c]?
  | none => s.globals.find? x

def assign? (s : State) (x : String) (v : Value) : Option State :=
  match s.env.find? x with
  | some c => some { s with cells := s.cells.setIfInBounds c v }
  | none =>
    if s.globals.contains x then some { s with globals := s.globals.insert x v } else none

def envAfter (s : State) (x : String) : Env := ⟨s.env.locals.map (·.insert x s.cells.size)⟩

/-- Declares a name: at the top level in the table, elsewhere with a new cell. -/
def declare (s : State) (x : String) (v : Value) : State :=
  match s.env.locals with
  | none => { s with globals := s.globals.insert x v }
  | some _ => { s with env := s.envAfter x, cells := s.cells.push v }

def setField (s : State) (id : ObjectId) (name : String) (v : Value) : State :=
  { s with objects := s.objects.modify id fun o ↦ { o with fields := o.fields.insert name v } }

def display (s : State) : Value → String
  | .nil => "nil"
  | .bool b => if b then "true" else "false"
  | .number x => Number.display x
  | .string text => text
  | .callable c => c.display
  | .object id => "<" ++ (s.objects[id]?.map (·.cls.name)).getD "" ++ " instance>"

end State

end Lox.Lexical
