import Lox.Machine.Host
import Lox.Scope.Distances
import Lox.Store

namespace Lox

def maxCallDepth : Nat := 1000

/-- All that outlives the run of a program. -/
structure Interpreter where
  store : Store
  globals : ScopeId
  env : Env
  depth : Nat
  distances : Distances
  hosts : Array HostFunction
  clock : Clock
  sink : Sink

namespace Interpreter

def globalEnv (i : Interpreter) : Env := ⟨i.globals, []⟩

def define (i : Interpreter) (name : String) (v : Value) : Interpreter :=
  { i with store := i.store.define i.env.inner name v }

def defineNative (i : Interpreter) (name : String) (arity : Nat) (f : HostFunction) : Interpreter :=
  { i with
    store := i.store.define i.globals name (.callable (.native ⟨i.hosts.size, name, arity⟩))
    hosts := i.hosts.push f }

def new (sink : Sink) (clock : Clock) : Interpreter :=
  let bare : Interpreter :=
    { store := Store.empty.addScope .empty, globals := 0, env := ⟨0, []⟩, depth := 0
      distances := .empty, hosts := #[], clock := clock, sink := sink }
  bare.defineNative "clock" 0 HostFunction.clock

/-- The scope in which an occurrence finds its binding: at the recorded distance, or else among the
globals. -/
def target? (i : Interpreter) (ref : Ref) : Option ScopeId :=
  match i.distances.find? ref.id with
  | some d => i.store.locateAt? i.env d ref.name.lexeme
  | none => i.store.locate? i.globalEnv ref.name.lexeme

def undefined (name : Token) : Fault := ⟨.undefinedVariable name.lexeme, name.line⟩

def lookup (i : Interpreter) (ref : Ref) : Except Fault Value :=
  match (i.target? ref).bind (i.store.read? · ref.name.lexeme) with
  | some v => .ok v
  | none => .error (undefined ref.name)

def host (i : Interpreter) (f : Native) : HostFunction := i.hosts.getD f.id fun _ ↦ .done .nil

end Interpreter

inductive Flow where
  | normal
  | returned (v : Value)

def Flow.value : Flow → Value
  | normal => .nil
  | returned v => v

/-- What the machine does: begin with an expression or a statement, hand on the outcome of one, or
follow a host function that was called on the given line. -/
inductive Control where
  | eval (e : Expr)
  | exec (s : Stmt)
  | value (v : Value)
  | done (flow : Flow)
  | fault (f : Fault)
  | act (line : Nat) (action : Action)

/-- What is left to do with an outcome. -/
inductive Frame where
  | unary (op : Token)
  | binaryLeft (op : Token) (right : Expr)
  | binaryRight (left : Value) (op : Token)
  | logical (op : Token) (right : Expr)
  | assign (ref : Ref)
  | callee (arguments : List Expr) (paren : Token)
  /-- The arguments already known stand in reverse. -/
  | argument (callee : Value) (known : List Value) (rest : List Expr) (paren : Token)
  | get (name : Token)
  | setObject (name : Token) (value : Expr)
  | setValue (object : ObjectId) (name : Token)
  | discard
  | print (line : Nat)
  | define (name : Token)
  | branch (yes : Stmt) (no : Option Stmt)
  | test (test : Expr) (body : Stmt)
  | body (test : Expr) (body : Stmt)
  | ret
  /-- The rest of a block, and the scopes to return to after it. -/
  | block (rest : List Stmt) (saved : Env)
  /-- The rest of a program. -/
  | program (rest : List Stmt)
  /-- The body of this closure is running. -/
  | result (closure : Closure)
  /-- The initializer of this object is running. -/
  | construct (object : ObjectId)
  /-- A counted call is running. -/
  | leave
  /-- A call that a host function made is running. -/
  | host (line : Nat) (next : Except Fault Value → Action)

abbrev Stack := List Frame

structure Machine where
  control : Control
  stack : Stack
  state : Interpreter

end Lox
