import Lox.Diagnostic
import Lox.Machine.Step

namespace Lox.Interpreter

def valueOf : Machine → Option (Except Fault Value × Interpreter)
  | ⟨.value v, _, i⟩ => some (.ok v, i)
  | ⟨.fault f, _, i⟩ => some (.error f, i)
  | _ => none

def flowOf : Machine → Option (Except Fault Flow × Interpreter)
  | ⟨.done flow, _, i⟩ => some (.ok flow, i)
  | ⟨.fault f, _, i⟩ => some (.error f, i)
  | _ => none

def evaluate (fuel : Nat) (e : Expr) (i : Interpreter) : Option (Except Fault Value × Interpreter) :=
  (Machine.run fuel ⟨.eval e, [], i⟩).bind valueOf

def execute (fuel : Nat) (s : Stmt) (i : Interpreter) : Option (Except Fault Flow × Interpreter) :=
  (Machine.run fuel ⟨.exec s, [], i⟩).bind flowOf

def invoke (fuel : Nat) (c : Callable) (arguments : List Value) (line : Nat) (i : Interpreter) :
    Option (Except Fault Value × Interpreter) :=
  (Machine.run fuel (Machine.invoke i [] c arguments line)).bind valueOf

/-- Enters calls that are not left again, until one is too deep. -/
def enterCalls (line : Nat) : Nat → Interpreter → Except Fault Unit × Interpreter
  | 0, i => (.ok (), i)
  | n + 1, i =>
    if maxCallDepth ≤ i.depth then (.error ⟨.stackOverflow, line⟩, i)
    else enterCalls line n { i with depth := i.depth + 1 }

def leaveCalls (n : Nat) (i : Interpreter) : Interpreter := { i with depth := i.depth - n }

def reset (i : Interpreter) : Interpreter := { i with env := i.globalEnv, depth := 0 }

/-- Flushes the sink; a failure takes the place of what was to be reported. -/
def flush (i : Interpreter) (ds : List Diagnostic) : List Diagnostic × Interpreter :=
  match i.sink.flushError with
  | some reason => ([.io reason], i)
  | none => (ds, i)

def start (program : List Stmt) (i : Interpreter) : Machine :=
  ⟨.done .normal, [.program program], i⟩

def conclude (m : Machine) : Option (List Diagnostic × Interpreter) :=
  match flowOf m with
  | some (.ok _, i) => some (i.flush [])
  | some (.error f, i) => some (i.reset.flush [.fault f])
  | none => none

/-- Runs a program up to its end or its first fault. A top-level `return` has no effect. -/
def interpret (fuel : Nat) (program : List Stmt) (i : Interpreter) :
    Option (List Diagnostic × Interpreter) :=
  (Machine.run fuel (i.start program)).bind conclude

def property (object : ObjectId) (name : Token) (i : Interpreter) :
    Option (Except Fault Value × Interpreter) :=
  valueOf (Machine.property i [] object name)

def resolve (program : List Stmt) (i : Interpreter) : List Diagnostic × Interpreter :=
  let r := Scope.resolve program i.distances
  (r.errors.map .scope, { i with distances := r.distances })

end Lox.Interpreter
