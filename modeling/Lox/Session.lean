import Lox.Interpreter
import Lox.Parse.Program
import Lox.Tree.Render

namespace Lox

/-- An interpreter that is used over and over, with the programs kept under names. Ids of
occurrences go on from one parse to the next. -/
structure Session where
  interpreter : Interpreter
  nextId : Nat
  programs : Bindings (List Stmt)

namespace Session

def new (sink : Sink) (clock : Clock) : Session := ⟨.new sink clock, 0, .empty⟩

def fresh (s : Session) : Session :=
  { s with interpreter := .new s.interpreter.sink { s.interpreter.clock with reads := 0 } }

/-- A program as source text gives it; a lexical error leaves the syntax unexamined. -/
def readProgram (source : String) (nextId : Nat) : Except (List Diagnostic) (List Stmt) × Nat :=
  let items := Token.scan source
  match Token.errorsOf items with
  | [] =>
    let r := Parse.parse (Token.tokensOf items) nextId
    match r.outcome with
    | .ok program => (.ok program, r.nextId)
    | .error es => (.error (es.map .parse), r.nextId)
  | es => (.error (es.map .lex), nextId)

/-- A program as source text gives it; the tokens between lexical errors are examined too. -/
def readAll (source : String) (nextId : Nat) : Except (List Diagnostic) (List Stmt) × Nat :=
  let items := Token.scan source
  let lexical := (Token.errorsOf items).map Diagnostic.lex
  let r := Parse.parse (Token.tokensOf items) nextId
  match r.outcome with
  | .ok program => (if lexical.isEmpty then .ok program else .error lexical, r.nextId)
  | .error es => (.error (lexical ++ es.map .parse), r.nextId)

/-- Reads and resolves a source. The program is there to be run only if it is free of static
errors. -/
def prepare (source : String) (s : Session) : Except (List Diagnostic) (List Stmt) × Session :=
  match readAll source s.nextId with
  | (.error ds, nextId) => (.error ds, { s with nextId })
  | (.ok program, nextId) =>
    let (ds, interpreter) := s.interpreter.resolve program
    (if ds.isEmpty then .ok program else .error ds, { s with nextId, interpreter })

def run (fuel : Nat) (source : String) (s : Session) : Option (List Diagnostic × Session) :=
  match s.prepare source with
  | (.error ds, s) => some (ds, s)
  | (.ok program, s) =>
    match s.interpreter.interpret fuel program with
    | some (ds, interpreter) => some (ds, { s with interpreter })
    | none => none

def load (name source : String) (s : Session) : Except (List Diagnostic) (List Stmt) × Session :=
  match readProgram source s.nextId with
  | (.error ds, nextId) => (.error ds, { s with nextId })
  | (.ok program, nextId) =>
    (.ok program, { s with nextId, programs := s.programs.insert name program })

def global (name : Token) (s : Session) : Except Fault Value :=
  match s.interpreter.store.get? s.interpreter.globalEnv name.lexeme with
  | some v => .ok v
  | none => .error (Interpreter.undefined name)

def takeOutput (s : Session) : String × Session :=
  (s.interpreter.sink.output,
    { s with interpreter := { s.interpreter with sink := s.interpreter.sink.clear } })

end Session

end Lox
