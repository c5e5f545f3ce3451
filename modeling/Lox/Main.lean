import Lox.CommandLine

namespace Lox.Main

open CommandLine

def emit (m : Machine) : IO Machine := do
  let output := m.state.sink.output
  if output.isEmpty then return m
  let stdout ← IO.getStdout
  stdout.putStr output
  stdout.flush
  return { m with state := { m.state with sink := m.state.sink.clear } }

def setClock (started : Nat) (m : Machine) : IO Machine := do
  match m.control with
  | .act _ (.time _) =>
    let seconds := ((← IO.monoNanosNow) - started).toFloat / 1000000000
    return { m with state := { m.state with clock := ⟨fun _ ↦ seconds, 0⟩ } }
  | _ => return m

/-- Steps the machine to its end and prints as it goes. -/
partial def drive (started : Nat) (m : Machine) : IO Machine := do
  let m ← emit m
  if m.isFinal then return m
  match (← setClock started m).step with
  | some m => drive started m
  | none => throw (IO.userError "the machine stopped before its end")

def report (ds : List Diagnostic) : IO Unit := do (← IO.getStderr).putStr (reportOf ds)

def runSource (started : Nat) (source : String) (s : Session) : IO (Nat × Session) := do
  match s.prepare source with
  | (.error ds, s) =>
    report ds
    return (Diagnostic.exitCodeOf ds, s)
  | (.ok program, s) =>
    match Interpreter.conclude (← drive started (s.interpreter.start program)) with
    | some (ds, interpreter) =>
      report ds
      return (Diagnostic.exitCodeOf ds, { s with interpreter })
    | none => return (1, s)

partial def replLoop (started : Nat) (s : Session) : IO UInt32 := do
  let stdout ← IO.getStdout
  stdout.putStr prompt
  stdout.flush
  let line ← try some <$> (← IO.getStdin).getLine catch _ => pure none
  match line with
  | none =>
    (← IO.getStderr).putStr notTextMessage
    return 1
  | some "" =>
    stdout.putStr "\n"
    return 0
  | some line => replLoop started (← runSource started line s).2

def refusalOf : IO.Error → Refusal
  | .noFileOrDirectory _ number words | .interrupted _ number words
  | .alreadyExists _ number words | .invalidArgument _ number words
  | .permissionDenied _ number words | .resourceExhausted _ number words
  | .inappropriateType _ number words | .noSuchThing _ number words
  | .otherError number words | .resourceBusy number words | .resourceVanished number words
  | .unsupportedOperation number words | .hardwareFault number words
  | .unsatisfiedConstraints number words | .illegalOperation number words
  | .protocolError number words | .timeExpired number words => ⟨number.toNat, words⟩
  | .unexpectedEof => ⟨0, "unexpected end of file"⟩
  | .userError words => ⟨0, words⟩

def readFile (name : String) : IO File := do
  match ← (IO.FS.Handle.mk name .read).toBaseIO with
  | .error e => return .closed (refusalOf e)
  | .ok handle =>
    match ← handle.readBinToEnd.toBaseIO with
    | .error e => return .unreadable (refusalOf e)
    | .ok contents => return .bytes contents.toList

def write (o : Outcome) : IO UInt32 := do
  (← IO.getStdout).putStr o.stdout
  (← IO.getStderr).putStr o.stderr
  return o.exit.toUInt32

def withFile (name : Option String) (f : String → IO UInt32) : IO UInt32 := do
  match name with
  | none => write ⟨0, noFileText, ""⟩
  | some name =>
    match textOf name (← readFile name) with
    | .ok source => f source
    | .error o => write o

def perform (started : Nat) : Command → IO UInt32
  | .tokenize file json => withFile file fun source ↦ write (tokenize json source)
  | .parse file => withFile file fun source ↦ write (parse source)
  | .run file => withFile file fun source ↦ do
    return (← runSource started source (.new .unbounded .ticking)).1.toUInt32
  | .repl => replLoop started (.new .unbounded .ticking)

end Lox.Main

def main (arguments : List String) : IO UInt32 := do
  match Lox.CommandLine.read false arguments with
  | .invocation command log =>
    if log then IO.FS.writeFile "app.log" ""
    Lox.Main.perform (← IO.monoNanosNow) command
  | .version => Lox.Main.write ⟨0, Lox.CommandLine.versionText, ""⟩
  | .help => Lox.Main.write ⟨0, Lox.CommandLine.usageText, ""⟩
  | .misuse => Lox.Main.write ⟨2, "", Lox.CommandLine.usageText⟩
