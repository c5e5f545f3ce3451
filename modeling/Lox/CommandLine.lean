import Lox.File
import Lox.Session
import Lox.Text
import Lox.Token.Json
import Lox.Utf8

namespace Lox.CommandLine

inductive Command where
  | tokenize (file : Option String) (json : Bool)
  | parse (file : Option String)
  | run (file : Option String)
  | repl
  deriving DecidableEq

inductive Request where
  | invocation (command : Command) (log : Bool)
  | version
  | help
  | misuse
  deriving DecidableEq

inductive Verb where
  | tokenize
  | parse
  | run
  | repl
  deriving DecidableEq

def Verb.ofText? : String → Option Verb
  | "tokenize" => some .tokenize
  | "parse" => some .parse
  | "run" => some .run
  | "repl" => some .repl
  | _ => none

structure Arguments where
  file : Option String
  json : Bool
  log : Bool
  flagsEnded : Bool

def Verb.command (verb : Verb) (a : Arguments) : Command :=
  match verb with
  | .tokenize => .tokenize a.file a.json
  | .parse => .parse a.file
  | .run => .run a.file
  | .repl => .repl

def isFlag (s : String) : Bool := s.startsWith "-" && s != "-"

/-- A word that is no flag names the file; only one is taken, and the prompt takes none. -/
def readFile (verb : Verb) (a : Arguments) (word : String) : Option Arguments :=
  if verb = .repl || a.file.isSome || word.isEmpty then none else some { a with file := some word }

/-- Reads what stands behind a verb. A flag may be given once. -/
def readArguments (verb : Verb) (log : Bool) : List String → Arguments → Request
  | [], a => .invocation (verb.command a) (log || a.log)
  | word :: rest, a =>
    if !a.flagsEnded && isFlag word then
      if word = "--" then readArguments verb log rest { a with flagsEnded := true }
      else if word = "--help" || word.startsWith "-h" then .help
      else if word = "--log" && !a.log then readArguments verb log rest { a with log := true }
      else if word = "--json" && verb = .tokenize && !a.json then
        readArguments verb log rest { a with json := true }
      else .misuse
    else
      match readFile verb a word with
      | some a => readArguments verb log rest a
      | none => .misuse

def readHelp : List String → Request
  | [] => .help
  | [word] => if (Verb.ofText? word).isSome || word = "help" then .help else .misuse
  | _ => .misuse

def read (log : Bool) : List String → Request
  | [] => .misuse
  | word :: rest =>
    match Verb.ofText? word with
    | some verb => readArguments verb log rest ⟨none, false, false, false⟩
    | none =>
      if word = "--log" && !log then read true rest
      else if word = "--version" || word.startsWith "-V" then .version
      else if word = "--help" || word.startsWith "-h" then .help
      else if word = "help" then readHelp rest
      else .misuse

structure Outcome where
  exit : Nat
  stdout : String
  stderr : String

def versionText : String := "rox 0.1.0\n"

def usageText : String :=
  "Usage: [--log] <COMMAND>\n\nCommands:\n  tokenize [--json] [FILE]\n  parse [FILE]\n" ++
    "  run [FILE]\n  repl\n"

def noFileText : String := "No input filepath was provided. Exiting...\n"

def failure (what cause : String) : Outcome :=
  ⟨1, "", "Error: " ++ what ++ "\n\nCaused by:\n    " ++ cause ++ "\n"⟩

def textOf (name : String) : File → Except Outcome String
  | .closed why => .error (failure ("Failed to open file " ++ Text.quoted name) why.text)
  | .unreadable why => .error (failure ("Failed to read file " ++ Text.quoted name) why.text)
  | .bytes contents =>
    match Utf8.decode contents with
    | .ok text => .ok text
    | .error e => .error (failure ("File " ++ Text.quoted name ++ " is not valid UTF-8") e.message)

def linesOf (items : List String) : String := String.join (items.map (· ++ "\n"))

def reportOf (ds : List Diagnostic) : String := linesOf (ds.map Diagnostic.text)

def tokenize (json : Bool) (source : String) : Outcome :=
  let items := Token.scan source
  let errors := Token.errorsOf items
  { exit := if errors.isEmpty then 0 else 65
    stdout := linesOf ((Token.tokensOf items).map fun t ↦ if json then t.json else t.text)
    stderr := reportOf (errors.map .lex) }

def parse (source : String) : Outcome :=
  match (Session.readProgram source 0).1 with
  | .ok program => ⟨0, linesOf (program.map Stmt.render), ""⟩
  | .error ds => ⟨65, "", reportOf ds⟩

def run (fuel : Nat) (clock : Clock) (source : String) : Option Outcome :=
  (Session.run fuel source (.new .unbounded clock)).map fun (ds, s) ↦
    ⟨Diagnostic.exitCodeOf ds, s.takeOutput.1, reportOf ds⟩

def prompt : String := "> "

def notTextMessage : String := "Error: stream did not contain valid UTF-8\n"

def repl (fuel : Nat) : List (List UInt8) → Session → Option Outcome
  | [], _ => some ⟨0, prompt ++ "\n", ""⟩
  | line :: rest, s =>
    match Utf8.decode line with
    | .error _ => some ⟨1, prompt, notTextMessage⟩
    | .ok source =>
      match s.run fuel source with
      | none => none
      | some (ds, s) =>
        let (output, s) := s.takeOutput
        (repl fuel rest s).map fun o ↦
          ⟨o.exit, prompt ++ output ++ o.stdout, reportOf ds ++ o.stderr⟩

def onFile (files : String → File) (name : Option String) (f : String → Option Outcome) :
    Option Outcome :=
  match name with
  | none => some ⟨0, noFileText, ""⟩
  | some name =>
    match textOf name (files name) with
    | .ok source => f source
    | .error o => some o

def execute (fuel : Nat) (clock : Clock) (files : String → File) (stdin : List UInt8) :
    Command → Option Outcome
  | .tokenize file json => onFile files file fun source ↦ some (tokenize json source)
  | .parse file => onFile files file fun source ↦ some (parse source)
  | .run file => onFile files file (run fuel clock)
  | .repl => repl fuel (Utf8.lines stdin) (.new .unbounded clock)

def outcome (fuel : Nat) (clock : Clock) (files : String → File) (stdin : List UInt8)
    (arguments : List String) : Option (Outcome × Bool) :=
  match read false arguments with
  | .invocation command log => (execute fuel clock files stdin command).map (·, log)
  | .version => some (⟨0, versionText, ""⟩, false)
  | .help => some (⟨0, usageText, ""⟩, false)
  | .misuse => some (⟨2, "", usageText⟩, false)

end Lox.CommandLine
