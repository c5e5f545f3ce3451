import Lox.Fault
import Lox.Parse.Error
import Lox.Scope.Resolve
import Lox.Token.Scan

namespace Lox

inductive Diagnostic where
  | lex (e : LexError)
  | parse (e : SyntaxError)
  | scope (e : ScopeError)
  | fault (f : Fault)
  | io (reason : String)

namespace Diagnostic

def place (t : Token) : String := if t.kind.isEof then " at end" else " at '" ++ t.lexeme ++ "'"

def report (line : Nat) (place message : String) : String :=
  "[line " ++ toString line ++ "] Error" ++ place ++ ": " ++ message

def text : Diagnostic → String
  | lex e => report e.line "" e.message
  | parse e => report e.token.line (place e.token) e.message
  | scope e => report e.token.line (place e.token) e.message
  | fault f => f.text
  | io reason => reason

def exitCode : Diagnostic → Nat
  | fault _ => 70
  | io _ => 74
  | _ => 65

/-- The exit code of a run with the given diagnostics: the greatest of theirs. -/
def exitCodeOf (ds : List Diagnostic) : Nat := ds.foldl (fun n d ↦ max n d.exitCode) 0

end Diagnostic

end Lox
