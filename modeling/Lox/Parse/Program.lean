import Lox.Parse.Statement

namespace Lox.Parse

/-- The end-of-file token that ends a list of tokens: the first one in it, or else a new one on the
line of the last token. -/
def endOf (tokens : List Token) : Token :=
  match tokens.find? (fun t ↦ t.kind.isEof) with
  | some t => t
  | none => ⟨.eof, "", (tokens.getLast?.map Token.line).getD 1⟩

def State.ofTokens (tokens : List Token) (nextId : Nat) : State where
  rest := tokens.takeWhile (fun t ↦ !t.kind.isEof)
  eof := endOf tokens
  errors := #[]
  nextId := nextId

def program (n : Nat) : Rule (List Stmt) := declarations (fun _ ↦ false) (declaration n) n

/-- What comes of a parse: a program or else its faults, and the first id that is still free. -/
structure Result where
  outcome : Except (List SyntaxError) (List Stmt)
  nextId : Nat

def Result.ofReply : Reply (List Stmt) → Result
  | .ok stmts s => ⟨if s.errors.isEmpty then .ok stmts else .error s.errors.toList, s.nextId⟩
  | .fail e s => ⟨.error (s.errors.push e).toList, s.nextId⟩

def parse (tokens : List Token) (nextId : Nat) : Result :=
  let s := State.ofTokens tokens nextId
  .ofReply (program s.rest.length s)

end Lox.Parse
