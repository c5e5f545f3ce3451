import Lox.Parse.Error
import Lox.Tree.Basic

namespace Lox.Parse

/-- Where a parse stands. `rest` never holds an end-of-file token; `eof` is the one that ends the
input. -/
structure State where
  rest : List Token
  eof : Token
  errors : Array SyntaxError
  nextId : Nat

inductive Reply (α : Type) where
  | ok (value : α) (s : State)
  | fail (e : SyntaxError) (s : State)

/-- A rule of the grammar. A rule that fails has used up the tokens before the failure. -/
def Rule (α : Type) := State → Reply α

namespace Rule

instance : Monad Rule where
  pure a := fun s ↦ .ok a s
  bind p f := fun s ↦ match p s with
    | .ok a s => f a s
    | .fail e s => .fail e s

def peek : Rule Token := fun s ↦ .ok (s.rest.headD s.eof) s

def advance : Rule Unit := fun s ↦ .ok () { s with rest := s.rest.tail }

def acceptIf (test : Kind → Bool) : Rule (Option Token) := fun s ↦
  match s.rest with
  | [] => .ok none s
  | t :: rest => if test t.kind then .ok (some t) { s with rest } else .ok none s

def accept (kind : Kind) : Rule (Option Token) := acceptIf kind.same

def check (kind : Kind) : Rule Bool := fun s ↦
  match s.rest with
  | [] => .ok false s
  | t :: _ => .ok (kind.same t.kind) s

def missing {α : Type} (what : Expectation) : Rule α := fun s ↦
  .fail ⟨.missing what, s.rest.headD s.eof⟩ s

def expect (kind : Kind) (what : Expectation) : Rule Token := do
  match ← accept kind with
  | some t => pure t
  | none => missing what

def report (cause : SyntaxCause) (token : Token) : Rule Unit := fun s ↦
  .ok () { s with errors := s.errors.push ⟨cause, token⟩ }

def occurrence (name : Token) : Rule Ref := fun s ↦
  .ok ⟨s.nextId, name⟩ { s with nextId := s.nextId + 1 }

end Rule

def startsStatement : Kind → Bool
  | .keyword .kClass | .keyword .kFun | .keyword .kVar | .keyword .kFor | .keyword .kIf
  | .keyword .kWhile | .keyword .kPrint | .keyword .kReturn => true
  | _ => false

/-- The tokens from the next statement on, once `last` is skipped: behind a semicolon, or at a
keyword that starts a statement. -/
def resume (last : Token) : List Token → List Token
  | [] => []
  | t :: rest =>
    if Kind.same (.mark .semicolon) last.kind || startsStatement t.kind then t :: rest
    else resume t rest

def synchronize : List Token → List Token
  | [] => []
  | t :: rest => resume t rest

def Rule.recovering {α : Type} (rule : Rule α) : Rule (Option α) := fun s ↦
  match rule s with
  | .ok a s => .ok (some a) s
  | .fail e s => .ok none { s with rest := synchronize s.rest, errors := s.errors.push e }

end Lox.Parse
