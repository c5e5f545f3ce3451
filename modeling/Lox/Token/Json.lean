import Lox.Token.Basic

namespace Lox.Token

def escapeChar (c : Char) : List Char :=
  match c with
  | '"' => ['\\', '"']
  | '\\' => ['\\', '\\']
  | '\n' => ['\\', 'n']
  | '\r' => ['\\', 'r']
  | '\t' => ['\\', 't']
  | c =>
    if c.toNat = 8 then ['\\', 'b']
    else if c.toNat = 12 then ['\\', 'f']
    else if c.toNat < 32 then
      ['\\', 'u', '0', '0', Nat.digitChar (c.toNat / 16), Nat.digitChar (c.toNat % 16)]
    else [c]

def quoted (s : String) : String := String.ofList ('"' :: s.toList.flatMap escapeChar ++ ['"'])

def kindJson (k : Kind) : String :=
  match k with
  | .string s => "\x7b\"STRING\":" ++ quoted s ++ "\x7d"
  | .number x => "\x7b\"NUMBER\":" ++ Number.inJson x ++ "\x7d"
  | k => quoted k.name

def json (t : Token) : String :=
  "\x7b\"token_type\":" ++ kindJson t.kind ++ ",\"lexeme\":" ++ quoted t.lexeme ++ ",\"line\":" ++
    toString t.line ++ "\x7d"

end Lox.Token
