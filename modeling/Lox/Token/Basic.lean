import Lox.Number.Text

namespace Lox

inductive Mark where
  | leftParen | rightParen | leftBrace | rightBrace
  | comma | dot | minus | plus | semicolon | slash | star
  | bang | bangEqual | equal | equalEqual
  | greater | greaterEqual | less | lessEqual
  deriving DecidableEq

namespace Mark

def text : Mark → String
  | leftParen => "("
  | rightParen => ")"
  | leftBrace => "\x7b"
  | rightBrace => "\x7d"
  | comma => ","
  | dot => "."
  | minus => "-"
  | plus => "+"
  | semicolon => ";"
  | slash => "/"
  | star => "*"
  | bang => "!"
  | bangEqual => "!="
  | equal => "="
  | equalEqual => "=="
  | greater => ">"
  | greaterEqual => ">="
  | less => "<"
  | lessEqual => "<="

def name : Mark → String
  | leftParen => "LEFT_PAREN"
  | rightParen => "RIGHT_PAREN"
  | leftBrace => "LEFT_BRACE"
  | rightBrace => "RIGHT_BRACE"
  | comma => "COMMA"
  | dot => "DOT"
  | minus => "MINUS"
  | plus => "PLUS"
  | semicolon => "SEMICOLON"
  | slash => "SLASH"
  | star => "STAR"
  | bang => "BANG"
  | bangEqual => "BANG_EQUAL"
  | equal => "EQUAL"
  | equalEqual => "EQUAL_EQUAL"
  | greater => "GREATER"
  | greaterEqual => "GREATER_EQUAL"
  | less => "LESS"
  | lessEqual => "LESS_EQUAL"

def all : List Mark :=
  [leftParen, rightParen, leftBrace, rightBrace, comma, dot, minus, plus, semicolon, slash, star,
    bang, bangEqual, equal, equalEqual, greater, greaterEqual, less, lessEqual]

end Mark

inductive Keyword where
  | kAnd | kClass | kElse | kFalse | kFun | kFor | kIf | kNil
  | kOr | kPrint | kReturn | kSuper | kThis | kTrue | kVar | kWhile
  deriving DecidableEq

namespace Keyword

def text : Keyword → String
  | kAnd => "and"
  | kClass => "class"
  | kElse => "else"
  | kFalse => "false"
  | kFun => "fun"
  | kFor => "for"
  | kIf => "if"
  | kNil => "nil"
  | kOr => "or"
  | kPrint => "print"
  | kReturn => "return"
  | kSuper => "super"
  | kThis => "this"
  | kTrue => "true"
  | kVar => "var"
  | kWhile => "while"

def name : Keyword → String
  | kAnd => "AND"
  | kClass => "CLASS"
  | kElse => "ELSE"
  | kFalse => "FALSE"
  | kFun => "FUN"
  | kFor => "FOR"
  | kIf => "IF"
  | kNil => "NIL"
  | kOr => "OR"
  | kPrint => "PRINT"
  | kReturn => "RETURN"
  | kSuper => "SUPER"
  | kThis => "THIS"
  | kTrue => "TRUE"
  | kVar => "VAR"
  | kWhile => "WHILE"

def all : List Keyword :=
  [kAnd, kClass, kElse, kFalse, kFun, kFor, kIf, kNil, kOr, kPrint, kReturn, kSuper, kThis, kTrue,
    kVar, kWhile]

def ofText? (s : String) : Option Keyword := all.find? (fun k ↦ k.text == s)

end Keyword

/-- What a token is. String and number tokens carry the value that they denote. -/
inductive Kind where
  | mark (m : Mark)
  | keyword (k : Keyword)
  | identifier
  | string (contents : String)
  | number (value : Float)
  | eof

namespace Kind

def name : Kind → String
  | mark m => m.name
  | keyword k => k.name
  | identifier => "IDENTIFIER"
  | string _ => "STRING"
  | number _ => "NUMBER"
  | eof => "EOF"

def same : Kind → Kind → Bool
  | mark a, mark b => a = b
  | keyword a, keyword b => a = b
  | identifier, identifier => true
  | string _, string _ => true
  | number _, number _ => true
  | eof, eof => true
  | _, _ => false

def isEof : Kind → Bool
  | eof => true
  | _ => false

def valueText : Kind → String
  | string s => s
  | number x => Number.inToken x
  | _ => "null"

end Kind

/-- A word of the source, with the line on which it ends. -/
structure Token where
  kind : Kind
  lexeme : String
  line : Nat

namespace Token

def same (a b : Token) : Bool := a.kind.same b.kind && a.lexeme == b.lexeme && a.line == b.line

def text (t : Token) : String := t.kind.name ++ " " ++ t.lexeme ++ " " ++ t.kind.valueText

def named (name : String) (line : Nat) : Token := ⟨.identifier, name, line⟩

end Token

end Lox
