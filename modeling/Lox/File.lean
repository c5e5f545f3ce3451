namespace Lox

structure Refusal where
  number : Nat
  words : String
  deriving DecidableEq

namespace Refusal

def noEntry : Refusal := ⟨2, "No such file or directory"⟩

def notDirectory : Refusal := ⟨20, "Not a directory"⟩

def isDirectory : Refusal := ⟨21, "Is a directory"⟩

def nameTooLong : Refusal := ⟨36, "File name too long"⟩

def text (r : Refusal) : String := r.words ++ " (os error " ++ toString r.number ++ ")"

end Refusal

inductive File where
  | closed (why : Refusal)
  | unreadable (why : Refusal)
  | bytes (contents : List UInt8)
  deriving DecidableEq

end Lox
