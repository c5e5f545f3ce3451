namespace Lox.Utf8

/-- Where bytes stop being UTF-8. A sequence that is cut off by the end of the input has no length. -/
structure Error where
  index : Nat
  length : Option Nat
  deriving DecidableEq

def Error.message (e : Error) : String :=
  match e.length with
  | some n =>
    "invalid utf-8 sequence of " ++ toString n ++ " bytes from index " ++ toString e.index
  | none => "incomplete utf-8 byte sequence from index " ++ toString e.index

/-- For the first byte of a sequence of several bytes: how many follow, and the bounds on the second
one. -/
def lead? (b : Nat) : Option (Nat × Nat × Nat) :=
  if b < 0xc2 then none
  else if b < 0xe0 then some (1, 0x80, 0xbf)
  else if b = 0xe0 then some (2, 0xa0, 0xbf)
  else if b = 0xed then some (2, 0x80, 0x9f)
  else if b < 0xf0 then some (2, 0x80, 0xbf)
  else if b = 0xf0 then some (3, 0x90, 0xbf)
  else if b < 0xf4 then some (3, 0x80, 0xbf)
  else if b = 0xf4 then some (3, 0x80, 0x8f)
  else none

def leadBits (b : Nat) : Nat :=
  if b < 0xe0 then b - 0xc0 else if b < 0xf0 then b - 0xe0 else b - 0xf0

def follow (good lo hi : Nat) : Nat → Nat → List UInt8 → Except (Option Nat) Nat
  | 0, code, _ => .ok code
  | _ + 1, _, [] => .error none
  | n + 1, code, b :: rest =>
    if lo ≤ b.toNat ∧ b.toNat ≤ hi then
      follow (good + 1) 0x80 0xbf n (code * 64 + (b.toNat - 0x80)) rest
    else .error (some good)

def decodeFrom (index : Nat) : List UInt8 → Except Error (List Char)
  | [] => .ok []
  | b :: rest =>
    if b.toNat < 0x80 then
      (decodeFrom (index + 1) rest).map (Char.ofNat b.toNat :: ·)
    else
      match lead? b.toNat with
      | none => .error ⟨index, some 1⟩
      | some (n, lo, hi) =>
        match follow 1 lo hi n (leadBits b.toNat) rest with
        | .error length => .error ⟨index, length⟩
        | .ok code => (decodeFrom (index + 1 + n) (rest.drop n)).map (Char.ofNat code :: ·)
  termination_by bytes => bytes.length
  decreasing_by
    · simp
    · simp only [List.length_drop, List.length_cons]
      omega

def decode (bytes : List UInt8) : Except Error String := (decodeFrom 0 bytes).map String.ofList

def lines : List UInt8 → List (List UInt8)
  | [] => []
  | b :: rest =>
    if b = 10 then [b] :: lines rest
    else
      match lines rest with
      | [] => [[b]]
      | l :: ls => (b :: l) :: ls

end Lox.Utf8
