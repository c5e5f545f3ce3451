import Lox.Number.Double

namespace Lox

def divNearest (a b : Nat) : Nat :=
  let q := a / b
  let r := a % b
  if 2 * r < b ∨ (2 * r = b ∧ q % 2 = 0) then q else q + 1

/-- The bits of the double nearest to `num / den`, a half to the even significand. The scale is the
least one at which the significand fits into fifty-three bits. -/
def nearestBits (num den : Nat) : Nat :=
  let a := num * Magnitude.unitsPerOne
  let scale := (a / den).log2 - 52
  min (Magnitude.bits ⟨divNearest a (den * Nat.pow 2 scale), scale⟩) Double.infinityBits

/-- The number `coefficient * 10 ^ exponent`. -/
structure Decimal where
  coefficient : Nat
  exponent : Int
  deriving DecidableEq

namespace Decimal

def num (d : Decimal) : Nat := d.coefficient * Nat.pow 10 d.exponent.toNat

def den (d : Decimal) : Nat := Nat.pow 10 (-d.exponent).toNat

def bits (d : Decimal) : Nat := nearestBits d.num d.den

def toFloat (d : Decimal) : Float := Double.ofMagnitudeBits d.bits

def digitValue (c : Char) : Nat := c.toNat - '0'.toNat

def ofDigits (whole fraction : List Char) : Decimal where
  coefficient := (whole ++ fraction).foldl (fun n c ↦ 10 * n + digitValue c) 0
  exponent := -fraction.length

def ofNumeral (text : String) : Decimal :=
  ofDigits (text.toList.takeWhile (· != '.')) ((text.toList.dropWhile (· != '.')).drop 1)

def digits (d : Decimal) : List Char := Nat.toDigits 10 d.coefficient

def order (d : Decimal) : Int := d.digits.length - 1 + d.exponent

def stripZeros (coefficient : Nat) (exponent : Int) : Nat → Decimal
  | 0 => ⟨coefficient, exponent⟩
  | n + 1 =>
    if coefficient % 10 = 0 then stripZeros (coefficient / 10) (exponent + 1) n
    else ⟨coefficient, exponent⟩

def normalize (d : Decimal) : Decimal := stripZeros d.coefficient d.exponent d.digits.length

def plain (d : Decimal) : String :=
  let cs := d.digits
  let point := cs.length + d.exponent
  if 0 ≤ d.exponent then String.ofList (cs ++ List.replicate d.exponent.toNat '0')
  else if 0 < point then
    String.ofList (cs.take point.toNat ++ '.' :: cs.drop point.toNat)
  else String.ofList ('0' :: '.' :: List.replicate (-point).toNat '0' ++ cs)

def scientific (d : Decimal) : String :=
  let mantissa := match d.digits with
    | [] => []
    | [c] => [c]
    | c :: cs => c :: '.' :: cs
  let sign := if d.order < 0 then '-' else '+'
  String.ofList (mantissa ++ 'e' :: sign :: Nat.toDigits 10 d.order.natAbs)

end Decimal

def Number.ofInt (n : Int) : Float :=
  let x := Decimal.toFloat ⟨n.natAbs, 0⟩
  if n < 0 then -x else x

end Lox
