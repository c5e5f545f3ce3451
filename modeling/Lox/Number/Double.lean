namespace Lox

/-- The least positive double is one over this power of two. -/
@[irreducible] def Double.leastExponent : Nat := 1074

/-- A finite magnitude. It stands for `significand * 2 ^ scale / 2 ^ 1074`. -/
structure Magnitude where
  significand : Nat
  scale : Nat
  deriving DecidableEq

namespace Magnitude

def units (x : Magnitude) : Nat := x.significand * Nat.pow 2 x.scale

def unitsPerOne : Nat := Nat.pow 2 Double.leastExponent

/-- The bits below the sign. The scale moves on with every `2 ^ 52` of them, so a significand that
is rounded up to `2 ^ 53` carries into the scale by itself. -/
def bits (x : Magnitude) : Nat := x.scale * Nat.pow 2 52 + x.significand

def ofBits (b : Nat) : Magnitude :=
  if b < Nat.pow 2 52 then ⟨b, 0⟩ else ⟨b % Nat.pow 2 52 + Nat.pow 2 52, b / Nat.pow 2 52 - 1⟩

def isIntegral (x : Magnitude) : Bool := x.units % unitsPerOne == 0

def floor (x : Magnitude) : Nat := x.units / unitsPerOne

end Magnitude

inductive Double where
  | nan
  | infinite (negative : Bool)
  | finite (negative : Bool) (magnitude : Magnitude)
  deriving DecidableEq

namespace Double

/-- The bits of infinity. Every larger pattern is a NaN. -/
def infinityBits : Nat := 2047 * Nat.pow 2 52

def ofFloat (x : Float) : Double :=
  let b := x.toBits.toNat
  let negative := decide (Nat.pow 2 63 ≤ b)
  let m := b % Nat.pow 2 63
  if m < infinityBits then .finite negative (.ofBits m)
  else if m = infinityBits then .infinite negative
  else .nan

def ofMagnitudeBits (b : Nat) : Float := Float.ofBits (UInt64.ofNat b)

/-- The integer towards zero, held within the integers of sixty-four bits; zero for a NaN. -/
def toInt64 : Double → Int
  | nan => 0
  | infinite negative => if negative then -Nat.pow 2 63 else Nat.pow 2 63 - 1
  | finite negative m =>
    if negative then max (-m.floor) (-Nat.pow 2 63) else min m.floor (Nat.pow 2 63 - 1)

end Double

end Lox
