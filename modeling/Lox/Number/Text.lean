import Lox.Number.Shortest

namespace Lox.Number

def signed (negative : Bool) (text : String) : String := if negative then "-" ++ text else text

def positional (orders : Int → Bool) (d : Decimal) : String :=
  if orders d.order then d.plain else d.scientific

/-- A number as a program prints it: positional from `1e-6` up to `1e21`, and an integer below `1e15`
by way of the integers of sixty-four bits. -/
def display (x : Float) : String :=
  match Double.ofFloat x with
  | .nan => "NaN"
  | .infinite negative => signed negative "Infinity"
  | .finite negative m =>
    if m.significand = 0 then signed negative "0"
    else if !(1e-6 ≤ x.abs && x.abs < 1e21) then signed negative (m.shortest .up).scientific
    else if m.isIntegral && x.abs < 1e15 then toString (Double.finite negative m).toInt64
    else signed negative (m.shortest .up).plain

/-- A number in a program tree: an integer is written with all its digits and `.0`, no number has an
exponent. -/
def literal (x : Float) : String :=
  match Double.ofFloat x with
  | .nan => "NaN"
  | .infinite negative => signed negative "inf"
  | .finite negative m =>
    if m.isIntegral then signed negative (toString m.floor ++ ".0")
    else signed negative (m.shortest .up).plain

/-- A number in the text of a token: an integer below `2 ^ 63` has all its digits and `.0`, and zero
has no sign. -/
def inToken (x : Float) : String :=
  match Double.ofFloat x with
  | .nan => "NaN"
  | .infinite negative => signed negative "inf"
  | .finite negative m =>
    if m.significand = 0 then "0.0"
    else if m.isIntegral && m.floor < Nat.pow 2 63 then signed negative (toString m.floor ++ ".0")
    else signed negative (m.shortest .up).plain

/-- A number in JSON: positional from `1e-5` up to `1e16`, an integer there with `.0`. -/
def inJson (x : Float) : String :=
  match Double.ofFloat x with
  | .nan => "null"
  | .infinite _ => "null"
  | .finite negative m =>
    if m.significand = 0 then signed negative "0.0"
    else
      let d := m.shortest .toEven
      let text := positional (fun e ↦ -5 ≤ e && e < 16) d
      signed negative (if 0 ≤ d.exponent && d.order < 16 then text ++ ".0" else text)

end Lox.Number
