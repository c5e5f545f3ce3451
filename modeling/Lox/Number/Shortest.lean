import Lox.Number.Decimal

namespace Lox

inductive Tie where
  | up
  | toEven
  deriving DecidableEq

namespace Magnitude

def onGrid (x : Magnitude) (e : Int) : Nat × Nat :=
  (x.units * Nat.pow 10 (-e).toNat, unitsPerOne * Nat.pow 10 e.toNat)

def decimalOrder (x : Magnitude) : Int :=
  let estimate := ((x.units.log2 : Int) - Double.leastExponent) * 30103 / 100000
  let (a, b) := x.onGrid (estimate + 1)
  if b ≤ a then estimate + 1 else estimate

/-- Of the two neighbours of `x` on the grid of step `10 ^ e`, the nearer one that reads back as `x`. -/
def neighbour (tie : Tie) (x : Magnitude) (e : Int) : Option Decimal :=
  let grid := x.onGrid e
  let q := grid.1 / grid.2
  let r := grid.1 % grid.2
  let nearerFirst : List Decimal :=
    if 2 * r < grid.2 ∨ (2 * r = grid.2 ∧ tie = .toEven ∧ q % 2 = 0) then [⟨q, e⟩, ⟨q + 1, e⟩]
    else [⟨q + 1, e⟩, ⟨q, e⟩]
  nearerFirst.find? fun d ↦ d.bits == x.bits

def search (tie : Tie) (x : Magnitude) : Nat → Int → Option Decimal
  | 0, _ => none
  | n + 1, e => (x.neighbour tie e).orElse fun _ ↦ search tie x n (e - 1)

def exactDecimal (x : Magnitude) : Decimal :=
  ⟨x.units * Nat.pow 5 Double.leastExponent, -Double.leastExponent⟩

/-- The fewest digits that read back as `x`, and of those the nearest to it. Seventeen digits are
always enough. -/
def shortest (tie : Tie) (x : Magnitude) : Decimal :=
  ((x.search tie 17 x.decimalOrder).getD x.exactDecimal).normalize

end Magnitude

end Lox
