import Lox.Number.Shortest
import Lox.Proofs.Number.Nearest

namespace Lox

namespace Decimal

variable {d d' : Decimal}

theorem bits_eq_of_mul_eq (h : d.num * d'.den = d'.num * d.den) : d.bits = d'.bits :=
  Double.nearestBits_eq_of_mul_eq d.den_pos d'.den_pos h

theorem bits_mul_ten (c : Nat) (e : Int) : (⟨10 * c, e⟩ : Decimal).bits = (⟨c, e + 1⟩ : Decimal).bits := by
  apply bits_eq_of_mul_eq
  have hexponents : 1 + e.toNat + (-(e + 1)).toNat = (e + 1).toNat + (-e).toNat := by omega
  have hpow : 10 * 10 ^ e.toNat * 10 ^ (-(e + 1)).toNat = 10 ^ (e + 1).toNat * 10 ^ (-e).toNat := by
    rw [← Nat.pow_add, ← hexponents, Nat.pow_add, Nat.pow_add, Nat.pow_one]
  calc 10 * c * 10 ^ e.toNat * 10 ^ (-(e + 1)).toNat
      = c * (10 * 10 ^ e.toNat * 10 ^ (-(e + 1)).toNat) := by ring
    _ = c * (10 ^ (e + 1).toNat * 10 ^ (-e).toNat) := by rw [hpow]
    _ = c * 10 ^ (e + 1).toNat * 10 ^ (-e).toNat := by ring

theorem bits_stripZeros (c : Nat) (e : Int) (n : Nat) : (stripZeros c e n).bits = (⟨c, e⟩ : Decimal).bits := by
  induction n generalizing c e with
  | zero => rfl
  | succ n ih =>
    rw [stripZeros]
    split
    · next h =>
      rw [ih, ← bits_mul_ten]
      congr 2
      omega
    · rfl

theorem bits_normalize (d : Decimal) : d.normalize.bits = d.bits := bits_stripZeros ..

end Decimal

namespace Magnitude

variable {x : Magnitude} {d : Decimal}

theorem bits_of_neighbour {tie : Tie} {e : Int} (h : x.neighbour tie e = some d) : d.bits = x.bits := by
  unfold neighbour at h
  have hreads := List.find?_some h
  exact beq_iff_eq.1 hreads

theorem bits_of_search {tie : Tie} {n : Nat} {e : Int} (h : x.search tie n e = some d) : d.bits = x.bits := by
  induction n generalizing e with
  | zero => simp [search] at h
  | succ n ih =>
    rw [search] at h
    cases hn : x.neighbour tie e with
    | none =>
      rw [hn] at h
      exact ih h
    | some d' =>
      rw [hn] at h
      exact Option.some.inj h ▸ bits_of_neighbour hn

theorem num_mul_pow (units n : Nat) :
    (⟨units * Nat.pow 5 n, -n⟩ : Decimal).num * Nat.pow 2 n = units * (⟨units * Nat.pow 5 n, -n⟩ : Decimal).den := by
  have hten : Nat.pow 5 n * Nat.pow 2 n = Nat.pow 10 n := (Nat.mul_pow 5 2 n).symm
  have hzero : (-(n : Int)).toNat = 0 := by omega
  have hn : (- -(n : Int)).toNat = n := by omega
  simp only [Decimal.num, Decimal.den, hzero, hn]
  rw [← hten]
  simp only [Nat.pow_eq, Nat.pow_zero]
  ring

theorem Fits.bits_exactDecimal (hx : x.Fits) : x.exactDecimal.bits = x.bits :=
  hx.nearestBits_eq x.exactDecimal.den_pos (num_mul_pow x.units Double.leastExponent)

/-- The shortest decimal of a double is nearest to this double. -/
theorem Fits.bits_shortest (hx : x.Fits) (tie : Tie) : (x.shortest tie).bits = x.bits := by
  rw [shortest, Decimal.bits_normalize]
  cases h : x.search tie 17 x.decimalOrder with
  | none => exact hx.bits_exactDecimal
  | some d => exact bits_of_search h

end Magnitude

end Lox
