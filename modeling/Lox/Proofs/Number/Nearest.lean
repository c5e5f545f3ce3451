import Lox.Number.Decimal
import Mathlib.Algebra.Order.Field.Basic
import Mathlib.Algebra.Order.Field.Rat
import Mathlib.Algebra.Ring.Parity
import Mathlib.Data.Nat.Dist
import Mathlib.Tactic.Ring

namespace Lox

section

variable {b : Nat}

theorem div_le_divNearest (a b : Nat) : a / b ≤ divNearest a b := by
  simp only [divNearest]
  split <;> omega

theorem divNearest_le (a b : Nat) : divNearest a b ≤ a / b + 1 := by
  simp only [divNearest]
  split <;> omega

/-- No multiple of the divisor is nearer, and one that is as near is left for an even one. -/
theorem dist_divNearest (hb : 0 < b) (a k : Nat) :
    Nat.dist (divNearest a b * b) a ≤ Nat.dist (k * b) a ∧
      (k ≠ divNearest a b → Nat.dist (k * b) a = Nat.dist (divNearest a b * b) a → Even (divNearest a b)) := by
  have hdiv := Nat.div_add_mod' a b
  have hmod := Nat.mod_lt a hb
  have hsucc : (a / b + 1) * b = a / b * b + b := Nat.succ_mul ..
  have hle : k ≤ a / b → k * b ≤ a / b * b := Nat.mul_le_mul_right b
  have hlt : k + 1 ≤ a / b → k * b + b ≤ a / b * b := by
    rw [← Nat.succ_mul]
    exact Nat.mul_le_mul_right b
  have hge : a / b + 1 ≤ k → a / b * b + b ≤ k * b := by
    rw [← hsucc]
    exact Nat.mul_le_mul_right b
  have hgt : a / b + 2 ≤ k → a / b * b + b + b ≤ k * b := by
    rw [← hsucc, ← Nat.succ_mul]
    exact Nat.mul_le_mul_right b
  simp only [divNearest, Nat.dist, Nat.even_iff]
  split <;> omega

end

namespace Magnitude

/-- The magnitude is that of a finite double, with its significand as large as it can be. -/
structure Fits (x : Magnitude) : Prop where
  significand : x.significand < Nat.pow 2 53
  normal : x.scale = 0 ∨ Nat.pow 2 52 ≤ x.significand
  bits : x.bits < Double.infinityBits

variable {a den b b' s : Nat} {x : Magnitude}

theorem two_pow_52 : Nat.pow 2 52 = 4503599627370496 := rfl

theorem two_pow_53 : Nat.pow 2 53 = 9007199254740992 := rfl

theorem bits_ofBits (b : Nat) : (ofBits b).bits = b := by
  simp only [ofBits, bits, two_pow_52]
  split
  · simp
  · dsimp only
    omega

theorem significand_ofBits_lt (b : Nat) : (ofBits b).significand < Nat.pow 2 53 := by
  simp only [ofBits, two_pow_52, two_pow_53]
  split
  · dsimp only
    omega
  · dsimp only
    omega

theorem normal_ofBits (b : Nat) : (ofBits b).scale = 0 ∨ Nat.pow 2 52 ≤ (ofBits b).significand := by
  simp only [ofBits]
  split
  · exact .inl rfl
  · exact .inr (Nat.le_add_left ..)

theorem fits_ofBits (h : b < Double.infinityBits) : (ofBits b).Fits :=
  ⟨significand_ofBits_lt b, normal_ofBits b, (bits_ofBits b).symm ▸ h⟩

theorem ofBits_of_lt (h : b < Nat.pow 2 52) : ofBits b = ⟨b, 0⟩ := if_pos h

theorem ofBits_of_le (h : Nat.pow 2 52 ≤ b) :
    ofBits b = ⟨b % Nat.pow 2 52 + Nat.pow 2 52, b / Nat.pow 2 52 - 1⟩ := if_neg (Nat.not_lt.2 h)

theorem ofBits_bits (hsignificand : x.significand < Nat.pow 2 53)
    (hnormal : x.scale = 0 ∨ Nat.pow 2 52 ≤ x.significand) : ofBits x.bits = x := by
  obtain ⟨m, s⟩ := x
  dsimp only at hsignificand hnormal
  by_cases hsmall : m < Nat.pow 2 52
  · obtain rfl : s = 0 := hnormal.resolve_right (Nat.not_le.2 hsmall)
    have hbits : bits ⟨m, 0⟩ = m := by simp [bits]
    rw [hbits, ofBits_of_lt hsmall]
  · have hle : Nat.pow 2 52 ≤ bits ⟨m, s⟩ := Nat.le_trans (Nat.not_lt.1 hsmall) (Nat.le_add_left ..)
    rw [ofBits_of_le hle, mk.injEq]
    simp only [bits, two_pow_52, two_pow_53] at *
    omega

/-- A significand that is rounded up to `2 ^ 53` carries into the scale. -/
theorem units_ofBits_bits (hsignificand : x.significand ≤ Nat.pow 2 53)
    (hnormal : x.scale = 0 ∨ Nat.pow 2 52 ≤ x.significand) : (ofBits x.bits).units = x.units := by
  obtain hlt | heq := Nat.lt_or_eq_of_le hsignificand
  · rw [ofBits_bits hlt hnormal]
  · obtain ⟨m, s⟩ := x
    subst heq
    have hcarry : bits ⟨Nat.pow 2 53, s⟩ = bits ⟨Nat.pow 2 52, s + 1⟩ := by
      simp only [bits, two_pow_52, two_pow_53]
      omega
    rw [hcarry, ofBits_bits (show Nat.pow 2 52 < Nat.pow 2 53 by decide) (.inr (Nat.le_refl _))]
    simp only [units, Nat.pow_eq, Nat.pow_succ]
    ring

theorem units_ofBits_lt_succ (b : Nat) : (ofBits b).units < (ofBits (b + 1)).units := by
  have hlt := significand_ofBits_lt b
  have hnormal := normal_ofBits b
  have hbits := bits_ofBits b
  generalize ofBits b = x at *
  have hsucc : b + 1 = bits ⟨x.significand + 1, x.scale⟩ := by rw [← hbits, bits, bits, Nat.add_assoc]
  have hunits : (ofBits (b + 1)).units = units ⟨x.significand + 1, x.scale⟩ := by
    rw [hsucc]
    exact units_ofBits_bits hlt (hnormal.imp_right Nat.le_succ_of_le)
  rw [hunits]
  exact Nat.mul_lt_mul_of_pos_right (Nat.lt_succ_self _) (Nat.pow_pos (by decide))

theorem units_ofBits_strictMono : StrictMono fun b ↦ (ofBits b).units :=
  strictMono_nat_of_lt_succ units_ofBits_lt_succ

theorem units_ofBits_lt (h : b < b') : (ofBits b).units < (ofBits b').units := units_ofBits_strictMono h

theorem pow_dvd_units_ofBits (h : (s + 1) * Nat.pow 2 52 ≤ b) : Nat.pow 2 s ∣ (ofBits b).units := by
  have hscale : s ≤ (ofBits b).scale := by
    simp only [ofBits, two_pow_52] at h ⊢
    rw [if_neg (by omega)]
    dsimp only
    omega
  exact Nat.dvd_mul_left_of_dvd (Nat.pow_dvd_pow 2 hscale) _

/-- What `a / den` units are rounded to when there is no largest double. -/
def rounded (a den : Nat) : Magnitude where
  significand := divNearest a (den * Nat.pow 2 ((a / den).log2 - 52))
  scale := (a / den).log2 - 52

theorem scale_le (a den : Nat) :
    (a / den).log2 - 52 = 0 ∨ Nat.pow 2 52 * Nat.pow 2 ((a / den).log2 - 52) ≤ a / den := by
  by_cases hsmall : (a / den).log2 ≤ 52
  · exact .inl (Nat.sub_eq_zero_of_le hsmall)
  · have hne : a / den ≠ 0 := by
      intro hzero
      rw [hzero] at hsmall
      exact hsmall (by decide)
    refine .inr ?_
    rw [Nat.pow_eq, Nat.pow_eq, ← Nat.pow_add, Nat.add_sub_of_le (by omega)]
    exact Nat.log2_self_le hne

theorem lt_scale (a den : Nat) : a / den < Nat.pow 2 53 * Nat.pow 2 ((a / den).log2 - 52) := by
  rw [Nat.pow_eq, Nat.pow_eq, ← Nat.pow_add]
  exact Nat.lt_of_lt_of_le Nat.lt_log2_self (Nat.pow_le_pow_right (by decide) (by omega))

theorem rounded_le (a den : Nat) : (rounded a den).significand ≤ Nat.pow 2 53 := by
  have hlt : a / (den * Nat.pow 2 ((a / den).log2 - 52)) < Nat.pow 2 53 := by
    rw [← Nat.div_div_eq_div_mul]
    exact Nat.div_lt_of_lt_mul (Nat.mul_comm .. ▸ lt_scale a den)
  exact Nat.le_trans (divNearest_le ..) hlt

theorem rounded_normal (a den : Nat) :
    (rounded a den).scale = 0 ∨ Nat.pow 2 52 ≤ (rounded a den).significand := by
  refine (scale_le a den).imp_right fun hle ↦ Nat.le_trans ?_ (div_le_divNearest ..)
  rw [← Nat.div_div_eq_div_mul]
  exact (Nat.le_div_iff_mul_le (Nat.pow_pos (by decide))).2 hle

theorem units_ofBits_rounded (a den : Nat) : (ofBits (rounded a den).bits).units = (rounded a den).units :=
  units_ofBits_bits (rounded_le a den) (rounded_normal a den)

/-- How far bits are from `a / den` units, times `den`. -/
def distance (a den b : Nat) : Nat := Nat.dist ((ofBits b).units * den) a

theorem dist_rounded (hden : 0 < den) (a k : Nat) :
    Nat.dist ((rounded a den).units * den) a ≤ Nat.dist (k * Nat.pow 2 (rounded a den).scale * den) a ∧
      (k ≠ (rounded a den).significand →
        Nat.dist (k * Nat.pow 2 (rounded a den).scale * den) a = Nat.dist ((rounded a den).units * den) a →
        Even (rounded a den).significand) := by
  have hpos : 0 < den * Nat.pow 2 (rounded a den).scale := Nat.mul_pos hden (Nat.pow_pos (by decide))
  have hswap (n : Nat) :
      n * Nat.pow 2 (rounded a den).scale * den = n * (den * Nat.pow 2 (rounded a den).scale) := by
    rw [Nat.mul_assoc, Nat.mul_comm den]
  rw [units, hswap, hswap]
  exact dist_divNearest hpos a k

theorem distance_rounded_lt (hden : 0 < den) (hscale : (rounded a den).scale ≠ 0)
    (h : b < bits ⟨Nat.pow 2 52, (rounded a den).scale⟩) :
    distance a den (rounded a den).bits < distance a den b := by
  have hleast : (ofBits (bits ⟨Nat.pow 2 52, (rounded a den).scale⟩)).units =
      Nat.pow 2 52 * Nat.pow 2 (rounded a den).scale :=
    units_ofBits_bits (show Nat.pow 2 52 ≤ Nat.pow 2 53 by decide) (.inr (Nat.le_refl _))
  have hbelow := Nat.mul_lt_mul_of_pos_right (Nat.lt_of_lt_of_eq (units_ofBits_lt h) hleast) hden
  have habove : Nat.pow 2 52 * Nat.pow 2 (rounded a den).scale * den ≤ a :=
    (Nat.le_div_iff_mul_le hden).1 ((scale_le a den).resolve_left hscale)
  rw [distance, distance, units_ofBits_rounded]
  refine Nat.lt_of_le_of_lt (dist_rounded hden a (Nat.pow 2 52)).1 ?_
  simp only [Nat.dist]
  omega

theorem distance_rounded (hden : 0 < den) (a b : Nat) :
    distance a den (rounded a den).bits ≤ distance a den b ∧
      (b ≠ (rounded a den).bits → distance a den b = distance a den (rounded a den).bits →
        Even (rounded a den).bits) := by
  by_cases hsmall : (rounded a den).scale ≠ 0 ∧ b < bits ⟨Nat.pow 2 52, (rounded a den).scale⟩
  · have hlt := distance_rounded_lt hden hsmall.1 hsmall.2
    exact ⟨Nat.le_of_lt hlt, fun _ heq ↦ absurd heq (Nat.ne_of_gt hlt)⟩
  · obtain ⟨k, hk⟩ : Nat.pow 2 (rounded a den).scale ∣ (ofBits b).units := by
      by_cases hzero : (rounded a den).scale = 0
      · rw [hzero]
        exact Nat.one_dvd _
      · refine pow_dvd_units_ofBits ?_
        rw [Nat.succ_mul]
        exact Nat.not_lt.1 fun h ↦ hsmall ⟨hzero, h⟩
    obtain ⟨hle, heven⟩ := dist_rounded hden a k
    rw [Nat.mul_comm k, ← hk] at hle heven
    rw [distance, distance, units_ofBits_rounded]
    refine ⟨hle, fun hne heq ↦ ?_⟩
    have hsignificand : Even (rounded a den).significand := by
      refine heven (fun hsame ↦ hne (units_ofBits_strictMono.injective ?_)) heq
      rw [units_ofBits_rounded, hk, hsame, units, Nat.mul_comm]
    exact ((by decide : Even (Nat.pow 2 52)).mul_left _).add hsignificand

end Magnitude

namespace Double

open Magnitude

/-- The value of the nonnegative double with the given bits. Infinity stands for the power of two above the largest
finite double. -/
def value (b : Nat) : ℚ := (ofBits b).units / unitsPerOne

/-- The bits of the double nearest to a number; of two that are equally near, the even ones. -/
structure IsNearest (q : ℚ) (b : Nat) : Prop where
  le : b ≤ infinityBits
  nearest : ∀ b' ≤ infinityBits, |value b - q| ≤ |value b' - q|
  even : ∀ b' ≤ infinityBits, b' ≠ b → |value b' - q| = |value b - q| → Even b

variable {num den num' den' b b' : Nat} {q : ℚ}

theorem unitsPerOne_pos : 0 < unitsPerOne := Nat.pow_pos (by decide)

theorem value_strictMono : StrictMono value := fun _ _ h ↦
  div_lt_div_of_pos_right (Nat.cast_lt.2 (units_ofBits_lt h)) (Nat.cast_pos.2 unitsPerOne_pos)

theorem abs_sub_lt_of_between {u v w : ℚ} (huv : u < v) (hvw : v < w) (h : |u - q| = |w - q|) :
    |v - q| < |u - q| := by
  obtain hle | hle := le_total q v
  · rw [h, abs_of_nonneg (sub_nonneg.2 hle)]
    exact lt_of_lt_of_le (sub_lt_sub_right hvw q) (le_abs_self _)
  · rw [abs_sub_comm, abs_of_nonneg (sub_nonneg.2 hle), abs_sub_comm u]
    exact lt_of_lt_of_le (sub_lt_sub_left huv q) (le_abs_self _)

theorem IsNearest.not_lt (h : IsNearest q b) (h' : IsNearest q b') : ¬b < b' := by
  intro hlt
  have heq : |value b - q| = |value b' - q| := le_antisymm (h.nearest b' h'.le) (h'.nearest b h.le)
  have heven := h.even b' h'.le (Nat.ne_of_gt hlt) heq.symm
  have heven' := h'.even b h.le (Nat.ne_of_lt hlt) heq
  have hbetween : b + 1 < b' := by
    rw [Nat.even_iff] at heven heven'
    omega
  have hnearer := abs_sub_lt_of_between (value_strictMono (Nat.lt_succ_self b)) (value_strictMono hbetween) heq
  exact absurd (h.nearest (b + 1) (Nat.le_trans (Nat.le_of_lt hbetween) h'.le)) (not_le.2 hnearer)

/-- Only one double is nearest. -/
theorem IsNearest.unique (h : IsNearest q b) (h' : IsNearest q b') : b = b' :=
  Nat.le_antisymm (Nat.not_lt.1 (h'.not_lt h)) (Nat.not_lt.1 (h.not_lt h'))

theorem isNearest_value (h : b ≤ infinityBits) : IsNearest (value b) b := by
  have hself : |value b - value b| = 0 := by rw [sub_self, abs_zero]
  refine ⟨h, fun b' _ ↦ hself ▸ abs_nonneg _, fun b' _ hne heq ↦ absurd ?_ hne⟩
  rw [hself, abs_eq_zero, sub_eq_zero] at heq
  exact value_strictMono.injective heq

theorem distance_nearestBits (hden : 0 < den) (num : Nat) (hb : b ≤ infinityBits) :
    distance (num * unitsPerOne) den (nearestBits num den) ≤ distance (num * unitsPerOne) den b ∧
      (b ≠ nearestBits num den →
        distance (num * unitsPerOne) den b = distance (num * unitsPerOne) den (nearestBits num den) →
        Even (nearestBits num den)) := by
  have hmin : nearestBits num den = min (rounded (num * unitsPerOne) den).bits infinityBits := rfl
  rw [hmin]
  generalize num * unitsPerOne = a
  by_cases hfinite : (rounded a den).bits ≤ infinityBits
  · rw [Nat.min_eq_left hfinite]
    exact distance_rounded hden a b
  · have hlt := Nat.not_le.1 hfinite
    have hnear := (distance_rounded hden a infinityBits).1
    have hpast := Nat.mul_lt_mul_of_pos_right (units_ofBits_lt hlt) hden
    have hunder := Nat.mul_le_mul_right den (units_ofBits_strictMono.monotone hb)
    rw [Nat.min_eq_right (Nat.le_of_lt hlt)]
    simp only [distance, Nat.dist] at *
    refine ⟨by omega, fun hne heq ↦ absurd ?_ hne⟩
    have hsame : (ofBits b).units * den = (ofBits infinityBits).units * den := by omega
    exact units_ofBits_strictMono.injective (Nat.eq_of_mul_eq_mul_right hden hsame)

theorem cast_dist (m n : Nat) : (Nat.dist m n : ℚ) = |(m : ℚ) - n| := by
  obtain h | h := Nat.le_total m n
  · rw [Nat.dist_eq_sub_of_le h, Nat.cast_sub h, abs_sub_comm, abs_of_nonneg (sub_nonneg.2 (Nat.cast_le.2 h))]
  · rw [Nat.dist_eq_sub_of_le_right h, Nat.cast_sub h, abs_of_nonneg (sub_nonneg.2 (Nat.cast_le.2 h))]

theorem abs_value_sub (hden : 0 < den) (num b : Nat) :
    |value b - num / den| = distance (num * unitsPerOne) den b / (unitsPerOne * den : Nat) := by
  have hunit : (0 : ℚ) < unitsPerOne := Nat.cast_pos.2 unitsPerOne_pos
  have hden' : (0 : ℚ) < den := Nat.cast_pos.2 hden
  rw [distance, cast_dist, value, div_sub_div _ _ hunit.ne' hden'.ne', abs_div, abs_of_pos (mul_pos hunit hden'),
    mul_comm (unitsPerOne : ℚ) num, Nat.cast_mul, Nat.cast_mul, Nat.cast_mul]

/-- Rounding finds the nearest double. -/
theorem isNearest_nearestBits (hden : 0 < den) (num : Nat) : IsNearest (num / den) (nearestBits num den) := by
  have hpos : (0 : ℚ) < (unitsPerOne * den : Nat) := Nat.cast_pos.2 (Nat.mul_pos unitsPerOne_pos hden)
  refine ⟨Nat.min_le_right .., fun b hb ↦ ?_, fun b hb hne heq ↦ ?_⟩
  · rw [abs_value_sub hden, abs_value_sub hden, div_le_div_iff_of_pos_right hpos, Nat.cast_le]
    exact (distance_nearestBits hden num hb).1
  · rw [abs_value_sub hden, abs_value_sub hden, div_left_inj' hpos.ne', Nat.cast_inj] at heq
    exact (distance_nearestBits hden num hb).2 hne heq

/-- Equal quotients are rounded to the same double. -/
theorem nearestBits_eq_of_mul_eq (hden : 0 < den) (hden' : 0 < den') (h : num * den' = num' * den) :
    nearestBits num den = nearestBits num' den' := by
  have hquotient : (num : ℚ) / den = num' / den' := by
    rw [div_eq_div_iff (Nat.cast_ne_zero.2 hden.ne') (Nat.cast_ne_zero.2 hden'.ne')]
    exact_mod_cast h
  exact (isNearest_nearestBits hden num).unique (hquotient ▸ isNearest_nearestBits hden' num')

end Double

/-- A quotient whose value a finite double has is rounded to this double. -/
theorem Magnitude.Fits.nearestBits_eq {x : Magnitude} (hx : x.Fits) {num den : Nat} (hden : 0 < den)
    (h : num * unitsPerOne = x.units * den) : nearestBits num den = x.bits := by
  have hquotient : (num : ℚ) / den = Double.value x.bits := by
    rw [Double.value, ofBits_bits hx.significand hx.normal, div_eq_div_iff (Nat.cast_ne_zero.2 hden.ne')
      (Nat.cast_ne_zero.2 Double.unitsPerOne_pos.ne')]
    exact_mod_cast h
  exact (Double.isNearest_nearestBits hden num).unique (hquotient ▸ Double.isNearest_value (Nat.le_of_lt hx.bits))

namespace Decimal

theorem den_pos (d : Decimal) : 0 < d.den := Nat.pow_pos (by decide)

theorem coefficient_ofDigits (whole fraction : List Char) :
    (ofDigits whole fraction).coefficient = Nat.ofDigitChars 10 (whole ++ fraction) 0 :=
  Nat.ofDigitChars_eq_foldl.symm

/-- A numeral is read as the double nearest to its digits over a power of ten. -/
theorem isNearest_ofDigits (whole fraction : List Char) :
    Double.IsNearest (Nat.ofDigitChars 10 (whole ++ fraction) 0 / 10 ^ fraction.length)
      (ofDigits whole fraction).bits := by
  have hexponent : (-(-(fraction.length : Int))).toNat = fraction.length := by omega
  have hnum : (ofDigits whole fraction).num = Nat.ofDigitChars 10 (whole ++ fraction) 0 := by
    have hzero : (-(fraction.length : Int)).toNat = 0 := by omega
    rw [num, coefficient_ofDigits]
    simp only [ofDigits, hzero]
    exact Nat.mul_one _
  have hden : ((ofDigits whole fraction).den : ℚ) = 10 ^ fraction.length := by
    simp only [den, ofDigits, hexponent, Nat.pow_eq]
    exact_mod_cast rfl
  rw [← hnum, ← hden]
  exact Double.isNearest_nearestBits (den_pos _) _

theorem isNearest_ofDigits_nil (whole : List Char) :
    Double.IsNearest (Nat.ofDigitChars 10 whole 0) (ofDigits whole []).bits := by
  simpa using isNearest_ofDigits whole []

end Decimal

end Lox
