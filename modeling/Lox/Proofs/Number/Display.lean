import Lox.Proofs.Number.Double
import Lox.Proofs.Number.Numeral

namespace Lox

namespace Magnitude

variable {m : Magnitude}

theorem floor_mul_unitsPerOne (h : m.isIntegral) : m.floor * unitsPerOne = m.units :=
  Nat.div_mul_cancel (Nat.dvd_of_mod_eq_zero (beq_iff_eq.1 h))

theorem Fits.bits_floor (hm : m.Fits) (h : m.isIntegral) : (⟨m.floor, 0⟩ : Decimal).bits = m.bits := by
  refine hm.nearestBits_eq (Decimal.den_pos _) ?_
  have hnum : (⟨m.floor, 0⟩ : Decimal).num = m.floor := Nat.mul_one _
  have hden : (⟨m.floor, 0⟩ : Decimal).den = 1 := rfl
  rw [hnum, hden, Nat.mul_one, floor_mul_unitsPerOne h]

theorem floor_pos (hpos : 0 < m.significand) (h : m.isIntegral) : 0 < m.floor := by
  have hunits : 0 < m.units := Nat.mul_pos hpos (Nat.pow_pos (by decide))
  rw [← floor_mul_unitsPerOne h] at hunits
  exact Nat.pos_of_mul_pos_right hunits

theorem Fits.floor_lt (hm : m.Fits) (h : m.scale + 3 ≤ Double.leastExponent) : m.floor < Nat.pow 2 50 := by
  have hscale : Nat.pow 2 m.scale * 8 ≤ unitsPerOne := by
    have hpow : Nat.pow 2 (m.scale + 3) ≤ Nat.pow 2 Double.leastExponent := Nat.pow_le_pow_right (by decide) h
    rwa [Nat.pow_eq, Nat.pow_add] at hpow
  refine Nat.div_lt_of_lt_mul ?_
  have hpow : Nat.pow 2 53 = 8 * Nat.pow 2 50 := rfl
  calc m.units < Nat.pow 2 53 * Nat.pow 2 m.scale :=
        Nat.mul_lt_mul_of_pos_right hm.significand (Nat.pow_pos (by decide))
    _ = Nat.pow 2 m.scale * 8 * Nat.pow 2 50 := by rw [hpow]; ring
    _ ≤ unitsPerOne * Nat.pow 2 50 := Nat.mul_le_mul_right _ hscale

end Magnitude

namespace Double

variable {x : Float} {m : Magnitude}

theorem toInt64_of_lt (h : m.floor < Nat.pow 2 50) :
    (finite false m).toInt64 = m.floor ∧ (finite true m).toInt64 = -(m.floor : Int) := by
  have hpow : Nat.pow 2 50 = 1125899906842624 := rfl
  simp only [toInt64, Bool.false_eq_true, if_false, if_true, two_pow_63]
  omega

theorem toString_natCast (n : Nat) : toString (n : Int) = toString n := rfl

theorem toString_neg {n : Nat} (h : 0 < n) : toString (-(n : Int)) = "-" ++ toString n := by
  obtain ⟨k, rfl⟩ := Nat.exists_eq_succ_of_ne_zero (Nat.ne_of_gt h)
  rfl

end Double

namespace Number

open Double

variable {x : Float} {m : Magnitude}

theorem lexeme_shortest (h : ofFloat x = .finite false m) (tie : Tie) :
    Lexeme (m.shortest tie).plain.toList (.number x) := by
  have hvalue : (m.shortest tie).toFloat = x := by
    rw [Decimal.toFloat, (fits_of_finite h).bits_shortest, ofMagnitudeBits_bits h]
  have hlexeme := (m.shortest tie).lexeme_plain
  rwa [hvalue] at hlexeme

theorem toFloat_floor (h : ofFloat x = .finite false m) (hm : m.isIntegral) : (⟨m.floor, 0⟩ : Decimal).toFloat = x := by
  rw [Decimal.toFloat, (fits_of_finite h).bits_floor hm, ofMagnitudeBits_bits h]

/-- A number that a literal stands for is not negative, and is written in a tree as a literal for it. -/
theorem lexeme_literal {text : List Char} (h : Lexeme text (.number x)) (hx : x.isFinite) :
    Lexeme (literal x).toList (.number x) := by
  obtain ⟨negative, m, hm⟩ := exists_finite_of_isFinite hx
  have hbits : ∃ b ≤ infinityBits, x = ofMagnitudeBits b := by
    cases h with
    | whole _ hb => exact ⟨_, hb.le, rfl⟩
    | decimal _ _ hb => exact ⟨_, hb.le, rfl⟩
  have hnegative : negative = false := by
    obtain ⟨b, hb, rfl⟩ := hbits
    rw [← (eq_ofBits_of_finite hm).1]
    exact isNegative_ofMagnitudeBits hb
  subst hnegative
  simp only [literal, hm, signed, Bool.false_eq_true, if_false]
  by_cases hintegral : m.isIntegral = true
  · rw [if_pos hintegral]
    have hlexeme := Decimal.lexeme_toString_append m.floor
    rwa [toFloat_floor hm hintegral] at hlexeme
  · rw [if_neg hintegral]
    exact lexeme_shortest hm .up

theorem ofFloat_lower : ofFloat 1e-6 = .finite false ⟨4722366482869645, 1002⟩ := by decide +kernel

theorem ofFloat_upper : ofFloat 1e21 = .finite false ⟨7629394531250000, 1091⟩ := by decide +kernel

theorem ofFloat_limit : ofFloat 1e15 = .finite false ⟨8000000000000000, 1071⟩ := by decide +kernel

/-- A number in the range of positional notation has one text, with a minus in front if it is negative, by either way of
writing it. -/
theorem exists_display (h : ofFloat x = .finite false m) (hpos : 0 < m.significand) (hlow : 1e-6 ≤ x)
    (hhigh : x < 1e21) :
    ∃ text, Lexeme text.toList (.number x) ∧ display x = text ∧ display (-x) = "-" ++ text := by
  have hzero : ¬m.significand = 0 := Nat.ne_of_gt hpos
  simp only [display, h, ofFloat_neg h, abs_neg h, abs_of_nonneg h, if_neg hzero, hlow, hhigh, decide_true,
    Bool.and_self, Bool.not_true, Bool.false_eq_true, if_false, Bool.not_false]
  by_cases hfast : (m.isIntegral && decide (x < 1e15)) = true
  · rw [if_pos hfast, if_pos hfast]
    rw [Bool.and_eq_true, decide_eq_true_iff] at hfast
    obtain ⟨hintegral, hlimit⟩ := hfast
    have hscale : m.scale ≤ 1071 := scale_le_of_lt h ofFloat_limit hpos (by decide) hlimit
    have hroom : m.scale + 3 ≤ leastExponent := by
      rw [leastExponent_eq]
      omega
    obtain ⟨hcast, hcast'⟩ := toInt64_of_lt ((fits_of_finite h).floor_lt hroom)
    refine ⟨toString m.floor, ?_, ?_, ?_⟩
    · have hlexeme := Decimal.lexeme_toString m.floor
      rwa [toFloat_floor h hintegral] at hlexeme
    · rw [hcast, toString_natCast]
    · rw [hcast', toString_neg (Magnitude.floor_pos hpos hintegral)]
  · rw [if_neg hfast, if_neg hfast]
    exact ⟨(m.shortest .up).plain, lexeme_shortest h .up, rfl, rfl⟩

theorem ofFloat_zero : ofFloat 0 = .finite false ⟨0, 0⟩ := by decide +kernel

theorem exists_display_zero :
    ∃ text, Lexeme text.toList (.number 0) ∧ display 0 = text ∧ display (-0) = "-" ++ text := by
  have hfloor : Magnitude.floor ⟨0, 0⟩ = 0 := by simp [Magnitude.floor, Magnitude.units]
  have hvalue := toFloat_floor ofFloat_zero rfl
  have hlexeme := Decimal.lexeme_toString 0
  rw [hfloor] at hvalue
  rw [hvalue] at hlexeme
  exact ⟨"0", hlexeme, by simp [display, ofFloat_zero, signed], by simp [display, ofFloat_neg ofFloat_zero, signed]⟩

end Number

namespace Lexeme

variable {text : List Char} {kind : Kind} {x : Float}

theorem all_eq (h : Lexeme text kind) : Span.all text = [⟨.token kind, text, []⟩] := by
  have hcut : Span.WellCut ⟨.token kind, text, []⟩ := h.wellCut (by simp)
  have hall := Span.all_of_wellCut hcut
  rwa [List.append_nil, Span.all] at hall

theorem count_newline_of_number (h : Lexeme text (.number x)) : text.count '\n' = 0 := by
  rw [List.count_eq_zero]
  intro hmem
  cases h with
  | whole hd => exact absurd (hd _ hmem) (by decide)
  | decimal hd hd' =>
    rcases List.mem_append.1 hmem with hmem | hmem
    · exact absurd (hd _ hmem) (by decide)
    rcases List.mem_cons.1 hmem with heq | hmem
    · exact absurd heq (by decide)
    · exact absurd (hd' _ hmem) (by decide)

end Lexeme

namespace Token

theorem scan_of_lexeme {text : String} {x : Float} (h : Lexeme text.toList (.number x)) :
    scan text = [.ok ⟨.number x, text, 1⟩, .ok ⟨.eof, "", 1⟩] ∧
    scan ("-" ++ text) = [.ok ⟨.mark .minus, "-", 1⟩, .ok ⟨.number x, text, 1⟩, .ok ⟨.eof, "", 1⟩] := by
  have hminus : Span.first '-' text.toList = ⟨.token (.mark .minus), ['-'], text.toList⟩ := rfl
  have hchars : ("-" ++ text).toList = '-' :: text.toList := by rw [String.toList_append]; rfl
  constructor
  · simp [scan_eq, h.all_eq, itemsFrom, Span.newlines, h.count_newline_of_number]
  · rw [scan_eq, hchars, Span.all, hminus, h.all_eq]
    simp [itemsFrom, Span.newlines, h.count_newline_of_number]

end Token

namespace Number

/-- The text of zero and of every number from `1e-6` up to `1e21` is scanned to one number token with this value, and
the text of the number with the other sign to a minus and the same token. -/
theorem scan_display (x : Float) (h : x = 0 ∨ 1e-6 ≤ x ∧ x < 1e21) :
    Token.scan (display x) = [.ok ⟨.number x, display x, 1⟩, .ok ⟨.eof, "", 1⟩] ∧
    Token.scan (display (-x)) =
      [.ok ⟨.mark .minus, "-", 1⟩, .ok ⟨.number x, display x, 1⟩, .ok ⟨.eof, "", 1⟩] := by
  have hdisplay : ∃ text, Lexeme text.toList (.number x) ∧ display x = text ∧ display (-x) = "-" ++ text := by
    rcases h with rfl | ⟨hlow, hhigh⟩
    · exact exists_display_zero
    · obtain ⟨m, hm, hpos⟩ := Double.exists_finite_of_le_of_lt ofFloat_lower (by decide) ofFloat_upper hlow hhigh
      exact exists_display hm hpos hlow hhigh
  obtain ⟨text, hlexeme, hx, hneg⟩ := hdisplay
  rw [hx, hneg]
  exact Token.scan_of_lexeme hlexeme

theorem scan_display_lower : (1e-6 ≤ (1e-6 : Float) ∧ (1e-6 : Float) < 1e21) ∧
    Token.scan (display 1e-6) = [.ok ⟨.number 1e-6, display 1e-6, 1⟩, .ok ⟨.eof, "", 1⟩] ∧
    Token.scan (display (-1e-6)) =
      [.ok ⟨.mark .minus, "-", 1⟩, .ok ⟨.number 1e-6, display 1e-6, 1⟩, .ok ⟨.eof, "", 1⟩] := by
  have hrange : 1e-6 ≤ (1e-6 : Float) ∧ (1e-6 : Float) < 1e21 := by decide +kernel
  exact ⟨hrange, scan_display 1e-6 (.inr hrange)⟩

end Number

end Lox
