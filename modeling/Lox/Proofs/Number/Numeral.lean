import Lox.Proofs.Number.Shortest
import Lox.Proofs.Token.Rescan

namespace Lox

namespace Decimal

variable {d d' : Decimal}

theorem toFloat_eq_of_bits_eq (h : d.bits = d'.bits) : d.toFloat = d'.toFloat := congrArg Double.ofMagnitudeBits h

theorem digits_ne_nil (d : Decimal) : d.digits ≠ [] := Nat.toDigits_ne_nil

theorem isDigit_of_mem_digits {c : Char} (h : c ∈ d.digits) : c.isDigit :=
  Nat.isDigit_of_mem_toDigits (by decide) (by decide) h

theorem ofDigitChars_digits (d : Decimal) : Nat.ofDigitChars 10 d.digits 0 = d.coefficient :=
  Nat.ofDigitChars_ten_toDigits

theorem bits_ofDigits_zeros (h : 0 ≤ d.exponent) :
    (ofDigits (d.digits ++ List.replicate d.exponent.toNat '0') []).bits = d.bits := by
  apply bits_eq_of_mul_eq
  have hnone : (-d.exponent).toNat = 0 := by omega
  have hcoefficient : (ofDigits (d.digits ++ List.replicate d.exponent.toNat '0') []).coefficient = d.num := by
    rw [coefficient_ofDigits, List.append_nil, Nat.ofDigitChars_append, ofDigitChars_digits,
      Nat.ofDigitChars_replicate_zero, Nat.mul_comm]
    rfl
  have hnum : (ofDigits (d.digits ++ List.replicate d.exponent.toNat '0') []).num = d.num := by
    rw [num, hcoefficient]
    exact Nat.mul_one _
  have hden : d.den = (ofDigits (d.digits ++ List.replicate d.exponent.toNat '0') []).den := by
    rw [den, hnone]
    rfl
  rw [hnum, hden]

theorem ofDigits_split {n : Nat} (hn : n ≤ d.digits.length) (h : (n : Int) = d.digits.length + d.exponent) :
    ofDigits (d.digits.take n) (d.digits.drop n) = d := by
  have hcoefficient := coefficient_ofDigits (d.digits.take n) (d.digits.drop n)
  rw [List.take_append_drop, ofDigitChars_digits] at hcoefficient
  have hexponent : (ofDigits (d.digits.take n) (d.digits.drop n)).exponent = d.exponent := by
    simp only [ofDigits, List.length_drop]
    omega
  exact congrArg₂ Decimal.mk hcoefficient hexponent

theorem ofDigits_fraction {n : Nat} (h : d.digits.length + d.exponent = -n) :
    ofDigits ['0'] (List.replicate n '0' ++ d.digits) = d := by
  have hcoefficient := coefficient_ofDigits ['0'] (List.replicate n '0' ++ d.digits)
  rw [List.singleton_append, ← List.cons_append, ← List.replicate_succ, Nat.ofDigitChars_append,
    Nat.ofDigitChars_replicate_zero, Nat.mul_zero, ofDigitChars_digits] at hcoefficient
  have hexponent : (ofDigits ['0'] (List.replicate n '0' ++ d.digits)).exponent = d.exponent := by
    simp only [ofDigits, List.length_append, List.length_replicate]
    omega
  exact congrArg₂ Decimal.mk hcoefficient hexponent

theorem lexeme_whole {whole : List Char} (hne : whole ≠ []) (h : ∀ c ∈ whole, c.isDigit) :
    Lexeme whole (.number (ofDigits whole []).toFloat) := by
  obtain ⟨c, cs, rfl⟩ := List.exists_cons_of_ne_nil hne
  exact .whole h (isNearest_ofDigits_nil _)

theorem lexeme_point {whole fraction : List Char} (hne : whole ≠ []) (hne' : fraction ≠ [])
    (h : ∀ c ∈ whole, c.isDigit) (h' : ∀ c ∈ fraction, c.isDigit) :
    Lexeme (whole ++ '.' :: fraction) (.number (ofDigits whole fraction).toFloat) := by
  obtain ⟨c, cs, rfl⟩ := List.exists_cons_of_ne_nil hne
  obtain ⟨d, ds, rfl⟩ := List.exists_cons_of_ne_nil hne'
  exact .decimal h h' (isNearest_ofDigits _ _)

/-- Positional notation is read as the decimal. -/
theorem lexeme_plain (d : Decimal) : Lexeme d.plain.toList (.number d.toFloat) := by
  have hdigits : ∀ c ∈ d.digits, c.isDigit := fun c hc ↦ isDigit_of_mem_digits hc
  have hzeros (n : Nat) : ∀ c ∈ List.replicate n '0', c.isDigit := fun c hc ↦ by
    rw [List.eq_of_mem_replicate hc]
    rfl
  simp only [plain]
  split
  · next hwhole =>
    rw [String.toList_ofList, ← toFloat_eq_of_bits_eq (bits_ofDigits_zeros hwhole)]
    exact lexeme_whole (List.append_ne_nil_of_left_ne_nil d.digits_ne_nil _)
      (List.forall_mem_append.2 ⟨hdigits, hzeros _⟩)
  split
  · next hwhole hpoint =>
    have hn : (((d.digits.length : Int) + d.exponent).toNat : Int) = d.digits.length + d.exponent := by omega
    generalize ((d.digits.length : Int) + d.exponent).toNat = n at hn ⊢
    have hlexeme : Lexeme (d.digits.take n ++ '.' :: d.digits.drop n)
        (.number (ofDigits (d.digits.take n) (d.digits.drop n)).toFloat) := by
      refine lexeme_point ?_ ?_ (fun c hc ↦ hdigits c (List.mem_of_mem_take hc))
        fun c hc ↦ hdigits c (List.mem_of_mem_drop hc)
      · rw [ne_eq, List.take_eq_nil_iff]
        exact fun hnil ↦ hnil.elim (fun h ↦ by omega) d.digits_ne_nil
      · rw [ne_eq, List.drop_eq_nil_iff]
        omega
    rw [ofDigits_split (by omega) hn] at hlexeme
    rwa [String.toList_ofList]
  · next hwhole hpoint =>
    have hn : (d.digits.length : Int) + d.exponent =
        -((-((d.digits.length : Int) + d.exponent)).toNat : Int) := by omega
    generalize (-((d.digits.length : Int) + d.exponent)).toNat = n at hn ⊢
    have hlexeme := lexeme_point (List.cons_ne_nil '0' [])
      (List.append_ne_nil_of_right_ne_nil (List.replicate n '0') d.digits_ne_nil) (List.forall_mem_singleton.2 rfl)
      (List.forall_mem_append.2 ⟨hzeros n, hdigits⟩)
    rw [ofDigits_fraction hn] at hlexeme
    rwa [String.toList_ofList]

section

variable (n : Nat)

/-- The digits of an integer are read as the double nearest to it. -/
theorem lexeme_toString : Lexeme (toString n).toList (.number (⟨n, 0⟩ : Decimal).toFloat) := by
  have hsplit := ofDigits_split (d := ⟨n, 0⟩) (Nat.le_refl _) (Int.add_zero _).symm
  rw [List.take_length, List.drop_length] at hsplit
  have hlexeme := lexeme_whole (digits_ne_nil ⟨n, 0⟩) fun c hc ↦ isDigit_of_mem_digits hc
  rw [hsplit] at hlexeme
  rwa [Nat.toString_eq_ofList_toDigits, String.toList_ofList]

/-- A point and a zero behind them change nothing. -/
theorem lexeme_toString_append : Lexeme (toString n ++ ".0").toList (.number (⟨n, 0⟩ : Decimal).toFloat) := by
  have hcoefficient := coefficient_ofDigits (Nat.toDigits 10 n) ['0']
  rw [Nat.ofDigitChars_append, Nat.ofDigitChars_ten_toDigits] at hcoefficient
  have htenfold : ofDigits (Nat.toDigits 10 n) ['0'] = ⟨10 * n, -1⟩ := congrArg (Decimal.mk · (-1)) hcoefficient
  have hbits : (ofDigits (Nat.toDigits 10 n) ['0']).bits = (⟨n, 0⟩ : Decimal).bits := by
    rw [htenfold, bits_mul_ten]
    rfl
  have hlexeme := lexeme_point (digits_ne_nil ⟨n, 0⟩) (List.cons_ne_nil '0' [])
    (fun c hc ↦ isDigit_of_mem_digits hc) (List.forall_mem_singleton.2 rfl)
  have hchars : (toString n ++ ".0").toList = Nat.toDigits 10 n ++ '.' :: ['0'] := by
    rw [String.toList_append, Nat.toString_eq_ofList_toDigits, String.toList_ofList]
    rfl
  rw [hchars, ← toFloat_eq_of_bits_eq hbits]
  exact hlexeme

end

end Decimal

end Lox
