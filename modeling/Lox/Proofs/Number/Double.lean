import Mathlib
import Lox.Proofs.Number.Nearest

namespace Lox

open Float.Model (UnpackedFloat)
open Float.Model.UnpackedFloat

namespace Double

theorem leastExponent_eq : leastExponent = 1074 := by
  unfold leastExponent
  rfl

theorem infinityBits_eq : infinityBits = 9218868437227405312 := rfl

theorem two_pow_63 : Nat.pow 2 63 = 9223372036854775808 := rfl

section Fields

variable (x : Float)

def fraction : Nat := x.toBits.toNat % 4503599627370496

def exponent : Nat := x.toBits.toNat / 4503599627370496 % 2048

def isNegative : Bool := decide (Nat.pow 2 63 ≤ x.toBits.toNat)

variable {x}

theorem ofFloat_of_ones (h : exponent x = 2047) :
    ofFloat x = if fraction x = 0 then infinite (isNegative x) else nan := by
  unfold exponent at h
  have hlarge : ¬x.toBits.toNat % Nat.pow 2 63 < infinityBits := by
    rw [two_pow_63, infinityBits_eq]
    omega
  have hinfinite : x.toBits.toNat % Nat.pow 2 63 = infinityBits ↔ fraction x = 0 := by
    rw [two_pow_63, infinityBits_eq, fraction]
    omega
  simp only [ofFloat, if_neg hlarge, hinfinite, isNegative]

theorem ofFloat_of_zero (h : exponent x = 0) : ofFloat x = finite (isNegative x) ⟨fraction x, 0⟩ := by
  unfold exponent at h
  have hbits : x.toBits.toNat % Nat.pow 2 63 = fraction x := by
    rw [two_pow_63, fraction]
    omega
  have hlt : fraction x < Nat.pow 2 52 := Nat.mod_lt _ (by decide)
  have hsmall : fraction x < infinityBits := Nat.lt_trans hlt (by decide)
  simp only [ofFloat, hbits, if_pos hsmall, Magnitude.ofBits, if_pos hlt, isNegative]

theorem ofFloat_of_normal (h : exponent x ≠ 0) (h' : exponent x ≠ 2047) :
    ofFloat x = finite (isNegative x) ⟨Nat.pow 2 52 + fraction x, exponent x - 1⟩ := by
  have hsmall : x.toBits.toNat % Nat.pow 2 63 < infinityBits := by
    unfold exponent at h'
    rw [two_pow_63, infinityBits_eq]
    omega
  have hbits : Magnitude.ofBits (x.toBits.toNat % Nat.pow 2 63) =
      ⟨Nat.pow 2 52 + fraction x, exponent x - 1⟩ := by
    unfold exponent at h ⊢
    rw [Magnitude.ofBits, Magnitude.two_pow_52, two_pow_63, if_neg (by omega), Nat.add_comm, fraction]
    congr 1
    · omega
    · omega
  simp only [ofFloat, if_pos hsmall, hbits, isNegative]

end Fields

def sign (negative : Bool) : Sign := if negative then .negative else .positive

def unpacked : Double → UnpackedFloat
  | nan => .notANumber
  | infinite negative => .infinity (sign negative)
  | finite negative m =>
    if h : m.significand = 0 then .zero (sign negative)
    else .finite (sign negative) m.significand (m.scale - leastExponent) (Nat.pos_of_ne_zero h)

section

variable (x : Float) {negative : Bool} {m : Magnitude}

theorem toNat_unpackMantissa : (@unpackMantissa .binary64 x.toBits.toBitVec).toNat = fraction x := by
  rw [unpackMantissa_def]
  exact BitVec.extractLsb'_toNat 0 52 _

theorem toNat_unpackExponent : (@unpackExponent .binary64 x.toBits.toBitVec).toNat = exponent x := by
  rw [unpackExponent_def]
  refine (BitVec.extractLsb'_toNat 52 11 _).trans ?_
  rw [Nat.shiftRight_eq_div_pow]
  rfl

theorem ofBitVec_unpackSign :
    Sign.ofBitVec (@unpackSign .binary64 x.toBits.toBitVec) = sign (isNegative x) := by
  have hlt : x.toBits.toNat < 18446744073709551616 := x.toBits.toBitVec.isLt
  have hbit : (@unpackSign .binary64 x.toBits.toBitVec).toNat = x.toBits.toNat / 9223372036854775808 := by
    rw [unpackSign_def]
    refine (BitVec.extractLsb'_toNat 63 1 _).trans ?_
    change x.toBits.toNat >>> 63 % 2 = _
    rw [Nat.shiftRight_eq_div_pow]
    omega
  have hclear : @unpackSign .binary64 x.toBits.toBitVec = 0#1 ↔ isNegative x = false := by
    rw [← BitVec.toNat_inj, hbit, isNegative, two_pow_63, decide_eq_false_iff_not]
    change x.toBits.toNat / 9223372036854775808 = 0 ↔ _
    omega
  unfold Sign.ofBitVec sign
  cases hn : isNegative x with
  | false => rw [if_pos (hclear.2 hn), if_neg Bool.false_ne_true]
  | true => rw [if_neg (by simp [hclear, hn]), if_pos rfl]

variable {x}

theorem unpacked_zero (h : m.significand = 0) : (finite negative m).unpacked = .zero (sign negative) := dif_pos h

theorem unpacked_pos {sig : Nat} {e : Int} (hpos : 0 < sig) (hsig : m.significand = sig)
    (he : m.scale - leastExponent = e) :
    (finite negative m).unpacked = .finite (sign negative) sig e hpos := by
  subst hsig he
  exact dif_neg (Nat.ne_of_gt hpos)

theorem unpack_eq (x : Float) : x.toModel.unpack = (ofFloat x).unpacked := by
  change unpack .binary64 x.toBits.toBitVec = _
  have hexponent := toNat_unpackExponent x
  have hfraction := toNat_unpackMantissa x
  have hzero : @unpackMantissa .binary64 x.toBits.toBitVec = 0#52 ↔ fraction x = 0 := by
    rw [← BitVec.toNat_inj, hfraction]
    rfl
  rw [unpack.eq_1, ofBitVec_unpackSign]
  by_cases hones : @unpackExponent .binary64 x.toBits.toBitVec = -1#11
  · rw [if_pos hones, ofFloat_of_ones (hexponent ▸ congrArg BitVec.toNat hones)]
    by_cases hf : fraction x = 0
    · rw [if_pos (hzero.2 hf), if_pos hf]
      rfl
    · rw [if_neg (fun h ↦ hf (hzero.1 h)), if_neg hf]
      rfl
  rw [if_neg hones]
  have hones : exponent x ≠ 2047 := fun h ↦ hones (BitVec.eq_of_toNat_eq (hexponent.trans h))
  by_cases hnone : @unpackExponent .binary64 x.toBits.toBitVec = 0#11
  · have he : exponent x = 0 := hexponent ▸ congrArg BitVec.toNat hnone
    rw [if_pos hnone, ofFloat_of_zero he]
    by_cases hf : fraction x = 0
    · rw [dif_pos (hzero.2 hf)]
      exact (unpacked_zero hf).symm
    · rw [dif_neg (fun h ↦ hf (hzero.1 h))]
      refine (unpacked_pos _ hfraction.symm ?_).symm
      rw [leastExponent_eq, hexponent, he]
      rfl
  · rw [if_neg hnone]
    have hnone : exponent x ≠ 0 := fun h ↦ hnone (BitVec.eq_of_toNat_eq (hexponent.trans h))
    rw [ofFloat_of_normal hnone hones]
    have hbias : (Float.Model.Format.binary64.exponentBias : Int) = 1023 := rfl
    refine (unpacked_pos _ ?_ ?_).symm
    · have hlt : fraction x < 2 ^ 52 := Nat.mod_lt _ (by decide)
      rw [BitVec.toNat_append, hfraction, ← Nat.shiftLeft_add_eq_or_of_lt hlt]
      rfl
    · rw [leastExponent_eq, hexponent, hbias]
      dsimp only
      omega

end

section Signs

variable {x y : Float} {negative : Bool} {m : Magnitude}

theorem neg_sign (negative : Bool) : -sign negative = sign (!negative) := by cases negative <;> rfl

theorem sign_injective : Function.Injective sign := by
  intro a b h
  cases a <;> cases b <;> simp_all [sign]

theorem exists_packComponents (sig : Nat) (e : Int) (hpos : 0 < sig) : ∃ evec mvec, ∀ s,
    pack .binary64 (.finite s sig e hpos) = packComponents .binary64 s evec mvec := by
  simp only [pack.eq_4]
  split
  · exact ⟨_, _, fun _ ↦ rfl⟩
  split
  · exact ⟨_, _, fun _ ↦ rfl⟩
  · exact ⟨_, _, fun _ ↦ rfl⟩

/-- Changes of sign leave all other bits as they are. -/
theorem exists_fields (h : ofFloat x = finite negative m) : ∃ evec mvec,
    x.toBits.toBitVec = packComponents .binary64 (sign negative) evec mvec ∧
    (-x).toBits.toBitVec = packComponents .binary64 (sign !negative) evec mvec ∧
    x.abs.toBits.toBitVec = packComponents .binary64 .positive evec mvec := by
  have hself : pack .binary64 x.toModel.unpack = x.toBits.toBitVec := pack_unpack_of_valid x.toModel.valid
  have hneg : (-x).toBits.toBitVec = pack .binary64 x.toModel.unpack.neg := rfl
  have habs : x.abs.toBits.toBitVec = pack .binary64 x.toModel.unpack.abs := rfl
  rw [← hself, hneg, habs, unpack_eq, h, ← neg_sign]
  by_cases hm : m.significand = 0
  · rw [unpacked_zero hm]
    exact ⟨0, 0, rfl, rfl, rfl⟩
  · have hpos := Nat.pos_of_ne_zero hm
    rw [unpacked_pos hpos rfl rfl]
    obtain ⟨evec, mvec, hpack⟩ := exists_packComponents m.significand (m.scale - leastExponent) hpos
    exact ⟨evec, mvec, hpack _, hpack _, hpack _⟩

theorem fields_of_packComponents {evec : BitVec 11} {mvec : BitVec 52}
    (h : x.toBits.toBitVec = packComponents .binary64 (sign negative) evec mvec) :
    exponent x = evec.toNat ∧ fraction x = mvec.toNat ∧ isNegative x = negative := by
  refine ⟨?_, ?_, ?_⟩
  · rw [← toNat_unpackExponent, h, unpackExponent_packComponents]
  · rw [← toNat_unpackMantissa, h, unpackMantissa_packComponents]
  · have hsign := ofBitVec_unpackSign x
    rw [h, unpackSign_packComponents, Sign.ofBitVec_toBitVec] at hsign
    exact (sign_injective hsign).symm

theorem ofFloat_of_fields (h : ofFloat x = finite negative m) (he : exponent y = exponent x)
    (hf : fraction y = fraction x) : ofFloat y = finite (isNegative y) m := by
  by_cases hones : exponent x = 2047
  · rw [ofFloat_of_ones hones] at h
    split at h <;> cases h
  by_cases hzero : exponent x = 0
  · rw [ofFloat_of_zero hzero] at h
    rw [ofFloat_of_zero (he.trans hzero), hf]
    cases h
    rfl
  · rw [ofFloat_of_normal hzero hones] at h
    rw [ofFloat_of_normal (he ▸ hzero) (he ▸ hones), he, hf]
    cases h
    rfl

theorem ofFloat_neg (h : ofFloat x = finite negative m) : ofFloat (-x) = finite (!negative) m := by
  obtain ⟨evec, mvec, hx, hneg, -⟩ := exists_fields h
  obtain ⟨he, hf, -⟩ := fields_of_packComponents hx
  obtain ⟨he', hf', hn⟩ := fields_of_packComponents hneg
  rw [← hn]
  exact ofFloat_of_fields h (he'.trans he.symm) (hf'.trans hf.symm)

theorem abs_neg (h : ofFloat x = finite negative m) : (-x).abs = x.abs := by
  obtain ⟨evec, mvec, -, hneg, habs⟩ := exists_fields h
  obtain ⟨evec', mvec', hneg', -, habs'⟩ := exists_fields (ofFloat_neg h)
  obtain ⟨he, hf, -⟩ := fields_of_packComponents hneg
  obtain ⟨he', hf', -⟩ := fields_of_packComponents hneg'
  have hevec : evec' = evec := BitVec.eq_of_toNat_eq (he'.symm.trans he)
  have hmvec : mvec' = mvec := BitVec.eq_of_toNat_eq (hf'.symm.trans hf)
  rw [← Float.toBits_inj, ← UInt64.toBitVec_inj, habs, habs', hevec, hmvec]

theorem abs_of_nonneg (h : ofFloat x = finite false m) : x.abs = x := by
  obtain ⟨evec, mvec, hx, -, habs⟩ := exists_fields h
  rw [← Float.toBits_inj, ← UInt64.toBitVec_inj, habs, hx]
  rfl

end Signs

section Order

variable {x y : Float} {m m' : Magnitude}

theorem le_iff : x ≤ y ↔ (ofFloat x).unpacked.le (ofFloat y).unpacked = true := by
  rw [← unpack_eq, ← unpack_eq]
  exact decide_eq_true_iff

theorem lt_iff : x < y ↔ (ofFloat x).unpacked.lt (ofFloat y).unpacked = true := by
  rw [← unpack_eq, ← unpack_eq]
  exact decide_eq_true_iff

theorem unpacked_finite (negative : Bool) (m : Magnitude) :
    m.significand = 0 ∧ (finite negative m).unpacked = .zero (sign negative) ∨
    ∃ hpos : 0 < m.significand, (finite negative m).unpacked =
      .finite (sign negative) m.significand (m.scale - leastExponent) hpos := by
  by_cases h : m.significand = 0
  · exact .inl ⟨h, unpacked_zero h⟩
  · exact .inr ⟨Nat.pos_of_ne_zero h, unpacked_pos _ rfl rfl⟩

/-- What is no less than a positive number, and less than some number, is a positive number. -/
theorem exists_finite_of_le_of_lt {t t' : Float} (ht : ofFloat t = finite false m) (hpos : 0 < m.significand)
    (ht' : ofFloat t' = finite false m') (h : t ≤ x) (h' : x < t') :
    ∃ m, ofFloat x = finite false m ∧ 0 < m.significand := by
  rw [le_iff, ht, unpacked_pos hpos rfl rfl] at h
  rw [lt_iff, ht'] at h'
  cases hx : ofFloat x with
  | nan =>
    rw [hx] at h
    exact absurd h Bool.false_ne_true
  | infinite negative =>
    rw [hx] at h h'
    cases negative with
    | true => exact absurd h Bool.false_ne_true
    | false =>
      obtain ⟨-, hm'⟩ | ⟨hpos', hm'⟩ := unpacked_finite false m' <;> rw [hm'] at h'
      · exact absurd h' Bool.false_ne_true
      · exact absurd h' Bool.false_ne_true
  | finite negative m =>
    obtain ⟨-, hm⟩ | ⟨hpos, hm⟩ := unpacked_finite negative m <;> rw [hx, hm] at h
    · cases negative <;> exact absurd h Bool.false_ne_true
    · cases negative with
      | true => exact absurd h Bool.false_ne_true
      | false => exact ⟨m, rfl, hpos⟩

/-- Of two positive numbers the smaller one has no larger scale. -/
theorem scale_le_of_lt (hx : ofFloat x = finite false m) (hy : ofFloat y = finite false m')
    (hpos : 0 < m.significand) (hpos' : 0 < m'.significand) (h : x < y) : m.scale ≤ m'.scale := by
  rw [lt_iff, hx, hy, unpacked_pos hpos rfl rfl, unpacked_pos hpos' rfl rfl] at h
  have hcompare : (compare ((m.scale : Int) - leastExponent) (m'.scale - leastExponent)).then
      (compare m.significand m'.significand) = .lt := Option.some.inj (beq_iff_eq.1 h)
  rw [Ordering.then_eq_lt] at hcompare
  rcases hcompare with hlt | ⟨heq, -⟩
  · rw [Int.compare_eq_lt] at hlt
    omega
  · rw [Int.compare_eq_eq] at heq
    omega

end Order

section Reading

variable {x : Float} {negative : Bool} {m : Magnitude}

theorem eq_ofBits_of_finite (h : ofFloat x = finite negative m) :
    isNegative x = negative ∧ m = .ofBits (x.toBits.toNat % Nat.pow 2 63) ∧
      x.toBits.toNat % Nat.pow 2 63 < infinityBits := by
  unfold ofFloat at h
  dsimp only at h
  split at h
  · next hlt =>
    cases h
    exact ⟨rfl, rfl, hlt⟩
  split at h
  · cases h
  · cases h

theorem fits_of_finite (h : ofFloat x = finite negative m) : m.Fits := by
  obtain ⟨-, rfl, hlt⟩ := eq_ofBits_of_finite h
  exact Magnitude.fits_ofBits hlt

/-- The bits of the magnitude make up the number again. -/
theorem ofMagnitudeBits_bits (h : ofFloat x = finite false m) : ofMagnitudeBits m.bits = x := by
  obtain ⟨hn, rfl, -⟩ := eq_ofBits_of_finite h
  have hsmall : x.toBits.toNat < Nat.pow 2 63 := Nat.lt_of_not_le (of_decide_eq_false hn)
  rw [Magnitude.bits_ofBits, Nat.mod_eq_of_lt hsmall, ofMagnitudeBits, UInt64.ofNat_toNat, Float.ofBits_toBits]

theorem exists_finite_of_isFinite (h : x.isFinite) : ∃ negative m, ofFloat x = finite negative m := by
  have hunpacked : (ofFloat x).unpacked.isFinite = true := unpack_eq x ▸ h
  cases hx : ofFloat x with
  | nan | infinite =>
    rw [hx] at hunpacked
    cases hunpacked
  | finite negative m => exact ⟨negative, m, rfl⟩

theorem isNegative_ofMagnitudeBits {b : Nat} (h : b ≤ infinityBits) : isNegative (ofMagnitudeBits b) = false := by
  have hbits : (ofMagnitudeBits b).toBits.toBitVec =
      pack .binary64 (unpack .binary64 (UInt64.ofNat b).toBitVec) := rfl
  rw [pack_unpack _ (by decide)] at hbits
  rw [isNegative, decide_eq_false_iff_not, Nat.not_le, two_pow_63]
  rw [infinityBits_eq] at h
  change (ofMagnitudeBits b).toBits.toBitVec.toNat < _
  rw [hbits]
  split
  · decide
  · change (UInt64.ofNat b).toNat < _
    rw [UInt64.toNat_ofNat']
    omega

end Reading

end Double

end Lox
