import AnimatedChart.Decimal.Layout
import Mathlib

/-!
# Packed numbers

A finite number other than zero is a sign, a mantissa and an exponent. `Fits` tells which mantissas and exponents occur:
the mantissa has 53 bits, or fewer at the least exponent.
-/

namespace AnimatedChart.Decimal

open Float.Model Float.Model.UnpackedFloat

variable {bits : UInt64} {e : Int} (b : BitVec 64) (s : Sign)

/-- The mantissas and exponents of the finite numbers other than zero. -/
structure Fits (m : Nat) (e : Int) : Prop where
  pos : 0 < m
  lt : m < 2 ^ 53
  least : -1074 ≤ e
  most : e ≤ 971
  normal : 2 ^ 52 ≤ m ∨ e = -1074

theorem toNat_unpackExponent : (@unpackExponent .binary64 b).toNat = b.toNat / 2 ^ 52 % 2 ^ 11 := by
  simp [unpackExponent, BitVec.extractLsb, Nat.shiftRight_eq_div_pow]

theorem toNat_unpackMantissa : (@unpackMantissa .binary64 b).toNat = b.toNat % 2 ^ 52 := by
  simp [unpackMantissa, BitVec.extractLsb]

theorem toNat_unpackSign : (@unpackSign .binary64 b).toNat = b.toNat / 2 ^ 63 := by
  have hb := b.isLt
  simp only [unpackSign, BitVec.extractLsb, BitVec.toNat_cast, BitVec.extractLsb'_toNat,
    Nat.shiftRight_eq_div_pow]
  norm_num
  omega

theorem log2_eq_of_normal {m : Nat} (h : 2 ^ 52 ≤ m) (hlt : m < 2 ^ 53) : m.log2 = 52 := by
  have hne : m ≠ 0 := by omega
  have h1 := (Nat.le_log2 hne).mpr h
  have h2 := (Nat.log2_lt hne).mpr hlt
  omega

theorem pack_normal {m : Nat} (h : Fits m e) (hn : 2 ^ 52 ≤ m) : UnpackedFloat.pack .binary64 (.finite s m e h.pos)
      = packComponents .binary64 s (BitVec.ofNat 11 (e + 1075).toNat) (BitVec.ofNat 52 m) := by
  have hlog := log2_eq_of_normal hn h.lt
  have hmost := h.most
  have hbias : e + ((Format.binary64.exponentBias : Nat) : Int) + ((52 : Nat) : Int) = e + 1075 := by
    rw [show Format.binary64.exponentBias = 1023 from rfl]
    omega
  simp only [UnpackedFloat.pack]
  rw [hbias, if_neg (by omega), if_pos (by rw [hlog]; rfl)]

theorem pack_subnormal {m : Nat} (h : Fits m e) (hn : m < 2 ^ 52) : UnpackedFloat.pack .binary64 (.finite s m e h.pos)
      = packComponents .binary64 s 0#11 (BitVec.ofNat 52 m) := by
  have hlog : m.log2 < 52 := (Nat.log2_lt (by have := h.pos; omega)).mpr hn
  have he : e = -1074 := h.normal.resolve_left (by omega)
  have hbias : e + ((Format.binary64.exponentBias : Nat) : Int) + ((52 : Nat) : Int) = 1 := by
    rw [show Format.binary64.exponentBias = 1023 from rfl, he]
    omega
  simp only [UnpackedFloat.pack]
  rw [hbias, if_neg (by decide), if_neg (by rw [show Format.binary64.mantissaBits = 53 from rfl]; omega)]

/-! ## Unpacking -/

def exponentField (bits : UInt64) : Nat := bits.toNat / 2 ^ 52 % 2 ^ 11

def signOf (bits : UInt64) : Sign := Sign.ofBitVec (@unpackSign .binary64 bits.toBitVec)

theorem Dyadic.ofBits_eq (bits : UInt64) : ofBits bits =
      if exponentField bits = 0 then ⟨bits.toNat % 2 ^ 52, -1074, false⟩
      else ⟨2 ^ 52 + bits.toNat % 2 ^ 52, (exponentField bits : Int) - 1075,
        bits.toNat % 2 ^ 52 == 0 && decide (1 < exponentField bits)⟩ := by
  have he : ((bits >>> 52) &&& 0x7FF).toNat = exponentField bits := by
    rw [UInt64.toNat_and, UInt64.toNat_shiftRight]
    show bits.toNat >>> 52 &&& (2 ^ 11 - 1) = _
    rw [Nat.and_two_pow_sub_one_eq_mod, Nat.shiftRight_eq_div_pow]
    rfl
  have hf : (bits &&& 0xFFFFFFFFFFFFF).toNat = bits.toNat % 2 ^ 52 := by
    rw [UInt64.toNat_and]
    exact Nat.and_two_pow_sub_one_eq_mod bits.toNat 52
  simp only [ofBits, he, hf]
  rfl

theorem exponentField_eq_toNat (bits : UInt64) : (@unpackExponent .binary64 bits.toBitVec).toNat = exponentField bits :=
  toNat_unpackExponent bits.toBitVec

theorem exponentField_lt (bits : UInt64) : exponentField bits < 2048 :=
  Nat.mod_lt _ (by decide)

theorem Dyadic.fits_ofBits (h : exponentField bits ≠ 2047) (hpos : 0 < (ofBits bits).mantissa) :
    Fits (ofBits bits).mantissa (ofBits bits).exponent := by
  have hlt := exponentField_lt bits
  have hmod : bits.toNat % 2 ^ 52 < 2 ^ 52 := Nat.mod_lt _ (by decide)
  by_cases hz : exponentField bits = 0
  · have hof := ofBits_eq bits
    rw [if_pos hz] at hof
    rw [hof] at hpos ⊢
    exact ⟨hpos, by simp only; omega, by simp only; omega, by simp only; omega, .inr rfl⟩
  · have hof := ofBits_eq bits
    rw [if_neg hz] at hof
    rw [hof] at hpos ⊢
    exact ⟨hpos, by simp only; omega, by simp only; omega, by simp only; omega, .inl (by simp only; omega)⟩

theorem Dyadic.narrow_ofBits (bits : UInt64) : (ofBits bits).narrow = true ↔
      (ofBits bits).mantissa = 2 ^ 52 ∧ -1074 < (ofBits bits).exponent := by
  have hmod : bits.toNat % 2 ^ 52 < 2 ^ 52 := Nat.mod_lt _ (by decide)
  rw [ofBits_eq]
  split
  · simp only [Bool.false_eq_true, false_iff]
    omega
  · simp only [Bool.and_eq_true, beq_iff_eq, decide_eq_true_eq]
    omega

theorem exponent_ne_allOnes (h : exponentField bits ≠ 2047) : @unpackExponent .binary64 bits.toBitVec ≠ -1#11 := by
  intro heq
  have := congrArg BitVec.toNat heq
  rw [exponentField_eq_toNat] at this
  exact h this

theorem exponent_eq_zero_iff (bits : UInt64) :
    @unpackExponent .binary64 bits.toBitVec = 0#11 ↔ exponentField bits = 0 := by
  rw [← exponentField_eq_toNat]
  exact ⟨fun h => by rw [h]; rfl, fun h => BitVec.eq_of_toNat_eq h⟩

theorem mantissa_eq_zero_iff (bits : UInt64) :
    @unpackMantissa .binary64 bits.toBitVec = 0#52 ↔ bits.toNat % 2 ^ 52 = 0 := by
  have htoNat : (@unpackMantissa .binary64 bits.toBitVec).toNat = bits.toNat % 2 ^ 52 :=
    toNat_unpackMantissa bits.toBitVec
  rw [← htoNat]
  exact ⟨fun h => by rw [h]; rfl, fun h => BitVec.eq_of_toNat_eq h⟩

theorem append_one (m : BitVec 52) : (1#1 ++ m).toNat = 2 ^ 52 + m.toNat := by
  rw [BitVec.toNat_append, ← Nat.shiftLeft_add_eq_or_of_lt m.isLt]
  rfl

theorem unpack_finite (h : exponentField bits ≠ 2047) (hpos : 0 < (Dyadic.ofBits bits).mantissa) :
    UnpackedFloat.unpack .binary64 bits.toBitVec
      = .finite (signOf bits) (Dyadic.ofBits bits).mantissa (Dyadic.ofBits bits).exponent hpos := by
  simp only [UnpackedFloat.unpack, if_neg (exponent_ne_allOnes h)]
  by_cases hz : exponentField bits = 0
  · rw [if_pos ((exponent_eq_zero_iff bits).mpr hz)]
    have hof := Dyadic.ofBits_eq bits
    rw [if_pos hz] at hof
    have hm : ¬@unpackMantissa .binary64 bits.toBitVec = 0#52 := by
      rw [mantissa_eq_zero_iff]
      simp only [hof] at hpos
      omega
    rw [dif_neg hm]
    simp only [hof, exponentField_eq_toNat, hz, toNat_unpackMantissa]
    rfl
  · rw [if_neg (mt (exponent_eq_zero_iff bits).mp hz)]
    have hof := Dyadic.ofBits_eq bits
    rw [if_neg hz] at hof
    simp only [hof, exponentField_eq_toNat, append_one, toNat_unpackMantissa]
    congr 1

theorem unpack_zero (h : exponentField bits ≠ 2047) (hzero : (Dyadic.ofBits bits).mantissa = 0) :
    UnpackedFloat.unpack .binary64 bits.toBitVec = .zero (signOf bits) := by
  have hz : exponentField bits = 0 := by
    by_contra hne
    rw [Dyadic.ofBits_eq, if_neg hne] at hzero
    simp only at hzero
    omega
  rw [Dyadic.ofBits_eq, if_pos hz] at hzero
  simp only [UnpackedFloat.unpack, if_neg (exponent_ne_allOnes h)]
  rw [if_pos ((exponent_eq_zero_iff bits).mpr hz), dif_pos ((mantissa_eq_zero_iff bits).mpr hzero)]
  rfl

theorem unpack_pack {m : Nat} (h : Fits m e) :
    UnpackedFloat.unpack .binary64 (UnpackedFloat.pack .binary64 (.finite s m e h.pos)) = .finite s m e h.pos := by
  have hlt := h.lt
  have hmost := h.most
  have hleast := h.least
  have hpos := h.pos
  by_cases hn : 2 ^ 52 ≤ m
  · rw [pack_normal s h hn]
    have hexp : (BitVec.ofNat 11 (e + 1075).toNat).toNat = (e + 1075).toNat := by
      rw [BitVec.toNat_ofNat, Nat.mod_eq_of_lt (by omega)]
    have hones : BitVec.ofNat 11 (e + 1075).toNat ≠ -1#11 := by
      rw [← BitVec.toNat_ne_iff_ne, hexp, show (-1#11).toNat = 2047 from rfl]
      omega
    have hzero : BitVec.ofNat 11 (e + 1075).toNat ≠ 0#11 := by
      rw [← BitVec.toNat_ne_iff_ne, hexp, show (0#11).toNat = 0 from rfl]
      omega
    simp only [UnpackedFloat.unpack, unpackExponent_packComponents, unpackMantissa_packComponents,
      unpackSign_packComponents, Sign.ofBitVec_toBitVec, if_neg hones, if_neg hzero, append_one, hexp,
      BitVec.toNat_ofNat]
    congr 1
    · omega
    · rw [show Format.binary64.exponentBias = 1023 from rfl]
      omega
  · rw [pack_subnormal s h (by omega)]
    have hman : (BitVec.ofNat 52 m).toNat = m := by rw [BitVec.toNat_ofNat, Nat.mod_eq_of_lt (by omega)]
    have hne : BitVec.ofNat 52 m ≠ 0#52 := by
      rw [← BitVec.toNat_ne_iff_ne, hman, show (0#52).toNat = 0 from rfl]
      omega
    have he : e = -1074 := h.normal.resolve_left hn
    simp only [UnpackedFloat.unpack, unpackExponent_packComponents, unpackMantissa_packComponents,
      unpackSign_packComponents, Sign.ofBitVec_toBitVec, hman, dif_neg hne, he]
    rfl

end AnimatedChart.Decimal
