import AnimatedChart.Decimal.Number
import AnimatedChart.Proofs.Decimal.Rounding
import Mathlib.Tactic.IntervalCases

/-!
# Decimals read as the nearest number

`Float.ofScientific` reads a decimal in two ways: small digits and small powers of ten are numbers themselves and are
multiplied or divided, all others are rounded from their exact product or quotient.
-/

open List Nat

namespace AnimatedChart.Decimal

open Float.Model Float.Model.UnpackedFloat

variable {c : Char} {cs ds : List Char} {e i : Int} {m n : Nat}

def number (s : Sign) {m : Nat} {e : Int} (h : Fits m e) : Float :=
  .ofModel (.pack (.finite s m e h.pos))

theorem unpack_number (s : Sign) (h : Fits m e) : (number s h).toModel.unpack = .finite s m e h.pos :=
  unpack_pack s h

/-! ## Small decimals -/

theorem toFloat_small (hpos : 0 < n) (hn : n < 2 ^ 53) : ∃ (m : Nat) (e : Int) (h : Fits m e),
      n.toUInt64.toFloat = number .positive h ∧ (m : ℚ) * 2 ^ e = n ∧ 2 ^ 52 ≤ m := by
  have hlog : n.log2 < 53 := (log2_lt hpos.ne').mpr hn
  have hlow := log2_self_le hpos.ne'
  have hhigh := @Nat.lt_log2_self n
  obtain ⟨k, hk⟩ : ∃ k, n.log2 + k = 52 := ⟨52 - n.log2, by omega⟩
  have hshift : 2 ^ 52 ≤ n <<< k := by
    rw [shiftLeft_eq, ← hk, pow_add]
    exact mul_le_mul_right _ hlow
  have hlt : n <<< k < 2 ^ 53 := by
    rw [shiftLeft_eq, show 53 = n.log2 + 1 + k by omega, pow_add]
    exact Nat.mul_lt_mul_of_pos_right hhigh (Nat.pow_pos (by decide))
  have hfits : Fits (n <<< k) (-(k : Int)) := ⟨by omega, hlt, by omega, by omega, .inl hshift⟩
  have hval : ((n <<< k : Nat) : ℚ) * 2 ^ (-(k : Int)) = n := by
    rw [shiftLeft_eq, zpow_neg, zpow_natCast]
    push_cast
    field_simp
  refine ⟨_, _, hfits, ?_, hval, hshift⟩
  have hnat : n.toUInt64.toNat = n := UInt64.toNat_ofNat_of_lt' (lt_trans hn (by decide))
  have hround : UnpackedFloat.ofNat .binary64 n = .finite .positive (n <<< k) (-(k : Int)) hfits.pos := by
    have htarget : Format.binary64.targetExponent (totalExponent n 0) = -(k : Int) := by
      rw [targetExponent_eq, totalExponent]
      omega
    have hcmp : compare (n : Int) 0 = .gt := compare_gt_iff_gt.mpr (by omega)
    simp only [UnpackedFloat.ofNat, UnpackedFloat.ofInt, UnpackedFloat.normalize, hcmp, UnpackedFloat.round,
      decreaseExponent, Int.toNat_natCast, htarget]
    rw [show (0 - -(k : Int)).toNat = k by omega, show (0 : Int) - (k : Int) = -(k : Int) by omega]
    refine round_near .positive (near_self _ _) hfits ?_ ?_
    · rw [mul_div_cancel_right₀ _ (two_zpow_pos _).ne']
      exact cutFrom_exact _
    · rw [targetExponent_eq, totalExponent, log2_eq_of_normal hshift hlt]
      omega
  show Float.ofModel (.pack (UnpackedFloat.ofNat .binary64 n.toUInt64.toNat)) = _
  rw [hnat, hround]
  rfl

theorem powerOfFive_normal :
    ∀ k < 23, 2 ^ 52 ≤ 5 ^ k * 2 ^ (52 - (5 ^ k).log2) ∧ 5 ^ k * 2 ^ (52 - (5 ^ k).log2) < 2 ^ 53 := by
  decide

theorem powerOfTen_number {k : Nat} (hk : k < Float.exactlyRepresentablePowersOfTen.size) :
    ∃ (m : Nat) (e : Int) (h : Fits m e),
      Float.exactlyRepresentablePowersOfTen[k] = number .positive h ∧ (m : ℚ) * 2 ^ e = 10 ^ k ∧ 2 ^ 52 ≤ m := by
  have hsize : k < 23 := hk
  obtain ⟨hlow, hhigh⟩ := powerOfFive_normal k hsize
  have hpos : 0 < 5 ^ k * 2 ^ (52 - (5 ^ k).log2) := by omega
  refine ⟨5 ^ k * 2 ^ (52 - (5 ^ k).log2), (k : Int) - ((52 - (5 ^ k).log2 : Nat) : Int),
    ⟨hpos, hhigh, by omega, by omega, .inl hlow⟩, ?_, ?_, hlow⟩
  · interval_cases k <;> rfl
  · rw [zpow_sub₀ (by norm_num), zpow_natCast, zpow_natCast, show (10 : ℚ) = 5 * 2 by norm_num, mul_pow]
    push_cast
    field_simp

def decimalValue (n : Nat) (i : Int) : ℚ := n * 10 ^ i

theorem decimalValue_natCast (n k : Nat) : decimalValue n k = n * 10 ^ k := by rw [decimalValue, zpow_natCast]

theorem decimalValue_neg (n k : Nat) : decimalValue n (-(k : Int)) = n / 10 ^ k := by
  rw [decimalValue, zpow_neg, zpow_natCast, div_eq_mul_inv]

theorem ofScientific_small {k : Nat} {down : Bool} (hpos : 0 < n) (h : Fits m e)
    (hv : Near m e (decimalValue n (if down then -(k : Int) else k))) (hn : n < 2 ^ 53) (hk : k ≤ 22) :
    Float.ofScientific n down k = number .positive h := by
  obtain ⟨m₁, e₁, h₁, hfloat, hval₁, hlong₁⟩ := toFloat_small hpos hn
  obtain ⟨m₂, e₂, h₂, hpower, hval₂, hlong₂⟩ :=
    powerOfTen_number (show k < Float.exactlyRepresentablePowersOfTen.size from lt_succ_of_le hk)
  rw [Float.ofScientific, dif_pos ⟨hn, hk⟩]
  simp only [hfloat, hpower]
  cases down with
  | true =>
    rw [if_pos rfl] at hv ⊢
    show Float.ofModel (.pack (UnpackedFloat.div .binary64 (number .positive h₁).toModel.unpack
      (number .positive h₂).toModel.unpack)) = _
    rw [unpack_number, unpack_number, div_near hv h h₁.pos h₂.pos]
    · rfl
    · rw [decimalValue_neg, hval₁, hval₂]
  | false =>
    rw [if_neg (by decide)] at hv ⊢
    show Float.ofModel (.pack (UnpackedFloat.mul .binary64 (number .positive h₁).toModel.unpack
      (number .positive h₂).toModel.unpack)) = _
    rw [unpack_number, unpack_number, mul_near hv h h₁.pos h₂.pos]
    · rfl
    · rw [decimalValue_natCast, hval₁, hval₂]
    · exact Nat.le_trans hlong₁ (Nat.le_mul_of_pos_right _ h₂.pos)

/-! ## All decimals -/

theorem ten_zpow_pos (i : Int) : (0 : ℚ) < 10 ^ i := zpow_pos (by norm_num) i

theorem lt_of_ten_zpow_lt {a b : Int} (h : (10 : ℚ) ^ a < 10 ^ b) : a < b :=
  (zpow_lt_zpow_iff_right₀ (by norm_num : (1 : ℚ) < 10)).mp h

theorem Near.lt_max {v : ℚ} (hv : Near m e v) (h : Fits m e) : v < 10 ^ (309 : Int) := by
  have hmost := h.most
  calc v < 2 ^ (53 + e) := hv.lt_two_zpow h
    _ ≤ 2 ^ (1024 : Int) := zpow_le_zpow_right₀ (by norm_num) (by omega)
    _ ≤ 10 ^ (309 : Int) := by exact_mod_cast (show 2 ^ 1024 ≤ 10 ^ 309 by decide +kernel)

theorem Near.gt_min {v : ℚ} (hv : Near m e v) (h : Fits m e) : 10 ^ (-324 : Int) < v := by
  have hpos : (1 : ℚ) ≤ m := by exact_mod_cast h.pos
  have hnat : (2 : ℚ) ^ 1075 < 10 ^ 324 := by exact_mod_cast (show 2 ^ 1075 < 10 ^ 324 by decide +kernel)
  calc (10 : ℚ) ^ (-324 : Int) = (10 ^ 324)⁻¹ := zpow_neg_coe_of_pos _ (by decide)
    _ < (2 ^ 1075)⁻¹ := inv_strictAnti₀ (by positivity) hnat
    _ = 1 / 2 * (2 ^ 1074)⁻¹ := by rw [pow_succ 2 1074, mul_inv, mul_comm, one_div]
    _ = 1 / 2 * 2 ^ (-1074 : Int) := congrArg (1 / 2 * ·) (zpow_neg_coe_of_pos (2 : ℚ) (by decide)).symm
    _ ≤ 1 / 2 * 2 ^ e := by
      have : (2 : ℚ) ^ (-1074 : Int) ≤ 2 ^ e := zpow_le_zpow_right₀ (by norm_num) h.least
      linarith
    _ ≤ (m - 1 / 2) * 2 ^ e := mul_le_mul_of_nonneg_right (by linarith) (two_zpow_pos e).le
    _ ≤ v := hv.low

theorem unpacked_ofScientific_near (hpos : 0 < n) (h : Fits m e) (hv : Near m e (decimalValue n i)) :
    UnpackedFloat.ofScientific .binary64 n i = .finite .positive m e h.pos := by
  have hn : (1 : ℚ) ≤ n := by exact_mod_cast hpos
  have hten := ten_zpow_pos i
  have hmax := hv.lt_max h
  have hmin := hv.gt_min h
  rw [decimalValue] at hmax hmin
  have hlarge : i < 309 := lt_of_ten_zpow_lt (lt_of_le_of_lt (le_mul_of_one_le_left hten.le hn) hmax)
  have hsmall : -324 < (n.log2 : Int) + 1 + i := by
    refine lt_of_ten_zpow_lt (lt_of_lt_of_le hmin ?_)
    have hlog : (n : ℚ) ≤ 2 ^ (n.log2 + 1) := by exact_mod_cast (@Nat.lt_log2_self n).le
    have hbase : (2 : ℚ) ^ (n.log2 + 1) ≤ 10 ^ (n.log2 + 1) := pow_le_pow_left₀ (by norm_num) (by norm_num) _
    rw [zpow_add₀ (by norm_num), show ((n.log2 : Int) + 1) = ((n.log2 + 1 : Nat) : Int) from rfl, zpow_natCast]
    exact mul_le_mul_of_nonneg_right (le_trans hlog hbase) hten.le
  rw [UnpackedFloat.ofScientific, dif_neg hpos.ne', if_neg (by norm_num; omega), if_neg (by norm_num; omega)]
  by_cases hi : 0 ≤ i
  · obtain ⟨k, rfl⟩ := Int.eq_ofNat_of_zero_le hi
    rw [if_pos hi]
    refine mul_near hv h _ _ ?_ ?_
    · rw [decimalValue_natCast, shiftLeft_eq, show Format.binary64.mantissaBits = 53 from rfl]
      push_cast
      norm_num
      ring
    · rw [shiftLeft_eq, show Format.binary64.mantissaBits = 53 from rfl]
      have h10 : 0 < 10 ^ ((k : Int)).toNat := Nat.pow_pos (by decide)
      calc 2 ^ 52 ≤ n * 2 ^ 53 := by omega
        _ ≤ n * 2 ^ 53 * 10 ^ ((k : Int)).toNat := Nat.le_mul_of_pos_right _ h10
  · obtain ⟨k, hk⟩ := Int.eq_ofNat_of_zero_le (show 0 ≤ -i by omega)
    obtain rfl : i = -(k : Int) := by omega
    rw [if_neg hi]
    refine div_near hv h _ _ ?_
    rw [decimalValue_neg, show (- -(k : Int)).toNat = k by omega]
    push_cast
    norm_num

theorem ofScientific_near (hpos : 0 < n) (h : Fits m e) (hv : Near m e (decimalValue n i)) :
    Float.ofScientific n (decide (i < 0)) i.natAbs = number .positive h := by
  have hi : (if decide (i < 0) then -(i.natAbs : Int) else i.natAbs) = i := by
    by_cases hneg : i < 0
    · rw [if_pos (decide_eq_true hneg)]
      omega
    · rw [if_neg (by simpa using hneg)]
      omega
  by_cases hsmall : n < 2 ^ 53 ∧ i.natAbs ≤ 22
  · exact ofScientific_small hpos h (by rw [hi]; exact hv) hsmall.1 hsmall.2
  · rw [Float.ofScientific, dif_neg hsmall]
    have hi' : (if decide (i < 0) then Int.negOfNat i.natAbs else Int.ofNat i.natAbs) = i := by
      rw [Int.negOfNat_eq]
      exact hi
    simp only [hi']
    show Float.ofModel (.pack (UnpackedFloat.ofScientific .binary64 n i)) = _
    rw [unpacked_ofScientific_near hpos h hv]
    rfl

/-! ## Digits -/

theorem natOfDigits_eq (ds : List Char) : natOfDigits ds = ofDigitChars 10 ds 0 :=
  ofDigitChars_eq_foldl.symm

theorem natOfDigits_cons (c : Char) (cs : List Char) :
    natOfDigits (c :: cs) = 10 ^ cs.length * (c.toNat - '0'.toNat) + natOfDigits cs := by
  rw [natOfDigits_eq, natOfDigits_eq, ofDigitChars_cons, ofDigitChars_eq_ofDigitChars_zero,
    mul_zero, zero_add]

theorem natOfDigits_append (as bs : List Char) :
    natOfDigits (as ++ bs) = 10 ^ bs.length * natOfDigits as + natOfDigits bs := by
  rw [natOfDigits_eq, natOfDigits_eq, natOfDigits_eq, ofDigitChars_append,
    ofDigitChars_eq_ofDigitChars_zero]

theorem natOfDigits_replicate (n : Nat) : natOfDigits (List.replicate n '0') = 0 := by
  rw [natOfDigits_eq, ofDigitChars_replicate_zero, mul_zero]

theorem natOfDigits_toDigits (n : Nat) : natOfDigits (toDigits 10 n) = n := by
  rw [natOfDigits_eq, ofDigitChars_ten_toDigits]

theorem digitValue_lt (h : c.isDigit = true) : c.toNat - '0'.toNat < 10 := by
  have hrange := Char.isDigit_iff_toNat.mp h
  rw [show '0'.toNat = 48 from rfl, show '9'.toNat = 57 from rfl] at *
  omega

theorem digitValue_pos (h : c.isDigit = true) (hne : c ≠ '0') : 0 < c.toNat - '0'.toNat := by
  have hrange := Char.isDigit_iff_toNat.mp h
  have : c.toNat ≠ '0'.toNat := fun heq => hne (Char.toNat_inj.mp heq)
  rw [show '0'.toNat = 48 from rfl, show '9'.toNat = 57 from rfl] at *
  omega

theorem natOfDigits_lt (h : ds.all Char.isDigit = true) : natOfDigits ds < 10 ^ ds.length := by
  induction ds with
  | nil => decide
  | cons c cs ih =>
    rw [all_cons, Bool.and_eq_true] at h
    have hc := digitValue_lt h.1
    have hcs := ih h.2
    rw [natOfDigits_cons, length_cons, pow_succ]
    calc 10 ^ cs.length * (c.toNat - '0'.toNat) + natOfDigits cs
        < 10 ^ cs.length * (c.toNat - '0'.toNat) + 10 ^ cs.length := by omega
      _ = 10 ^ cs.length * (c.toNat - '0'.toNat + 1) := (mul_succ _ _).symm
      _ ≤ 10 ^ cs.length * 10 := mul_le_mul_left _ hc

theorem natOfDigits_ge (h : c.isDigit = true) (hne : c ≠ '0') : 10 ^ cs.length ≤ natOfDigits (c :: cs) := by
  rw [natOfDigits_cons]
  have := Nat.le_mul_of_pos_right (10 ^ cs.length) (digitValue_pos h hne)
  omega

theorem natOfDigits_dropWhile (ds : List Char) : natOfDigits (ds.dropWhile (· == '0')) = natOfDigits ds := by
  induction ds with
  | nil => rfl
  | cons c cs ih =>
    by_cases hc : c = '0'
    · subst hc
      rw [dropWhile_cons_of_pos (by rfl), ih, natOfDigits_cons, Nat.sub_self, Nat.mul_zero, Nat.zero_add]
    · rw [dropWhile_cons_of_neg (by simpa using hc)]

theorem Near.lead_bounds (hv : Near m e (decimalValue (natOfDigits (c :: cs)) i)) (h : Fits m e)
    (hall : (c :: cs).all Char.isDigit = true) (hc : c ≠ '0') :
    (cs.length : Int) + i < 309 ∧ -325 < (cs.length : Int) + i := by
  have hmax := hv.lt_max h
  have hmin := hv.gt_min h
  have hten := ten_zpow_pos i
  rw [decimalValue] at hmax hmin
  have hhigh : (natOfDigits (c :: cs) : ℚ) ≤ 10 ^ (cs.length + 1) := by exact_mod_cast (natOfDigits_lt hall).le
  rw [all_cons, Bool.and_eq_true] at hall
  have hlow : (10 : ℚ) ^ cs.length ≤ natOfDigits (c :: cs) := by exact_mod_cast natOfDigits_ge hall.1 hc
  constructor
  · refine lt_of_ten_zpow_lt (lt_of_le_of_lt ?_ hmax)
    rw [zpow_add₀ (by norm_num), zpow_natCast]
    exact mul_le_mul_of_nonneg_right hlow hten.le
  · have : -324 < ((cs.length + 1 : Nat) : Int) + i := by
      refine lt_of_ten_zpow_lt (lt_of_lt_of_le hmin ?_)
      rw [zpow_add₀ (by norm_num), zpow_natCast]
      exact mul_le_mul_of_nonneg_right hhigh hten.le
    omega

def signIf (negative : Bool) : Sign := if negative then .negative else .positive

theorem neg_number (h : Fits m e) : -number .positive h = number .negative h := by
  show Float.ofModel (.pack (number .positive h).toModel.unpack.neg) = _
  rw [unpack_number]
  rfl

theorem isInf_number (s : Sign) (h : Fits m e) : (number s h).isInf = false := by
  show (number s h).toModel.unpack.isInf = false
  rw [unpack_number]
  rfl

theorem ofDecimal_near (negative : Bool) (hds : ds.all Char.isDigit = true) (h : Fits m e)
    (hv : Near m e (decimalValue (natOfDigits ds) i)) :
    ofDecimal negative ds i = some (number (signIf negative) h) := by
  have hpos : 0 < natOfDigits ds := by
    by_contra hzero
    have hmin := hv.gt_min h
    rw [decimalValue, show natOfDigits ds = 0 by omega, cast_zero, zero_mul] at hmin
    exact absurd (ten_zpow_pos (-324)) (not_lt.mpr hmin.le)
  rw [← natOfDigits_dropWhile ds] at hv hpos
  have hall : (ds.dropWhile (· == '0')).all Char.isDigit = true := by
    rw [all_eq_true] at hds ⊢
    exact fun c hc => hds c ((dropWhile_sublist _).subset hc)
  have hhead : ∀ c cs, ds.dropWhile (· == '0') = c :: cs → c ≠ '0' := by
    intro c cs heq hc
    have := head?_dropWhile_not (· == '0') ds
    rw [heq, hc] at this
    simp at this
  simp only [ofDecimal]
  cases hstrip : ds.dropWhile (· == '0') with
  | nil =>
    rw [hstrip] at hpos
    exact absurd hpos (by decide)
  | cons c cs =>
    rw [hstrip] at hv hpos hall
    have hlead := hv.lead_bounds h hall (hhead c cs hstrip)
    have hlength : ((c :: cs).length : Int) = cs.length + 1 := by simp
    rw [if_neg (by simp), if_neg (by omega), if_neg (by omega), ofScientific_near hpos h hv, isInf_number,
      if_neg (by decide)]
    cases negative with
    | true => exact congrArg some (neg_number h)
    | false => rfl

end AnimatedChart.Decimal
