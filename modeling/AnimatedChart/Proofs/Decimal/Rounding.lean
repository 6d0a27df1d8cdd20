import AnimatedChart.Proofs.Decimal.Packing
import Mathlib.Algebra.Order.Field.Power
import Mathlib.Data.Rat.Cast.Order
import Mathlib.Tactic.FieldSimp
import Mathlib.Tactic.Linarith
import Mathlib.Tactic.Positivity
import Mathlib.Tactic.Ring

/-!
# Rounding to the nearest number

`Near m e v` says that the number `m * 2 ^ e` is the one that the value `v` is rounded to: `v` lies within half a gap of
it, and at the end of the interval the mantissa is even.
-/

open Nat

namespace AnimatedChart.Decimal

open Float.Model Float.Model.UnpackedFloat

variable {e e₁ e₂ : Int} {em : ExtendedMantissa} {m m₁ m₂ n : Nat} {v x : ℚ}

/-! ## Bits behind the mantissa -/

def halves (em : ExtendedMantissa) : Nat := 2 * em.mantissa + em.roundBit.toNat

/-- The value that an extended mantissa was cut from. -/
structure CutFrom (em : ExtendedMantissa) (x : ℚ) : Prop where
  le : (halves em : ℚ) ≤ 2 * x
  lt : 2 * x < halves em + 1
  sticky : em.stickyBit = true ↔ 2 * x ≠ halves em

theorem CutFrom.floor (h : CutFrom em x) : (em.mantissa : ℚ) ≤ x ∧ x < em.mantissa + 1 := by
  have h1 := h.le
  have h2 := h.lt
  have hbit : em.roundBit.toNat ≤ 1 := Bool.toNat_le _
  have hle : (2 * em.mantissa : ℚ) ≤ halves em := by
    unfold halves
    push_cast
    have : (0 : ℚ) ≤ (em.roundBit.toNat : ℚ) := cast_nonneg _
    linarith
  have hge : (halves em : ℚ) ≤ 2 * em.mantissa + 1 := by
    unfold halves
    push_cast
    have : (em.roundBit.toNat : ℚ) ≤ 1 := by exact_mod_cast hbit
    linarith
  constructor <;> linarith

theorem CutFrom.shiftRightOne (h : CutFrom em x) : CutFrom em.shiftRightOne (x / 2) := by
  have hhalves : halves em.shiftRightOne = em.mantissa := by
    unfold halves ExtendedMantissa.shiftRightOne
    rcases mod_two_eq_zero_or_one em.mantissa with hm | hm <;> simp [hm] <;> omega
  obtain ⟨hle, hlt⟩ := h.floor
  refine ⟨?_, ?_, ?_⟩
  · rw [hhalves]
    linarith
  · rw [hhalves]
    linarith
  · rw [hhalves, show 2 * (x / 2) = x by ring]
    have hsticky := h.sticky
    show (em.roundBit || em.stickyBit) = true ↔ _
    cases hr : em.roundBit with
    | true =>
      have hge := h.le
      rw [halves, hr] at hge
      push_cast at hge
      simp only [Bool.true_or, true_iff]
      intro heq
      rw [heq] at hge
      simp only [Bool.toNat_true, cast_one] at hge
      linarith
    | false =>
      rw [Bool.false_or, hsticky, halves, hr]
      push_cast
      simp only [Bool.toNat_false, cast_zero, add_zero]
      constructor
      · intro hne heq
        exact hne (by rw [heq])
      · intro hne heq
        exact hne (by linarith)

theorem CutFrom.shiftRight (h : CutFrom em x) (k : Nat) : CutFrom (em >>> k) (x / 2 ^ k) := by
  show CutFrom (k.repeat ExtendedMantissa.shiftRightOne em) _
  induction k with
  | zero => simpa [Nat.repeat] using h
  | succ k ih =>
    have hstep := ih.shiftRightOne
    rw [show x / 2 ^ (k + 1) = x / 2 ^ k / 2 by rw [pow_succ]; field_simp]
    exact hstep

theorem CutFrom.roundedMantissa (h : CutFrom em x) (hlow : (n : ℚ) - 1 / 2 ≤ x) (hhigh : x ≤ n + 1 / 2)
    (heven : x = n - 1 / 2 ∨ x = n + 1 / 2 → n % 2 = 0) : em.roundedMantissa = n := by
  obtain ⟨m, r, s⟩ := em
  have hle := h.le
  have hlt := h.lt
  have hsticky := h.sticky
  simp only [halves] at hle hlt hsticky
  -- Twice the value lies between `2 * m + r` and the next integer, and within one of `2 * n`.
  have hup : 2 * n ≤ 2 * m + r.toNat + 1 := by
    have : (2 * n : ℚ) < 2 * m + r.toNat + 2 := by
      push_cast at hlt
      linarith
    have : 2 * n < 2 * m + r.toNat + 2 := by exact_mod_cast this
    omega
  have hdown : 2 * m + r.toNat ≤ 2 * n + 1 := by
    have : (2 * m + r.toNat : ℚ) ≤ 2 * n + 1 := by
      push_cast at hle
      linarith
    exact_mod_cast this
  cases r with
  | false =>
    simp only [Bool.toNat_false] at hup hdown
    have hn : m = n := by omega
    cases s <;> simp [ExtendedMantissa.roundedMantissa, ExtendedMantissa.accuracy,
      Accuracy.roundToNearestEven, hn]
  | true =>
    simp only [Bool.toNat_true] at hup hdown hle hsticky
    push_cast at hle hsticky
    cases s with
    | false =>
      have htie : 2 * x = 2 * m + 1 := by
        by_contra hne
        exact absurd (hsticky.mpr hne) (by simp)
      have hcase : n = m ∨ n = m + 1 := by omega
      have hmod : n % 2 = 0 := by
        rcases hcase with rfl | rfl
        · exact heven (.inr (by linarith))
        · exact heven (.inl (by push_cast; linarith))
      simp only [ExtendedMantissa.roundedMantissa, ExtendedMantissa.accuracy, Accuracy.roundToNearestEven]
      omega
    | true =>
      have hne := hsticky.mp rfl
      have hgt : (2 * m + 1 : ℚ) < 2 * x := lt_of_le_of_ne hle (Ne.symm hne)
      have : (m : ℚ) < n := by linarith
      have : m < n := by exact_mod_cast this
      simp only [ExtendedMantissa.roundedMantissa, ExtendedMantissa.accuracy, Accuracy.roundToNearestEven]
      omega

/-! ## The exponent of the result -/

/-- The values that are rounded to `m * 2 ^ e`. -/
structure Near (m : Nat) (e : Int) (v : ℚ) : Prop where
  low : ((m : ℚ) - 1 / 2) * 2 ^ e ≤ v
  high : v ≤ (m + 1 / 2) * 2 ^ e
  even : v = ((m : ℚ) - 1 / 2) * 2 ^ e ∨ v = (m + 1 / 2) * 2 ^ e → m % 2 = 0
  /-- The gap below a power of two is half as wide. -/
  narrow : m = 2 ^ 52 → -1074 < e → ((m : ℚ) - 1 / 4) * 2 ^ e ≤ v

theorem two_zpow_pos (e : Int) : (0 : ℚ) < 2 ^ e := zpow_pos (by norm_num) e

theorem lt_of_two_zpow_lt {a b : Int} (h1 : (2 : ℚ) ^ a ≤ v) (h2 : v < 2 ^ b) : a < b :=
  (zpow_lt_zpow_iff_right₀ (by norm_num : (1 : ℚ) < 2)).mp (lt_of_le_of_lt h1 h2)

theorem two_zpow_add (a : Nat) (e : Int) : (2 : ℚ) ^ ((a : Int) + e) = 2 ^ a * 2 ^ e := by
  rw [zpow_add₀ (by norm_num), zpow_natCast]

theorem near_self (m : Nat) (e : Int) : Near m e (m * 2 ^ e) := by
  have hpos := two_zpow_pos e
  refine ⟨?_, ?_, ?_, fun _ _ => ?_⟩
  · exact mul_le_mul_of_nonneg_right (by linarith) hpos.le
  · exact mul_le_mul_of_nonneg_right (by linarith) hpos.le
  · rintro (heq | heq)
    · have := mul_right_cancel₀ hpos.ne' heq
      linarith
    · have := mul_right_cancel₀ hpos.ne' heq
      linarith
  · exact mul_le_mul_of_nonneg_right (by linarith) hpos.le

theorem Near.lt_two_zpow (hv : Near m e v) (h : Fits m e) : v < 2 ^ (53 + e) := by
  have hpos := two_zpow_pos e
  have hm : (m : ℚ) + 1 ≤ 2 ^ 53 := by exact_mod_cast h.lt
  have hhigh := hv.high
  rw [show (53 : Int) + e = ((53 : Nat) : Int) + e from rfl, two_zpow_add]
  nlinarith

theorem Near.eq_of_lt (hv : Near m e v) (h : Fits m e) (hlt : v < 2 ^ (52 + e)) (he : -1074 < e) : m = 2 ^ 52 := by
  have hpos := two_zpow_pos e
  have hnormal : 2 ^ 52 ≤ m := h.normal.resolve_right (by omega)
  by_contra hne
  have hm : (2 : ℚ) ^ 52 + 1 ≤ m := by exact_mod_cast (show 2 ^ 52 + 1 ≤ m by omega)
  have hlow := hv.low
  rw [show (52 : Int) + e = ((52 : Nat) : Int) + e from rfl, two_zpow_add] at hlt
  nlinarith

theorem lt_totalExponent (h : v / 2 ^ e < m + 1) : v < 2 ^ totalExponent m e := by
  have hpos := two_zpow_pos e
  have hm : (m : ℚ) + 1 ≤ 2 ^ (m.log2 + 1) := by exact_mod_cast lt_log2_self
  have hv : v < (m + 1) * 2 ^ e := (div_lt_iff₀ hpos).mp h
  have htotal : (2 : ℚ) ^ totalExponent m e = 2 ^ (m.log2 + 1) * 2 ^ e := by
    rw [totalExponent, ← two_zpow_add]
    rfl
  rw [htotal]
  exact lt_of_lt_of_le hv (mul_le_mul_of_nonneg_right hm hpos.le)

theorem totalExponent_le (hm : m ≠ 0) (h : (m : ℚ) ≤ v / 2 ^ e) : 2 ^ (totalExponent m e - 1) ≤ v := by
  have hpos := two_zpow_pos e
  have hlog : (2 : ℚ) ^ m.log2 ≤ m := by exact_mod_cast log2_self_le hm
  have hv : (m : ℚ) * 2 ^ e ≤ v := (le_div_iff₀ hpos).mp h
  have htotal : (2 : ℚ) ^ (totalExponent m e - 1) = 2 ^ m.log2 * 2 ^ e := by
    rw [totalExponent, ← two_zpow_add]
    congr 1
    omega
  rw [htotal]
  exact le_trans (mul_le_mul_of_nonneg_right hlog hpos.le) hv

theorem targetExponent_eq (t : Int) : Format.binary64.targetExponent t = max (t - 53) (-1074) := rfl

theorem Near.targetExponent {k : Int} (hv : Near m e v) (h : Fits m e)
    (hfloor : (n : ℚ) ≤ v / 2 ^ k ∧ v / 2 ^ k < n + 1) (hle : k ≤ Format.binary64.targetExponent (totalExponent n k)) :
    Format.binary64.targetExponent (totalExponent n k) = e ∨ v < m * 2 ^ e ∧ m = 2 ^ 52 ∧ -1074 < e
        ∧ Format.binary64.targetExponent (totalExponent n k) = e - 1 := by
  have hleast := h.least
  have hupper := lt_totalExponent hfloor.2
  have hlt := hv.lt_two_zpow h
  rw [targetExponent_eq] at hle ⊢
  -- Where nothing is left of the value, its exponent is the least one.
  have htotal : n = 0 → totalExponent n k = k + 1 := by
    rintro rfl
    show ((0 : Nat).log2 : Int) + 1 + k = _
    simp only [log2_zero]
    omega
  have hbound : totalExponent n k ≤ 53 + e := by
    by_cases hn : n = 0
    · have := htotal hn
      omega
    · have := lt_of_two_zpow_lt (totalExponent_le hn hfloor.1) hlt
      omega
  by_cases hcase : (2 : ℚ) ^ (52 + e) ≤ v
  · have := lt_of_two_zpow_lt hcase hupper
    left
    omega
  · rw [not_le] at hcase
    by_cases he : e = -1074
    · left
      omega
    · have he : -1074 < e := by omega
      have hm := hv.eq_of_lt h hcase he
      have hpos := two_zpow_pos e
      have hnarrow := hv.narrow hm he
      have hbelow : v < m * 2 ^ e := by
        rw [hm]
        rw [show (52 : Int) + e = ((52 : Nat) : Int) + e from rfl, two_zpow_add] at hcase
        push_cast
        exact hcase
      have hge : (2 : ℚ) ^ (51 + e) ≤ v := by
        rw [show (51 : Int) + e = ((51 : Nat) : Int) + e from rfl, two_zpow_add]
        refine le_trans (mul_le_mul_of_nonneg_right ?_ hpos.le) hnarrow
        rw [hm]
        norm_num
      have h1 := lt_of_two_zpow_lt hge hupper
      have h2 : totalExponent n k ≤ 52 + e := by
        by_cases hn : n = 0
        · have := htotal hn
          omega
        · have := lt_of_two_zpow_lt (totalExponent_le hn hfloor.1) hcase
          omega
      right
      exact ⟨hbelow, hm, he, by omega⟩

theorem shift_of_fits (hm : m < 2 ^ 53) (he : -1074 ≤ e) :
    shiftToTargetExponent .binary64 m e .exact = (⟨m, false, false⟩, e) := by
  have hlog : m.log2 ≤ 52 := by
    by_cases h : m = 0
    · rw [h, log2_zero]
      omega
    · have := (log2_lt h).mpr hm
      omega
  have hshift : (Format.binary64.targetExponent (totalExponent m e) - e).toNat = 0 := by
    rw [targetExponent_eq, totalExponent]
    omega
  simp only [shiftToTargetExponent, shiftToExponent, hshift]
  exact Prod.ext rfl (by simp)

theorem shift_of_carry (he : -1074 ≤ e) :
    shiftToTargetExponent .binary64 (2 ^ 53) e .exact = (⟨2 ^ 52, false, false⟩, e + 1) := by
  have hshift : (Format.binary64.targetExponent (totalExponent (2 ^ 53) e) - e).toNat = 1 := by
    rw [targetExponent_eq, totalExponent, log2_two_pow]
    omega
  simp only [shiftToTargetExponent, shiftToExponent, hshift]
  rfl

theorem round_near (s : Sign) {k : Int} {a : Accuracy} (hv : Near m e v) (h : Fits m e)
    (hcut : CutFrom (.ofMantissaAndAccuracy n a) (v / 2 ^ k))
    (hle : k ≤ Format.binary64.targetExponent (totalExponent n k)) :
    roundWithAccuracy .binary64 s n k a = .finite s m e h.pos := by
  have hmantissa : (ExtendedMantissa.ofMantissaAndAccuracy n a).mantissa = n := by
    unfold ExtendedMantissa.ofMantissaAndAccuracy
    split <;> rfl
  have hfloor := hcut.floor
  rw [hmantissa] at hfloor
  have htarget := hv.targetExponent h hfloor hle
  generalize ht : Format.binary64.targetExponent (totalExponent n k) = t at hle htarget
  -- The first shift cuts the value at the target exponent.
  have hfirst : shiftToTargetExponent .binary64 n k a
      = (ExtendedMantissa.ofMantissaAndAccuracy n a >>> (t - k).toNat, t) := by
    simp only [shiftToTargetExponent, shiftToExponent, ht]
    congr 1
    omega
  have hcut' : CutFrom (ExtendedMantissa.ofMantissaAndAccuracy n a >>> (t - k).toNat) (v / 2 ^ t) := by
    have hstep := hcut.shiftRight (t - k).toNat
    have hpow : (2 : ℚ) ^ t = 2 ^ k * 2 ^ (t - k).toNat := by
      rw [← zpow_natCast, ← zpow_add₀ (by norm_num)]
      congr 1
      omega
    rw [hpow, ← div_div]
    exact hstep
  have hpos := two_zpow_pos e
  rcases htarget with rfl | ⟨hbelow, hm, he, rfl⟩
  · have hround : (ExtendedMantissa.ofMantissaAndAccuracy n a >>> (t - k).toNat).roundedMantissa = m := by
      refine hcut'.roundedMantissa ((le_div_iff₀ hpos).mpr hv.low) ((div_le_iff₀ hpos).mpr hv.high) ?_
      rintro (heq | heq)
      · exact hv.even (.inl ((div_eq_iff hpos.ne').mp heq))
      · exact hv.even (.inr ((div_eq_iff hpos.ne').mp heq))
    have hne := h.pos.ne'
    simp only [roundWithAccuracy, hfirst, hround, shift_of_fits h.lt h.least, dif_neg hne]
  · -- One place below, the value rounds up to the power of two.
    have hpow : (2 : ℚ) ^ e = 2 ^ (e - 1) * 2 := by
      rw [zpow_sub_one₀ (by norm_num)]
      ring
    have hpos' := two_zpow_pos (e - 1)
    have hround : (ExtendedMantissa.ofMantissaAndAccuracy n a >>> (e - 1 - k).toNat).roundedMantissa
        = 2 ^ 53 := by
      have hnarrow := hv.narrow hm he
      rw [hpow, hm] at hnarrow hbelow
      refine hcut'.roundedMantissa ((le_div_iff₀ hpos').mpr ?_) ((div_le_iff₀ hpos').mpr ?_) fun _ => by decide
      · push_cast at hnarrow ⊢
        linarith
      · push_cast at hbelow ⊢
        linarith
    simp only [roundWithAccuracy, hfirst, hround, shift_of_carry (show -1074 ≤ e - 1 by omega)]
    rw [dif_neg (by decide)]
    congr 1
    · exact hm.symm
    · omega

theorem cutFrom_exact (n : Nat) : CutFrom (.ofMantissaAndAccuracy n .exact) n := by
  have hhalves : halves (.ofMantissaAndAccuracy n .exact) = 2 * n := by
    simp [halves, ExtendedMantissa.ofMantissaAndAccuracy]
  refine ⟨?_, ?_, ?_⟩ <;> rw [hhalves] <;> push_cast
  · exact le_refl _
  · linarith
  · simp [ExtendedMantissa.ofMantissaAndAccuracy]

theorem cutFrom_fraction (q : Nat) {r d : Nat} (hr : r < d) :
    CutFrom (.ofMantissaAndAccuracy q (accuracyOfFraction r d)) (q + (r : ℚ) / d) := by
  have hd : (0 : ℚ) < d := by exact_mod_cast (show 0 < d by omega)
  have hrd : (r : ℚ) / d < 1 := by
    rw [div_lt_one hd]
    exact_mod_cast hr
  unfold accuracyOfFraction
  by_cases hzero : r = 0
  · rw [if_pos hzero, hzero]
    simpa using cutFrom_exact q
  · rw [if_neg hzero]
    have hpos : (0 : ℚ) < (r : ℚ) / d := div_pos (by exact_mod_cast pos_of_ne_zero hzero) hd
    have htwice : (2 : ℚ) * (r / d) = ((2 * r : Nat) : ℚ) / d := by
      push_cast
      ring
    -- The accuracy says whether what is cut off is less than a half, a half or more.
    rcases hcmp : compare (2 * r) d with _ | _ | _
    · have hlt : (2 : ℚ) * (r / d) < 1 := by
        rw [htwice, div_lt_one hd]
        exact_mod_cast Nat.compare_eq_lt.mp hcmp
      refine ⟨?_, ?_, ?_⟩ <;> simp only [halves, ExtendedMantissa.ofMantissaAndAccuracy] <;> push_cast <;>
        simp only [Bool.toNat_false, cast_zero, add_zero, true_iff]
      · linarith
      · linarith
      · intro heq
        linarith
    · have heq : (2 : ℚ) * (r / d) = 1 := by
        rw [htwice, div_eq_one_iff_eq hd.ne']
        exact_mod_cast Nat.compare_eq_eq.mp hcmp
      refine ⟨?_, ?_, ?_⟩ <;> simp only [halves, ExtendedMantissa.ofMantissaAndAccuracy] <;> push_cast <;>
        simp only [Bool.toNat_true, cast_one, false_iff, not_not]
      · linarith
      · linarith
      · linarith
    · have hgt : (1 : ℚ) < 2 * (r / d) := by
        rw [htwice, one_lt_div hd]
        exact_mod_cast Nat.compare_eq_gt.mp hcmp
      refine ⟨?_, ?_, ?_⟩ <;> simp only [halves, ExtendedMantissa.ofMantissaAndAccuracy] <;> push_cast <;>
        simp only [Bool.toNat_true, cast_one, true_iff]
      · linarith
      · linarith
      · intro heq
        linarith

theorem mul_near (hv : Near m e v) (h : Fits m e) (h₁ : 0 < m₁) (h₂ : 0 < m₂) (hval : v = m₁ * 2 ^ e₁ * (m₂ * 2 ^ e₂))
    (hlong : 2 ^ 52 ≤ m₁ * m₂) : UnpackedFloat.mul .binary64 (.finite .positive m₁ e₁ h₁) (.finite .positive m₂ e₂ h₂)
      = .finite .positive m e h.pos := by
  have hpos := two_zpow_pos (e₁ + e₂)
  have hquot : v / 2 ^ (e₁ + e₂) = ((m₁ * m₂ : Nat) : ℚ) := by
    rw [div_eq_iff hpos.ne', hval, zpow_add₀ (by norm_num)]
    push_cast
    ring
  have hlog : 52 ≤ (m₁ * m₂).log2 := (le_log2 (by omega)).mpr hlong
  refine round_near .positive hv h (hquot ▸ cutFrom_exact (m₁ * m₂)) ?_
  rw [targetExponent_eq, totalExponent]
  omega

theorem div_near (hv : Near m e v) (h : Fits m e) (h₁ : 0 < m₁) (h₂ : 0 < m₂) (hval : v = m₁ * 2 ^ e₁ / (m₂ * 2 ^ e₂)) :
    UnpackedFloat.div .binary64 (.finite .positive m₁ e₁ h₁) (.finite .positive m₂ e₂ h₂)
      = .finite .positive m e h.pos := by
  simp only [UnpackedFloat.div, divCore, targetExponent_eq]
  generalize ht : min (e₁ - e₂) (max (totalExponent m₁ e₁ - totalExponent m₂ e₂ - 53) (-1074)) = t
  generalize hs : (e₁ - e₂ - t).toNat = shift
  have hdiff : ((shift : Nat) : Int) = e₁ - e₂ - t := by omega
  have hm₂ : (0 : ℚ) < m₂ := by exact_mod_cast h₂
  -- The value at the chosen exponent is the integer quotient and the fraction that is left.
  have hquot : v / 2 ^ t = ((m₁ <<< shift / m₂ : Nat) : ℚ) + ((m₁ <<< shift % m₂ : Nat) : ℚ) / m₂ := by
    have hnum : v / 2 ^ t = ((m₁ <<< shift : Nat) : ℚ) / m₂ := by
      have hpow : (2 : ℚ) ^ e₁ = 2 ^ e₂ * 2 ^ t * 2 ^ shift := by
        rw [← zpow_natCast, hdiff, ← zpow_add₀ (by norm_num), ← zpow_add₀ (by norm_num)]
        congr 1
        omega
      have he₂ := (two_zpow_pos e₂).ne'
      have htpos := (two_zpow_pos t).ne'
      rw [hval, hpow, shiftLeft_eq]
      push_cast
      field_simp
    rw [hnum, eq_comm, ← sub_eq_zero]
    have hdm : (m₁ <<< shift / m₂ : Nat) * m₂ + m₁ <<< shift % m₂ = m₁ <<< shift := by
      rw [mul_comm]
      exact div_add_mod _ _
    have hcast : ((m₁ <<< shift / m₂ : Nat) : ℚ) * m₂ + ((m₁ <<< shift % m₂ : Nat) : ℚ)
        = ((m₁ <<< shift : Nat) : ℚ) := by exact_mod_cast hdm
    field_simp
    linarith
  have hcut := cutFrom_fraction (m₁ <<< shift / m₂) (mod_lt (m₁ <<< shift) h₂)
  refine round_near .positive hv h (hquot ▸ hcut) ?_
  rw [targetExponent_eq]
  -- Unless the exponent is the least one already, the quotient has 53 bits or more.
  by_cases hleast : t ≤ -1074
  · omega
  · have hlong : 2 ^ 52 ≤ m₁ <<< shift / m₂ := by
      rw [le_div_iff_mul_le h₂, shiftLeft_eq]
      have hlow := log2_self_le h₁.ne'
      have hhigh := (@Nat.lt_log2_self m₂).le
      have hexp : 52 + (m₂.log2 + 1) ≤ m₁.log2 + shift := by
        simp only [totalExponent] at ht
        omega
      calc 2 ^ 52 * m₂ ≤ 2 ^ 52 * 2 ^ (m₂.log2 + 1) := mul_le_mul_left _ hhigh
        _ = 2 ^ (52 + (m₂.log2 + 1)) := (pow_add _ _ _).symm
        _ ≤ 2 ^ (m₁.log2 + shift) := Nat.pow_le_pow_right (by decide) hexp
        _ = 2 ^ m₁.log2 * 2 ^ shift := pow_add _ _ _
        _ ≤ m₁ * 2 ^ shift := mul_le_mul_right _ hlow
    have hlog : 52 ≤ (m₁ <<< shift / m₂).log2 := (le_log2 (by omega)).mpr hlong
    rw [totalExponent]
    omega

end AnimatedChart.Decimal
