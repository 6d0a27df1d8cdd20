import AnimatedChart.Proofs.Decimal.Roundtrip

/-!
# Whole numbers and comparisons

Sums, differences, products and quotients of whole numbers are exact as long as they are whole numbers below `2 ^ 53`
themselves (`IsWhole.add` and its siblings).
-/

namespace AnimatedChart.Decimal

open Float.Model Float.Model.UnpackedFloat

variable {e k : Int} {f : UnpackedFloat} {m n : Nat} {x y : Float}

/-! ## Comparisons -/

theorem compare_self (h : f.isNaN = false) : f.compare f = some .eq := by
  cases f with
  | notANumber => exact Bool.noConfusion h
  | infinity s => cases s <;> rfl
  | zero s => cases s <;> rfl
  | finite s m e hm => cases s <;> simp [UnpackedFloat.compare]

theorem isSome_compare (f g : UnpackedFloat) : (f.compare g).isSome = !(f.isNaN || g.isNaN) := by
  rcases f with ⟨_ | _⟩ | _ | ⟨_ | _⟩ | ⟨_ | _, m, e, hm⟩ <;>
    rcases g with ⟨_ | _⟩ | _ | ⟨_ | _⟩ | ⟨_ | _, m', e', hm'⟩ <;> rfl

theorem compare_swap (f g : UnpackedFloat) : g.compare f = (f.compare g).map Ordering.swap := by
  have hfinite (m m' : Nat) (e e' : Int) :
      (compare e' e).then (compare m' m) = ((compare e e').then (compare m m')).swap := by
    rw [Ordering.swap_then, ← Std.OrientedOrd.eq_swap, ← Std.OrientedOrd.eq_swap]
  rcases f with ⟨_ | _⟩ | _ | ⟨_ | _⟩ | ⟨_ | _, m, e, hm⟩ <;>
    rcases g with ⟨_ | _⟩ | _ | ⟨_ | _⟩ | ⟨_ | _, m', e', hm'⟩ <;> try rfl
  · exact congrArg (fun o => some o.swap) (hfinite m m' e e')
  · exact congrArg some (hfinite m m' e e')

theorem beq_iff : (x == y) = true ↔ x.toModel.unpack.compare y.toModel.unpack = some .eq := by
  show (x.toModel.unpack.compare y.toModel.unpack == some .eq) = true ↔ _
  rw [beq_iff_eq]

theorem lt_iff : x < y ↔ x.toModel.unpack.compare y.toModel.unpack = some .lt := by
  show decide ((x.toModel.unpack.compare y.toModel.unpack == some .lt) = true) = true ↔ _
  rw [decide_eq_true_iff, beq_iff_eq]

theorem le_iff : x ≤ y ↔ ∃ o, x.toModel.unpack.compare y.toModel.unpack = some o ∧ o ≠ .gt := by
  show decide (((x.toModel.unpack.compare y.toModel.unpack).any (·.isLE)) = true) = true ↔ _
  rw [decide_eq_true_iff]
  cases x.toModel.unpack.compare y.toModel.unpack with
  | none => simp
  | some o => cases o <;> simp

theorem beq_self (h : x.isNaN = false) : (x == x) = true := beq_iff.mpr (compare_self h)

theorem zero_add_beq : (0 + x == x) = true ↔ x.isNaN = false := by
  refine ⟨fun h => ?_, fun h => ?_⟩
  · have hsome := isSome_compare (0 + x).toModel.unpack x.toModel.unpack
    rw [beq_iff.mp h] at hsome
    exact (Bool.or_eq_false_iff.mp (Bool.not_eq_eq_eq_not.mp hsome.symm)).2
  have hsum : (0 + x).toModel.unpack
      = (Float.Model.pack (.add .binary64 (.zero .positive) x.toModel.unpack)).unpack := rfl
  have hself : (Float.Model.pack x.toModel.unpack).unpack = x.toModel.unpack :=
    congrArg (fun y : Float => y.toModel.unpack) (eq_pack_unpack x).symm
  have hnan : x.toModel.unpack.isNaN = false := h
  rw [beq_iff, hsum]
  cases hx : x.toModel.unpack with
  | notANumber =>
    rw [hx] at hnan
    exact Bool.noConfusion hnan
  | zero s => cases s <;> rfl
  | infinity s =>
    rw [hx] at hself hnan
    show (Float.Model.pack (.infinity s)).unpack.compare _ = _
    rw [hself, compare_self hnan]
  | finite s m e hm =>
    rw [hx] at hself hnan
    show (Float.Model.pack (.finite s m e hm)).unpack.compare _ = _
    rw [hself, compare_self hnan]

/-! ## Whole numbers -/

theorem pos_of_exact (h : Fits m e) (hval : (n : ℚ) * 2 ^ k = m * 2 ^ e) : 0 < n := by
  refine Nat.pos_of_ne_zero fun hzero => ?_
  have hm : (0 : ℚ) < m := by exact_mod_cast h.pos
  have hpos := mul_pos hm (two_zpow_pos e)
  rw [← hval, hzero, Nat.cast_zero, zero_mul] at hpos
  exact hpos.false

theorem round_exact (s : Sign) (h : Fits m e) (hval : (n : ℚ) * 2 ^ k = m * 2 ^ e) :
    UnpackedFloat.round .binary64 s n k = .finite s m e h.pos := by
  have hpos := pos_of_exact h hval
  simp only [UnpackedFloat.round, decreaseExponent]
  generalize ht : Format.binary64.targetExponent (totalExponent n k) = t
  generalize hs : (k - t).toNat = shift
  refine round_near s (near_self m e) h ?_ ?_
  · have hshift : (m : ℚ) * 2 ^ e / 2 ^ (k - shift) = ((n <<< shift : Nat) : ℚ) := by
      rw [← hval, Nat.shiftLeft_eq, zpow_sub₀ (by norm_num), zpow_natCast]
      have hk := (two_zpow_pos k).ne'
      push_cast
      field_simp
    exact hshift ▸ cutFrom_exact _
  · have hlog : (n <<< shift).log2 = n.log2 + shift := by
      rw [Nat.shiftLeft_eq, Nat.log2_eq_iff (Nat.mul_pos hpos (Nat.two_pow_pos shift)).ne', Nat.pow_add,
        Nat.add_right_comm, Nat.pow_add]
      exact ⟨Nat.mul_le_mul_right _ (Nat.log2_self_le hpos.ne'),
        Nat.mul_lt_mul_of_pos_right Nat.lt_log2_self (Nat.two_pow_pos shift)⟩
    rw [targetExponent_eq, totalExponent] at ht ⊢
    rw [hlog]
    omega

theorem normalize_exact {c : Nat} (h : Fits m e) (hval : (c : ℚ) * 2 ^ k = m * 2 ^ e) :
    UnpackedFloat.normalize .binary64 (c : Int) k .positive = .finite .positive m e h.pos := by
  have hcmp : compare (c : Int) 0 = .gt :=
    compare_gt_iff_gt.mpr (Int.natCast_pos.mpr (pos_of_exact h hval))
  simp only [UnpackedFloat.normalize, hcmp, Int.toNat_natCast]
  exact round_exact .positive h hval

theorem ofNat_eq_finite (hpos : 0 < n) (hn : n < 2 ^ 53) : ∃ (m : Nat) (e : Int) (h : Fits m e),
      UnpackedFloat.ofNat .binary64 n = .finite .positive m e h.pos ∧ (m : ℚ) * 2 ^ e = n ∧ 2 ^ 52 ≤ m := by
  obtain ⟨m, e, h, -, hm, hlong⟩ := toFloat_small hpos hn
  exact ⟨m, e, h, normalize_exact h (by rw [zpow_zero, mul_one, hm]), hm, hlong⟩

theorem normalize_whole {c : Nat} (hn : n < 2 ^ 53) (hval : (c : ℚ) * 2 ^ k = n) :
    UnpackedFloat.normalize .binary64 (c : Int) k .positive = .ofNat .binary64 n := by
  rcases Nat.eq_zero_or_pos n with rfl | hpos
  · have hc : c = 0 := by
      rw [Nat.cast_zero, mul_eq_zero] at hval
      exact_mod_cast hval.resolve_right (two_zpow_pos k).ne'
    rw [hc]
    rfl
  · obtain ⟨m, e, h, heq, hm, -⟩ := ofNat_eq_finite hpos hn
    rw [heq]
    exact normalize_exact h (hval.trans hm.symm)

/-- The number is a natural number of up to 53 bits. -/
structure IsWhole (x : Float) (n : Nat) : Prop where
  unpack : x.toModel.unpack = .ofNat .binary64 n
  lt : n < 2 ^ 53

theorem isWhole_pack (hn : n < 2 ^ 53) : IsWhole (.ofModel (.pack (.ofNat .binary64 n))) n := by
  refine ⟨?_, hn⟩
  rcases Nat.eq_zero_or_pos n with rfl | hpos
  · rfl
  · obtain ⟨m, e, h, heq, -⟩ := ofNat_eq_finite hpos hn
    rw [heq]
    exact unpack_pack .positive h

namespace IsWhole

variable {x y : Float} {a b : Nat}

theorem eq (hx : IsWhole x a) (hy : IsWhole y a) : x = y := by
  have hpack {x : Float} (h : IsWhole x a) : x = .ofModel (.pack (.ofNat .binary64 a)) :=
    h.unpack ▸ eq_pack_unpack x
  rw [hpack hx, hpack hy]

theorem ofNat (hn : n < 2 ^ 53) : IsWhole (Float.ofNat n) n := by
  rcases Nat.eq_zero_or_pos n with rfl | hpos
  · exact ⟨rfl, hn⟩
  · obtain ⟨m, e, h, heq, hm, -⟩ := ofNat_eq_finite hpos hn
    have hv : Near m e (decimalValue n 0) := by
      rw [decimalValue, zpow_zero, mul_one, ← hm]
      exact near_self m e
    have hread : Float.ofNat n = number .positive h := ofScientific_near hpos h hv
    exact ⟨by rw [hread, unpack_number, heq], hn⟩

theorem of_unpacked (hn : n < 2 ^ 53) (h : f = .ofNat .binary64 n) :
    IsWhole (.ofModel (.pack f)) n := h ▸ isWhole_pack hn

theorem aligned (hk : k ≤ e) : ((m <<< (e - k).toNat : Nat) : ℚ) * 2 ^ k = m * 2 ^ e := by
  rw [Nat.shiftLeft_eq]
  push_cast
  rw [mul_assoc, ← zpow_natCast, ← zpow_add₀ (by norm_num)]
  congr 2
  omega

theorem add (hx : IsWhole x a) (hy : IsWhole y b) (hn : a + b < 2 ^ 53) : IsWhole (x + y) (a + b) := by
  refine of_unpacked (f := .add .binary64 x.toModel.unpack y.toModel.unpack) hn ?_
  rw [hx.unpack, hy.unpack]
  rcases Nat.eq_zero_or_pos a with rfl | ha
  · rw [Nat.zero_add]
    rcases Nat.eq_zero_or_pos b with rfl | hb
    · rfl
    · obtain ⟨m, e, h, heq, -⟩ := ofNat_eq_finite hb hy.lt
      rw [heq]
      rfl
  · obtain ⟨m₁, e₁, h₁, heq₁, hm₁, -⟩ := ofNat_eq_finite ha hx.lt
    rcases Nat.eq_zero_or_pos b with rfl | hb
    · rw [Nat.add_zero, heq₁]
      rfl
    · obtain ⟨m₂, e₂, h₂, heq₂, hm₂, -⟩ := ofNat_eq_finite hb hy.lt
      rw [heq₁, heq₂]
      show UnpackedFloat.normalize .binary64 ((_ : Nat) + (_ : Nat) : Int) (min e₁ e₂) .positive = _
      rw [← Nat.cast_add]
      refine normalize_whole hn ?_
      push_cast
      rw [add_mul, aligned (min_le_left e₁ e₂), aligned (min_le_right e₁ e₂), hm₁, hm₂]

theorem sub (hx : IsWhole x a) (hy : IsWhole y b) (hle : b ≤ a) : IsWhole (x - y) (a - b) := by
  have hn : a - b < 2 ^ 53 := Nat.lt_of_le_of_lt (Nat.sub_le a b) hx.lt
  refine of_unpacked (f := .sub .binary64 x.toModel.unpack y.toModel.unpack) hn ?_
  rw [hx.unpack, hy.unpack]
  rcases Nat.eq_zero_or_pos b with rfl | hb
  · rw [Nat.sub_zero]
    rcases Nat.eq_zero_or_pos a with rfl | ha
    · rfl
    · obtain ⟨m, e, h, heq, -⟩ := ofNat_eq_finite ha hx.lt
      rw [heq]
      rfl
  · obtain ⟨m₁, e₁, h₁, heq₁, hm₁, -⟩ := ofNat_eq_finite (Nat.lt_of_lt_of_le hb hle) hx.lt
    obtain ⟨m₂, e₂, h₂, heq₂, hm₂, -⟩ := ofNat_eq_finite hb hy.lt
    have hval₁ := (aligned (m := m₁) (min_le_left e₁ e₂)).trans hm₁
    have hval₂ := (aligned (m := m₂) (min_le_right e₁ e₂)).trans hm₂
    rw [heq₁, heq₂]
    show UnpackedFloat.normalize .binary64
      ((m₁ <<< (e₁ - min e₁ e₂).toNat : Nat) - (m₂ <<< (e₂ - min e₁ e₂).toNat : Nat) : Int) (min e₁ e₂) .positive = _
    generalize m₁ <<< (e₁ - min e₁ e₂).toNat = c₁ at hval₁ ⊢
    generalize m₂ <<< (e₂ - min e₁ e₂).toNat = c₂ at hval₂ ⊢
    have hc : c₂ ≤ c₁ := by
      have hcast : (b : ℚ) ≤ a := by exact_mod_cast hle
      rw [← hval₁, ← hval₂] at hcast
      exact_mod_cast le_of_mul_le_mul_right hcast (two_zpow_pos _)
    rw [← Nat.cast_sub hc]
    refine normalize_whole hn ?_
    rw [Nat.cast_sub hc, Nat.cast_sub hle, sub_mul, hval₁, hval₂]

theorem mul (hx : IsWhole x a) (hy : IsWhole y b) (hn : a * b < 2 ^ 53) : IsWhole (x * y) (a * b) := by
  refine of_unpacked (f := .mul .binary64 x.toModel.unpack y.toModel.unpack) hn ?_
  rw [hx.unpack, hy.unpack]
  rcases Nat.eq_zero_or_pos a with rfl | ha
  · rw [Nat.zero_mul]
    rcases Nat.eq_zero_or_pos b with rfl | hb
    · rfl
    · obtain ⟨m, e, h, heq, -⟩ := ofNat_eq_finite hb hy.lt
      rw [heq]
      rfl
  · obtain ⟨m₁, e₁, h₁, heq₁, hm₁, hlong⟩ := ofNat_eq_finite ha hx.lt
    rcases Nat.eq_zero_or_pos b with rfl | hb
    · rw [Nat.mul_zero, heq₁]
      rfl
    · obtain ⟨m₂, e₂, h₂, heq₂, hm₂, -⟩ := ofNat_eq_finite hb hy.lt
      obtain ⟨m, e, h, heq, hm, -⟩ := ofNat_eq_finite (Nat.mul_pos ha hb) hn
      rw [heq₁, heq₂, heq]
      refine mul_near (near_self m e) h h₁.pos h₂.pos ?_ (Nat.le_trans hlong (Nat.le_mul_of_pos_right _ h₂.pos))
      rw [hm, hm₁, hm₂, Nat.cast_mul]

theorem div (hx : IsWhole x (a * b)) (hy : IsWhole y b) (hb : 0 < b) : IsWhole (x / y) a := by
  have hn : a < 2 ^ 53 := Nat.lt_of_le_of_lt (Nat.le_mul_of_pos_right a hb) hx.lt
  refine of_unpacked (f := .div .binary64 x.toModel.unpack y.toModel.unpack) hn ?_
  obtain ⟨m₂, e₂, h₂, heq₂, hm₂, -⟩ := ofNat_eq_finite hb hy.lt
  rw [hx.unpack, hy.unpack, heq₂]
  rcases Nat.eq_zero_or_pos a with rfl | ha
  · rw [Nat.zero_mul]
    rfl
  · obtain ⟨m₁, e₁, h₁, heq₁, hm₁, -⟩ := ofNat_eq_finite (Nat.mul_pos ha hb) hx.lt
    obtain ⟨m, e, h, heq, hm, -⟩ := ofNat_eq_finite ha hn
    rw [heq₁, heq]
    refine div_near (near_self m e) h h₁.pos h₂.pos ?_
    have hne : (b : ℚ) ≠ 0 := by exact_mod_cast hb.ne'
    rw [hm, hm₁, hm₂, Nat.cast_mul, mul_div_cancel_right₀ _ hne]

end IsWhole

end AnimatedChart.Decimal
