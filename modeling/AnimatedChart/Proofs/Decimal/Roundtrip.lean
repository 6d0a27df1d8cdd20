import AnimatedChart.Json.Value
import AnimatedChart.Proofs.Decimal.Reading

/-!
# Written numbers read back

A finite number is written by the shortest decimal that lies among the values that round to it (`Dyadic.shortest_near`).
-/

open List Nat

namespace AnimatedChart.Decimal

open Float.Model Float.Model.UnpackedFloat

variable {d : Scientific} {ds rest : List Char} {i j : Int} {n : Nat} {x : Float} {l : Literal}

/-! ## The shortest decimal -/

def Scientific.value (d : Scientific) : ℚ := decimalValue d.digits d.exponent

theorem scaled_eq (a n : Nat) (i j : Int) : ∃ k : ℚ, 0 < k
      ∧ ((a * Nat.pow 10 i.toNat * Nat.pow 2 (-j).toNat : Nat) : ℚ) = decimalValue a i * k
      ∧ ((n * Nat.pow 2 j.toNat * Nat.pow 10 (-i).toNat : Nat) : ℚ) = n * 2 ^ j * k := by
  have hten : (10 : ℚ) ^ i.toNat = 10 ^ i * 10 ^ (-i).toNat := by
    rw [← zpow_natCast, ← zpow_natCast, ← zpow_add₀ (by norm_num)]
    congr 1
    omega
  have htwo : (2 : ℚ) ^ j.toNat = 2 ^ j * 2 ^ (-j).toNat := by
    rw [← zpow_natCast, ← zpow_natCast, ← zpow_add₀ (by norm_num)]
    congr 1
    omega
  refine ⟨10 ^ (-i).toNat * 2 ^ (-j).toNat, by positivity, ?_, ?_⟩
  · rw [decimalValue, pow_eq, pow_eq]
    push_cast
    rw [hten]
    ring
  · rw [pow_eq, pow_eq]
    push_cast
    rw [htwo]
    ring

theorem compareScaled_eq_gt {a : Nat} : compareScaled a i n j = .gt ↔ (n : ℚ) * 2 ^ j < decimalValue a i := by
  obtain ⟨k, hk, hleft, hright⟩ := scaled_eq a n i j
  rw [compareScaled, Nat.compare_eq_gt, ← Nat.cast_lt (α := ℚ), hleft, hright, mul_lt_mul_iff_left₀ hk]

theorem compareScaled_eq_lt {a : Nat} : compareScaled a i n j = .lt ↔ decimalValue a i < (n : ℚ) * 2 ^ j := by
  obtain ⟨k, hk, hleft, hright⟩ := scaled_eq a n i j
  rw [compareScaled, Nat.compare_eq_lt, ← Nat.cast_lt (α := ℚ), hleft, hright, mul_lt_mul_iff_left₀ hk]

theorem compareScaled_eq_eq {a : Nat} : compareScaled a i n j = .eq ↔ decimalValue a i = (n : ℚ) * 2 ^ j := by
  obtain ⟨k, hk, hleft, hright⟩ := scaled_eq a n i j
  rw [compareScaled, Nat.compare_eq_eq, ← Nat.cast_inj (R := ℚ), hleft, hright, mul_left_inj' hk.ne']

theorem quarters_mul (n : ℚ) (e : Int) : n * 2 ^ (e - 2) = n / 4 * 2 ^ e := by
  rw [zpow_sub₀ (by norm_num)]
  ring

def Dyadic.Regular (x : Dyadic) : Prop :=
  0 < x.mantissa ∧ (x.narrow = true ↔ x.mantissa = 2 ^ 52 ∧ -1074 < x.exponent)

theorem le_and_of_eq {a b : ℚ} {p : Prop} (h : a < b ∨ p ∧ a = b) : a ≤ b ∧ (a = b → p) := by
  rcases h with hlt | ⟨hp, heq⟩
  · exact ⟨hlt.le, fun heq => absurd heq hlt.ne⟩
  · exact ⟨heq.le, fun _ => hp⟩

theorem Dyadic.near_of_readsBack {x : Dyadic} (hx : x.Regular) (h : x.readsBack d = true) :
    Near x.mantissa x.exponent d.value := by
  obtain ⟨hpos, hnarrow⟩ := hx
  simp only [readsBack, Bool.and_eq_true, Bool.or_eq_true, beq_iff_eq, compareScaled_eq_gt, compareScaled_eq_lt,
    compareScaled_eq_eq, quarters_mul] at h
  obtain ⟨hlow, hhigh⟩ := h
  have hscale := two_zpow_pos x.exponent
  have hup : (((4 * x.mantissa + 2 : Nat) : ℚ) / 4) = x.mantissa + 1 / 2 := by
    push_cast
    ring
  rw [hup] at hhigh
  obtain ⟨hhigh, heven⟩ := le_and_of_eq hhigh
  have hlow := le_and_of_eq (hlow.imp_right (And.imp_right Eq.symm))
  -- Below the least mantissa of an exponent the floats lie twice as close.
  by_cases hn : x.narrow = true
  · have hdown : (((4 * x.mantissa - 1 : Nat) : ℚ) / 4) = x.mantissa - 1 / 4 := by
      rw [cast_sub (by omega)]
      push_cast
      ring
    rw [if_pos hn, hdown] at hlow
    have hlow' : (x.mantissa - 1 / 4) * 2 ^ x.exponent ≤ d.value := hlow.1
    have hless : ((x.mantissa : ℚ) - 1 / 2) * 2 ^ x.exponent < (x.mantissa - 1 / 4) * 2 ^ x.exponent :=
      mul_lt_mul_of_pos_right (by linarith) hscale
    refine ⟨by linarith, hhigh, ?_, fun _ _ => hlow'⟩
    rintro (heq | heq)
    · linarith
    · exact heven heq
  · have hdown : (((4 * x.mantissa - 2 : Nat) : ℚ) / 4) = x.mantissa - 1 / 2 := by
      rw [cast_sub (by omega)]
      push_cast
      ring
    rw [if_neg hn, hdown] at hlow
    refine ⟨hlow.1, hhigh, ?_, fun hm he => absurd (hnarrow.mpr ⟨hm, he⟩) hn⟩
    rintro (heq | heq)
    · exact hlow.2 heq.symm
    · exact heven heq

theorem Dyadic.readsBack_onGrid {x : Dyadic} {g : Int} (h : x.onGrid g = some d) : x.readsBack d = true := by
  simp only [onGrid] at h
  split at h
  · next hdown hup =>
    split at h
    · rw [← Option.some.inj h]
      exact hdown
    · rw [← Option.some.inj h]
      exact hup
    · split at h
      · rw [← Option.some.inj h]
        exact hdown
      · rw [← Option.some.inj h]
        exact hup
  · next hdown hup =>
    rw [← Option.some.inj h]
    exact hdown
  · next hdown hup =>
    rw [← Option.some.inj h]
    exact hup
  · exact absurd h (by simp)

theorem Dyadic.value_exact (x : Dyadic) : x.exact.value = x.mantissa * 2 ^ x.exponent := by
  unfold exact
  split
  · next h =>
    obtain ⟨k, hk⟩ := Int.eq_ofNat_of_zero_le h
    simp only [Scientific.value, decimalValue, hk, pow_eq]
    push_cast
    simp
  · next h =>
    obtain ⟨k, hk⟩ := Int.eq_ofNat_of_zero_le (show 0 ≤ -x.exponent by omega)
    have he : x.exponent = -(k : Int) := by omega
    simp only [Scientific.value, decimalValue, he, Int.neg_neg, Int.toNat_natCast, pow_eq]
    rw [zpow_neg, zpow_neg, zpow_natCast, zpow_natCast, show (10 : ℚ) = 5 * 2 by norm_num, mul_pow]
    push_cast
    field_simp

theorem Scientific.value_strip (d : Scientific) : d.strip.value = d.value := by
  fun_induction strip d with
  | case1 d h ih =>
    rw [ih]
    have hdiv : d.digits = 10 * (d.digits / 10) := by omega
    simp only [value, decimalValue]
    conv_rhs => rw [hdiv]
    rw [zpow_add_one₀ (by norm_num)]
    push_cast
    ring
  | case2 d h => rfl

theorem Dyadic.shortest_near {x : Dyadic} (hx : x.Regular) : Near x.mantissa x.exponent x.shortest.value := by
  have hpos := hx.1
  rw [shortest, if_neg (by omega)]
  simp only [Scientific.value_strip]
  cases hfind : (List.range 17).findSome? fun n : Nat => x.onGrid (x.magnitude - 1 - (n : Int)) with
  | some d =>
    obtain ⟨n, _, hd⟩ := exists_of_findSome?_eq_some hfind
    exact near_of_readsBack hx (readsBack_onGrid hd)
  | none =>
    rw [Option.getD_none, value_exact]
    exact near_self _ _

theorem Dyadic.regular_ofBits {bits : UInt64} (h : 0 < (ofBits bits).mantissa) : (ofBits bits).Regular :=
  ⟨h, narrow_ofBits bits⟩

/-! ## Literals -/

/-- The parts of a number literal without its sign. -/
structure Literal where
  whole : List Char
  /-- The digits behind the point; without digits there is no point. -/
  fraction : List Char
  /-- The sign and the digits of the exponent. -/
  exponent : Option (Bool × List Char)

namespace Literal

def exponentText : Option (Bool × List Char) → List Char
  | none => []
  | some (negative, ds) => 'e' :: (if negative then '-' else '+') :: ds

def text (l : Literal) : List Char :=
  l.whole ++ ((if l.fraction.isEmpty then [] else '.' :: l.fraction) ++ exponentText l.exponent)

def exponentValue : Option (Bool × List Char) → Int
  | none => 0
  | some (negative, ds) => exponentOfDigits negative ds

def value (l : Literal) : ℚ :=
  decimalValue (natOfDigits (l.whole ++ l.fraction)) (exponentValue l.exponent - (l.fraction.length : Int))

/-- The literals that documents may hold. -/
structure Valid (l : Literal) : Prop where
  whole : l.whole.all Char.isDigit = true
  fraction : l.fraction.all Char.isDigit = true
  nonempty : l.whole ≠ []
  /-- A zero before other digits is not allowed. -/
  leading : l.whole = ['0'] ∨ l.whole.head? ≠ some '0'
  exponent : ∀ e ∈ l.exponent, e.2.all Char.isDigit = true ∧ e.2 ≠ []

end Literal

theorem takeWhile_digits (h : ds.all Char.isDigit = true) (hrest : rest.head?.any Char.isDigit = false) :
    (ds ++ rest).takeWhile Char.isDigit = ds := by
  rw [takeWhile_append_of_pos (by simpa using h)]
  cases rest with
  | nil => simp
  | cons c cs => rw [takeWhile_cons_of_neg (by simpa using hrest), append_nil]

theorem dropWhile_digits (h : ds.all Char.isDigit = true) (hrest : rest.head?.any Char.isDigit = false) :
    (ds ++ rest).dropWhile Char.isDigit = rest := by
  rw [dropWhile_append_of_pos (by simpa using h)]
  cases rest with
  | nil => rfl
  | cons c cs => rw [dropWhile_cons_of_neg (by simpa using hrest)]

theorem Literal.head_exponentText (e : Option (Bool × List Char)) :
    (exponentText e).head?.any Char.isDigit = false := by
  rcases e with _ | ⟨negative, ds⟩ <;> rfl

def splitFraction : List Char → List Char × List Char
  | '.' :: rest => (rest.takeWhile Char.isDigit, rest.dropWhile Char.isDigit)
  | cs => ([], cs)

def exponentOf : List Char → Int
  | _ :: '-' :: ds => exponentOfDigits true ds
  | _ :: '+' :: ds => exponentOfDigits false ds
  | _ :: ds => exponentOfDigits false ds
  | [] => 0

theorem numberOfLiteral_eq (cs : List Char) : Json.numberOfLiteral? (String.ofList cs) =
      let negative := cs.head? == some '-'
      let body := if negative then cs.drop 1 else cs
      let r := splitFraction (body.dropWhile Char.isDigit)
      ofDecimal negative (body.takeWhile Char.isDigit ++ r.1) (exponentOf r.2 - (r.1.length : Int)) := by
  rw [Json.numberOfLiteral?, String.toList_ofList]
  rfl

theorem Literal.exponentOf_exponentText (e : Option (Bool × List Char)) :
    exponentOf (exponentText e) = exponentValue e := by
  rcases e with _ | ⟨n, ds⟩
  · rfl
  · cases n <;> rfl

theorem Literal.splitFraction_text (h : l.Valid) :
    splitFraction ((if l.fraction.isEmpty then [] else '.' :: l.fraction) ++ exponentText l.exponent)
      = (l.fraction, exponentText l.exponent) := by
  cases hf : l.fraction with
  | nil => rcases l.exponent with _ | ⟨n, ds⟩ <;> rfl
  | cons c cs =>
    have hdigits := h.fraction
    rw [hf] at hdigits
    exact Prod.ext (takeWhile_digits hdigits (head_exponentText _)) (dropWhile_digits hdigits (head_exponentText _))

theorem Literal.head_text (h : l.Valid) : (l.text.head? == some '-') = false := by
  rcases hw : l.whole with _ | ⟨c, cs⟩
  · exact absurd hw h.nonempty
  · have hdigit := h.whole
    rw [hw, all_cons, Bool.and_eq_true] at hdigit
    have hc : c ≠ '-' := fun heq => by
      rw [heq] at hdigit
      exact absurd hdigit.1 (by decide)
    simp only [text, hw, cons_append, head?_cons]
    simpa using hc

theorem numberOfLiteral_text (h : l.Valid) (negative : Bool) :
    Json.numberOfLiteral? (String.ofList (if negative then '-' :: l.text else l.text))
      = ofDecimal negative (l.whole ++ l.fraction) (Literal.exponentValue l.exponent - (l.fraction.length : Int)) := by
  have hrest : ((if l.fraction.isEmpty then [] else '.' :: l.fraction)
      ++ Literal.exponentText l.exponent).head?.any Char.isDigit = false := by
    split
    · exact Literal.head_exponentText _
    · rfl
  have hsigned : ((if negative then '-' :: l.text else l.text).head? == some '-') = negative := by
    cases negative with
    | true => rfl
    | false => exact Literal.head_text h
  have hbody : (if negative then (if negative then '-' :: l.text else l.text).drop 1
      else (if negative then '-' :: l.text else l.text)) = l.text := by
    cases negative <;> rfl
  rw [numberOfLiteral_eq]
  simp only [hsigned, hbody]
  simp only [Literal.text, takeWhile_digits h.whole hrest, dropWhile_digits h.whole hrest,
    Literal.splitFraction_text h, Literal.exponentOf_exponentText]

/-! ## Layouts -/

theorem all_isDigit_toDigits (n : Nat) : (toDigits 10 n).all Char.isDigit = true := by
  rw [all_eq_true]
  exact fun c hc => isDigit_of_mem_toDigits (by decide) (by decide) hc

theorem head_toDigits (hn : 0 < n) : (toDigits 10 n).head? ≠ some '0' := by
  induction n using Nat.strongRecOn with
  | ind n ih =>
    by_cases hlt : n < 10
    · rw [toDigits_of_lt_base hlt]
      interval_cases n <;> decide
    · rw [toDigits_of_base_le (by decide) (by omega), head?_append]
      have hne := @Nat.toDigits_ne_nil (n / 10) 10
      have hrec := ih (n / 10) (by omega) (by omega)
      cases hd : toDigits 10 (n / 10) with
      | nil => exact absurd hd hne
      | cons c cs =>
        rw [hd] at hrec
        exact hrec

theorem decimalValue_mul_pow (n k : Nat) (i : Int) : decimalValue (10 ^ k * n) i = decimalValue n (i + k) := by
  simp only [decimalValue]
  rw [zpow_add₀ (by norm_num), zpow_natCast]
  push_cast
  ring

theorem positional_literal (hn : 0 < n) (i : Int) : ∃ l : Literal, l.Valid ∧ l.value = decimalValue n i
      ∧ l.text = Layout.positional (toDigits 10 n) (i + ((toDigits 10 n).length : Int) - 1) := by
  have hall := all_isDigit_toDigits n
  have hlen := @Nat.length_toDigits_pos 10 n
  generalize hds : toDigits 10 n = ds at *
  have hval : natOfDigits ds = n := by rw [← hds, natOfDigits_toDigits]
  generalize he : i + (ds.length : Int) - 1 = e
  unfold Layout.positional
  by_cases hneg : e < 0
  · -- A zero, the point, and zeros down to the leading digit.
    rw [if_pos hneg]
    refine ⟨⟨['0'], List.replicate (-e - 1).toNat '0' ++ ds, none⟩, ⟨rfl, ?_, by simp, .inl rfl, by simp⟩, ?_, ?_⟩
    · rw [all_append, hall, Bool.and_true, all_replicate]
      split <;> rfl
    · simp only [Literal.value, Literal.exponentValue]
      rw [natOfDigits_append, natOfDigits_append, natOfDigits_replicate, hval]
      have hzero : natOfDigits ['0'] = 0 := rfl
      rw [hzero, mul_zero, mul_zero, zero_add, zero_add]
      congr 1
      simp only [length_append, length_replicate]
      omega
    · have hne : (List.replicate (-e - 1).toNat '0' ++ ds).isEmpty = false := by
        cases ds with
        | nil => simp at hlen
        | cons c cs => simp
      simp only [Literal.text, hne, Literal.exponentText, append_nil]
      rfl
  · rw [if_neg hneg]
    have hhead : ds.head? ≠ some '0' := hds ▸ head_toDigits hn
    have hne : ds ≠ [] := by
      rintro rfl
      simp at hlen
    by_cases hshort : ds.length ≤ e.toNat + 1
    · -- Zeros behind the last digit.
      simp only [if_pos hshort]
      refine ⟨⟨ds ++ List.replicate (e.toNat + 1 - ds.length) '0', [], none⟩, ⟨?_, rfl, ?_, .inr ?_, by simp⟩, ?_, ?_⟩
      · rw [all_append, hall, Bool.true_and, all_replicate]
        split <;> rfl
      · simp [hne]
      · rw [head?_append]
        cases ds with
        | nil => simp at hlen
        | cons c cs => simpa using hhead
      · simp only [Literal.value, Literal.exponentValue, append_nil, length_nil]
        rw [natOfDigits_append, natOfDigits_replicate, hval, add_zero, length_replicate,
          decimalValue_mul_pow]
        congr 1
        omega
      · simp [Literal.text, Literal.exponentText]
    · simp only [if_neg hshort]
      refine ⟨⟨ds.take (e.toNat + 1), ds.drop (e.toNat + 1), none⟩, ⟨?_, ?_, ?_, .inr ?_, by simp⟩, ?_, ?_⟩
      · rw [all_eq_true] at hall ⊢
        exact fun c hc => hall c (mem_of_mem_take hc)
      · rw [all_eq_true] at hall ⊢
        exact fun c hc => hall c (mem_of_mem_drop hc)
      · simp [hne]
      · rw [head?_take, if_neg (by omega)]
        exact hhead
      · simp only [Literal.value, Literal.exponentValue, take_append_drop, hval, length_drop]
        congr 1
        omega
      · have hrest : (ds.drop (e.toNat + 1)).isEmpty = false := by
          rw [isEmpty_eq_false_iff, ne_eq, drop_eq_nil_iff]
          omega
        simp only [Literal.text, hrest, Literal.exponentText, append_nil]
        rfl

theorem exponentOfDigits_toDigits (hn : n < 10 ^ 6) (negative : Bool) :
    exponentOfDigits negative (toDigits 10 n) = if negative then -(n : Int) else n := by
  have hlen : (toDigits 10 n).length ≤ 6 := (length_toDigits_le_iff (by decide) (by decide)).mpr hn
  have hdrop := (dropWhile_sublist (fun c => c == '0') (l := toDigits 10 n)).length_le
  have hshort : ¬((toDigits 10 n).dropWhile (· == '0')).length > 6 := by omega
  simp only [exponentOfDigits, if_neg hshort, natOfDigits_dropWhile, natOfDigits_toDigits]

theorem scientific_literal (hn : 0 < n) (i : Int) (hi : (i + ((toDigits 10 n).length : Int) - 1).natAbs < 10 ^ 6) :
    ∃ l : Literal, l.Valid ∧ l.value = decimalValue n i
      ∧ l.text = Layout.scientific 1 (toDigits 10 n) (i + ((toDigits 10 n).length : Int) - 1) := by
  have hall := all_isDigit_toDigits n
  have hhead := head_toDigits hn
  have hlen := @Nat.length_toDigits_pos 10 n
  have hval := natOfDigits_toDigits n
  generalize toDigits 10 n = ds at *
  generalize he : i + (ds.length : Int) - 1 = e at *
  rcases ds with _ | ⟨d, rest⟩
  · simp at hlen
  · rw [all_cons, Bool.and_eq_true] at hall
    have hexp := @Nat.length_toDigits_pos 10 e.natAbs
    refine ⟨⟨[d], rest, some (decide (e < 0), toDigits 10 e.natAbs)⟩,
      ⟨by simp [hall.1], hall.2, by simp, .inr hhead, ?_⟩, ?_, ?_⟩
    · intro x hx
      cases hx
      exact ⟨all_isDigit_toDigits _, toDigits_ne_nil⟩
    · simp only [Literal.value, Literal.exponentValue, exponentOfDigits_toDigits hi, singleton_append, hval]
      congr 1
      rw [length_cons] at he
      by_cases hneg : e < 0
      · rw [if_pos (decide_eq_true hneg)]
        omega
      · rw [if_neg (by simpa using hneg)]
        omega
    · have hzeros : 1 - (toDigits 10 e.natAbs).length = 0 := by omega
      have hsign : (if decide (e < 0) then '-' else '+') = if e < 0 then '-' else '+' := by simp
      simp only [Literal.text, Literal.exponentText, Layout.scientific, hzeros, hsign, replicate_zero]
      cases rest with
      | nil => rfl
      | cons c cs => simp

theorem json_literal (hd : 0 < d.digits)
    (hi : (d.exponent + ((toDigits 10 d.digits).length : Int) - 1).natAbs < 10 ^ 6) :
    ∃ l : Literal, l.Valid ∧ l.value = d.value ∧ l.text = Layout.json.digits d := by
  simp only [Layout.digits]
  split
  · exact positional_literal hd d.exponent
  · exact scientific_literal hd d.exponent hi

/-! ## Numbers -/

def IsFinite (x : Float) : Prop := x.isNaN = false ∧ x.isInf = false

theorem IsFinite.exponentField_ne (h : IsFinite x) : exponentField x.toBits ≠ 2047 := by
  intro hfull
  have hones : @unpackExponent .binary64 x.toBits.toBitVec = -1#11 := by
    apply BitVec.eq_of_toNat_eq
    rw [exponentField_eq_toNat, hfull]
    rfl
  have hunpack : x.toModel.unpack = UnpackedFloat.unpack .binary64 x.toBits.toBitVec := rfl
  have hnan : x.toModel.unpack.isNaN = false := h.1
  have hinf : x.toModel.unpack.isInf = false := h.2
  rw [hunpack, UnpackedFloat.unpack] at hnan hinf
  simp only [hones, if_true] at hnan hinf
  split at hnan
  · next hm =>
    rw [if_pos hm] at hinf
    exact Bool.noConfusion hinf
  · exact Bool.noConfusion hnan

theorem signOf_eq (bits : UInt64) : signOf bits = signIf (bits >>> 63 == 1) := by
  have hbits := bits.toNat_lt
  have hshift : (bits >>> 63).toNat = bits.toNat / 2 ^ 63 := by
    rw [UInt64.toNat_shiftRight]
    exact shiftRight_eq_div_pow _ _
  have hsign : (@unpackSign .binary64 bits.toBitVec).toNat = bits.toNat / 2 ^ 63 := toNat_unpackSign bits.toBitVec
  unfold signOf Sign.ofBitVec signIf
  by_cases hone : bits.toNat / 2 ^ 63 = 1
  · rw [if_neg, if_pos]
    · rw [beq_iff_eq, ← UInt64.toNat_inj, hshift, hone]
      rfl
    · intro heq
      rw [heq, hone] at hsign
      exact absurd hsign (by decide)
  · have hzero : bits.toNat / 2 ^ 63 = 0 := by omega
    rw [if_pos, if_neg]
    · rw [beq_iff_eq, ← UInt64.toNat_inj, hshift, hzero]
      decide
    · apply BitVec.eq_of_toNat_eq
      rw [hsign, hzero]
      rfl

theorem eq_pack_unpack (x : Float) : x = .ofModel (.pack (UnpackedFloat.unpack .binary64 x.toBits.toBitVec)) :=
  (Float.ofBits_toBits x).symm

theorem ofDecimal_zero (negative : Bool) :
    ofDecimal negative ['0'] 0 = some (.ofModel (.pack (.zero (signIf negative)))) := by
  cases negative <;> rfl

theorem natAbs_lead_lt {m : Nat} {e : Int} (h : Fits m e) (hd : 0 < d.digits) (hv : Near m e d.value) :
    (d.exponent + ((toDigits 10 d.digits).length : Int) - 1).natAbs < 10 ^ 6 := by
  have hlen := @Nat.length_toDigits_pos 10 d.digits
  have hall := all_isDigit_toDigits d.digits
  have hhead := head_toDigits hd
  rw [Scientific.value, ← natOfDigits_toDigits d.digits] at hv
  generalize toDigits 10 d.digits = ds at *
  rcases ds with _ | ⟨c, cs⟩
  · simp at hlen
  · have hlead := hv.lead_bounds h hall (by simpa using hhead)
    rw [length_cons]
    omega

theorem exists_literal (h : IsFinite x) : ∃ l : Literal, l.Valid
      ∧ Layout.json.write x = String.ofList (if x.toBits >>> 63 == 1 then '-' :: l.text else l.text)
      ∧ ofDecimal (x.toBits >>> 63 == 1) (l.whole ++ l.fraction)
          (Literal.exponentValue l.exponent - (l.fraction.length : Int)) = some x := by
  have hfield := h.exponentField_ne
  simp only [Layout.write, h.1, h.2]
  rcases Nat.eq_zero_or_pos (Dyadic.ofBits x.toBits).mantissa with hzero | hpos
  · have hshort : (Dyadic.ofBits x.toBits).shortest.digits = 0 := by rw [Dyadic.shortest, if_pos hzero]
    refine ⟨⟨['0'], [], none⟩, ⟨rfl, rfl, by simp, .inl rfl, by simp⟩, by rw [if_pos hshort]; rfl, ?_⟩
    show ofDecimal _ ['0'] 0 = _
    rw [ofDecimal_zero, ← signOf_eq, ← unpack_zero hfield hzero, ← eq_pack_unpack]
  · have hfits := Dyadic.fits_ofBits hfield hpos
    have hnear := Dyadic.shortest_near (Dyadic.regular_ofBits hpos)
    have hdigits : 0 < (Dyadic.ofBits x.toBits).shortest.digits := by
      by_contra hzero
      have hmin := hnear.gt_min hfits
      rw [Scientific.value, decimalValue, show (Dyadic.ofBits x.toBits).shortest.digits = 0 by omega,
        cast_zero, zero_mul] at hmin
      exact absurd (ten_zpow_pos (-324)) (not_lt.mpr hmin.le)
    obtain ⟨l, hvalid, hvalue, htext⟩ := json_literal hdigits (natAbs_lead_lt hfits hdigits hnear)
    have hne : ¬(Dyadic.ofBits x.toBits).shortest.digits = 0 := by omega
    refine ⟨l, hvalid, by simp only [if_neg hne, htext]; rfl, ?_⟩
    have hall : (l.whole ++ l.fraction).all Char.isDigit = true := by
      rw [all_append, hvalid.whole, hvalid.fraction]
      rfl
    rw [← hvalue] at hnear
    rw [ofDecimal_near _ hall hfits hnear, ← signOf_eq, number, ← unpack_finite hfield hpos, ← eq_pack_unpack]

theorem numberOfLiteral_write (h : IsFinite x) : Json.numberOfLiteral? (Layout.json.write x) = some x := by
  obtain ⟨l, hvalid, hwrite, hread⟩ := exists_literal h
  rw [hwrite, numberOfLiteral_text hvalid, hread]

/-! ## Every number that is read is finite -/

theorem isNaN_unpack_pack {f : UnpackedFloat} (h : f.isNaN = false) :
    (UnpackedFloat.unpack .binary64 (UnpackedFloat.pack .binary64 f)).isNaN = false := by
  have hfull : ∀ (s : Sign) (e : BitVec 11) (m : BitVec 52), (e = -1#11 → m = 0#52) →
      (UnpackedFloat.unpack .binary64 (packComponents .binary64 s e m)).isNaN = false := by
    intro s e m hm
    simp only [UnpackedFloat.unpack, unpackExponent_packComponents, unpackMantissa_packComponents]
    split
    · next he =>
      rw [if_pos (hm he)]
      rfl
    · split
      · split <;> rfl
      · rfl
  cases f with
  | notANumber => exact Bool.noConfusion h
  | infinity s => exact hfull s _ _ fun _ => rfl
  | zero s => exact hfull s _ _ fun _ => rfl
  | finite s m e hpos =>
    simp only [UnpackedFloat.pack]
    split
    · exact hfull s _ _ fun _ => rfl
    · next hfit =>
      split
      · refine hfull s _ _ fun heq => absurd (congrArg BitVec.toNat heq) ?_
        rw [BitVec.toNat_ofNat, show (-1#11).toNat = 2047 from rfl]
        omega
      · exact hfull s _ _ fun heq => absurd heq (by decide)

theorem isNaN_round (s : Sign) (m : Nat) (e : Int) (a : Accuracy) :
    (roundWithAccuracy .binary64 s m e a).isNaN = false := by
  simp only [roundWithAccuracy]
  split <;> rfl

theorem isNaN_unpacked_ofScientific (m : Nat) (i : Int) : (UnpackedFloat.ofScientific .binary64 m i).isNaN = false := by
  unfold UnpackedFloat.ofScientific
  split
  · rfl
  · split
    · rfl
    · split
      · rfl
      · split
        · exact isNaN_round _ _ _ _
        · exact isNaN_round _ _ _ _

theorem isNaN_ofScientific (m : Nat) (down : Bool) (k : Nat) : (Float.ofScientific m down k).isNaN = false := by
  rw [Float.ofScientific]
  split
  · next hsmall =>
    obtain ⟨m₂, e₂, h₂, hpower, _, _⟩ := powerOfTen_number
      (show k < Float.exactlyRepresentablePowersOfTen.size from lt_succ_of_le hsmall.2)
    simp only [hpower]
    -- The first operand is zero or finite, the second is finite.
    rcases Nat.eq_zero_or_pos m with rfl | hpos
    · have hzero : (0 : Nat).toUInt64.toFloat.toModel.unpack = .zero .positive := rfl
      split
      · show (Float.Model.pack (UnpackedFloat.div .binary64 (0 : Nat).toUInt64.toFloat.toModel.unpack
          (number .positive h₂).toModel.unpack)).unpack.isNaN = false
        rw [hzero, unpack_number]
        exact isNaN_unpack_pack rfl
      · show (Float.Model.pack (UnpackedFloat.mul .binary64 (0 : Nat).toUInt64.toFloat.toModel.unpack
          (number .positive h₂).toModel.unpack)).unpack.isNaN = false
        rw [hzero, unpack_number]
        exact isNaN_unpack_pack rfl
    · obtain ⟨m₁, e₁, h₁, hfloat, _, _⟩ := toFloat_small hpos hsmall.1
      rw [hfloat]
      split
      · show (Float.Model.pack (UnpackedFloat.div .binary64 (number .positive h₁).toModel.unpack
          (number .positive h₂).toModel.unpack)).unpack.isNaN = false
        rw [unpack_number, unpack_number]
        exact isNaN_unpack_pack (isNaN_round _ _ _ _)
      · show (Float.Model.pack (UnpackedFloat.mul .binary64 (number .positive h₁).toModel.unpack
          (number .positive h₂).toModel.unpack)).unpack.isNaN = false
        rw [unpack_number, unpack_number]
        exact isNaN_unpack_pack (isNaN_round _ _ _ _)
  · exact isNaN_unpack_pack (isNaN_unpacked_ofScientific _ _)

theorem IsFinite.neg (h : IsFinite x) : IsFinite (-x) := by
  have hfield := h.exponentField_ne
  have hunpack : (-x).toModel.unpack
      = UnpackedFloat.unpack .binary64 (UnpackedFloat.pack .binary64
          (UnpackedFloat.unpack .binary64 x.toBits.toBitVec).neg) := rfl
  show (-x).toModel.unpack.isNaN = false ∧ (-x).toModel.unpack.isInf = false
  rw [hunpack]
  rcases Nat.eq_zero_or_pos (Dyadic.ofBits x.toBits).mantissa with hzero | hpos
  · rw [unpack_zero hfield hzero]
    cases signOf x.toBits <;> exact ⟨rfl, rfl⟩
  · rw [unpack_finite hfield hpos]
    simp only [UnpackedFloat.neg]
    rw [unpack_pack _ (Dyadic.fits_ofBits hfield hpos)]
    exact ⟨rfl, rfl⟩

theorem isFinite_ofDecimal {negative : Bool} (h : ofDecimal negative ds i = some x) : IsFinite x := by
  have hzero : IsFinite 0 := ⟨rfl, rfl⟩
  have hsigned : ∀ y : Float, IsFinite y → IsFinite (if negative then -y else y) := by
    intro y hy
    cases negative with
    | true => exact hy.neg
    | false => exact hy
  simp only [ofDecimal] at h
  split at h
  · rw [← Option.some.inj h]
    exact hsigned 0 hzero
  · split at h
    · exact absurd h (by simp)
    · split at h
      · rw [← Option.some.inj h]
        exact hsigned 0 hzero
      · split at h
        · exact absurd h (by simp)
        · next hinf =>
          rw [← Option.some.inj h]
          exact hsigned _ ⟨isNaN_ofScientific _ _ _, by simpa using hinf⟩

theorem isFinite_numberOfLiteral {l : String} (h : Json.numberOfLiteral? l = some x) : IsFinite x :=
  isFinite_ofDecimal h

end AnimatedChart.Decimal
