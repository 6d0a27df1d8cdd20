import AnimatedChart.Dict

/-!
# Laws of dictionaries

`Dict.put` keeps the keys in strict order, so a dictionary is fixed by its entries (`Sorted.ext`), and putting the
entries of a dictionary into an empty one gives the dictionary itself (`ofPairs_of_sorted`).
-/

open List

namespace AnimatedChart.Dict

variable {α β : Type}
variable {d : Dict α} {k : String} {e : String × α} {ps : List (String × α)}
variable {l : String} {v : α} (g : α → β)

theorem lt_of_not_lt {a b : String} (hlt : ¬a < b) (hne : a ≠ b) : b < a :=
  Std.lt_of_le_of_ne (String.not_lt.mp hlt) (Ne.symm hne)

theorem put_put (k : String) (v w : α) (d : Dict α) : put k w (put k v d) = put k w d := by
  induction d with
  | nil => simp [put]
  | cons x rest ih =>
    obtain ⟨k', v'⟩ := x
    by_cases hlt : k < k'
    · simp [put, hlt]
    · by_cases heq : k = k'
      · subst heq
        simp [put]
      · simp [put, hlt, heq, ih]

theorem put_comm_of_lt (hlt : k < l) (v w : α) (d : Dict α) : put k v (put l w d) = put l w (put k v d) := by
  have hne : k ≠ l := Std.ne_of_lt hlt
  have hgt : ¬l < k := Std.not_gt_of_lt hlt
  induction d with
  | nil => simp [put, hlt, hgt, hne.symm]
  | cons x rest ih =>
    obtain ⟨m, u⟩ := x
    by_cases hl : l < m
    · simp [put, hl, hlt, Std.lt_trans hlt hl, hgt, hne.symm]
    · by_cases heq : l = m
      · subst heq
        simp [put, hlt, hgt, hne.symm]
      · by_cases hk : k < m
        · simp [put, hl, heq, hk, hgt, hne.symm]
        · by_cases hkm : k = m
          · subst hkm
            simp [put, hgt, hne.symm]
          · simp [put, hl, heq, hk, hkm, ih]

theorem put_comm (hne : k ≠ l) (v w : α) (d : Dict α) : put k v (put l w d) = put l w (put k v d) := by
  by_cases hlt : k < l
  · exact put_comm_of_lt hlt v w d
  · exact (put_comm_of_lt (lt_of_not_lt hlt hne) w v d).symm

def Sorted (d : Dict α) : Prop := d.Pairwise fun a b => a.1 < b.1

instance (d : Dict α) : Decidable (Sorted d) := inferInstanceAs (Decidable (d.Pairwise _))

theorem Sorted.nil : Sorted ([] : Dict α) := List.Pairwise.nil

theorem Sorted.filter (h : Sorted d) (p : String × α → Bool) : Sorted (d.filter p) :=
  List.Pairwise.filter p h

theorem Sorted.map (h : Sorted d) (f : α → β) : Sorted (d.map fun e => (e.1, f e.2)) :=
  List.Pairwise.map _ (fun _ _ hlt => hlt) h

/-! ## Entries after a put -/

theorem mem_put_of_ne (hne : e.1 ≠ k) : e ∈ put k v d ↔ e ∈ d := by
  have hne' : e ≠ (k, v) := fun h => hne (by rw [h])
  induction d with
  | nil => simp [put, hne']
  | cons x rest ih =>
    obtain ⟨k', v'⟩ := x
    rw [put]
    split
    · simp [hne']
    · split
      · next heq =>
        have : e ≠ (k', v') := fun h => hne (by rw [h, heq])
        simp [hne', this]
      · simp [ih]

theorem mem_put_self (k : String) (v : α) (d : Dict α) : (k, v) ∈ put k v d := by
  induction d with
  | nil => simp [put]
  | cons x rest ih =>
    obtain ⟨k', v'⟩ := x
    rw [put]
    split
    · exact mem_cons_self
    · split
      · exact mem_cons_self
      · exact mem_cons_of_mem _ ih

theorem mem_of_mem_put (h : e ∈ put k v d) : e = (k, v) ∨ e ∈ d := by
  induction d with
  | nil => exact .inl (mem_singleton.mp h)
  | cons x rest ih =>
    obtain ⟨k', v'⟩ := x
    rw [put] at h
    split at h
    · exact (mem_cons.mp h).imp_right id
    · split at h
      · exact (mem_cons.mp h).imp_right (mem_cons_of_mem _)
      · rcases mem_cons.mp h with rfl | h
        · exact .inr mem_cons_self
        · exact (ih h).imp_right (mem_cons_of_mem _)

theorem Sorted.put (h : Sorted d) (k : String) (v : α) : Sorted (Dict.put k v d) := by
  induction d with
  | nil => exact pairwise_singleton _ _
  | cons x rest ih =>
    obtain ⟨k', v'⟩ := x
    obtain ⟨hhead, hrest⟩ := pairwise_cons.mp h
    rw [Dict.put]
    split
    · next hlt =>
      refine pairwise_cons.mpr ⟨fun e he => ?_, h⟩
      rcases mem_cons.mp he with rfl | he
      · exact hlt
      · exact String.lt_trans hlt (hhead e he)
    · next hnlt =>
      split
      · next heq => exact pairwise_cons.mpr ⟨fun e he => heq ▸ hhead e he, hrest⟩
      · next hne =>
        refine pairwise_cons.mpr ⟨fun e he => ?_, ih hrest⟩
        rcases mem_of_mem_put he with rfl | he
        · exact lt_of_not_lt hnlt hne
        · exact hhead e he

theorem Sorted.putAll (h : Sorted d) (ps : List (String × α)) : Sorted (Dict.putAll d ps) := by
  induction ps generalizing d with
  | nil => exact h
  | cons p ps ih => exact ih (h.put p.1 p.2)

theorem sorted_ofPairs (ps : List (String × α)) : Sorted (ofPairs ps) := Sorted.nil.putAll ps

theorem Sorted.unique (h : Sorted d) {w : α} (hv : (k, v) ∈ d) (hw : (k, w) ∈ d) : v = w := by
  induction d with
  | nil => cases hv
  | cons x rest ih =>
    obtain ⟨hhead, hrest⟩ := pairwise_cons.mp h
    rcases mem_cons.mp hv with rfl | hv <;> rcases mem_cons.mp hw with hw | hw
    · exact (Prod.mk.inj hw).2.symm
    · exact absurd (hhead _ hw) (String.lt_irrefl _)
    · exact absurd (hhead _ hv) (by rw [← hw]; exact String.lt_irrefl _)
    · exact ih hrest hv hw

theorem Sorted.ext {d' : Dict α} (h : Sorted d) (h' : Sorted d') (hmem : ∀ e, e ∈ d ↔ e ∈ d') : d = d' := by
  induction d generalizing d' with
  | nil =>
    cases d' with
    | nil => rfl
    | cons x _ => exact absurd ((hmem x).mpr mem_cons_self) not_mem_nil
  | cons x rest ih =>
    cases d' with
    | nil => exact absurd ((hmem x).mp mem_cons_self) not_mem_nil
    | cons y rest' =>
      obtain ⟨hx, hrest⟩ := pairwise_cons.mp h
      obtain ⟨hy, hrest'⟩ := pairwise_cons.mp h'
      -- Each head is the least entry of its list.
      have hxy : x = y := by
        rcases mem_cons.mp ((hmem x).mp mem_cons_self) with hxy | hx'
        · exact hxy
        · rcases mem_cons.mp ((hmem y).mpr mem_cons_self) with hyx | hy'
          · exact hyx.symm
          · exact absurd (hx y hy') (String.lt_asymm (hy x hx'))
      subst hxy
      refine congrArg (x :: ·) (ih hrest hrest' fun e => ?_)
      constructor
      · intro he
        rcases mem_cons.mp ((hmem e).mp (mem_cons_of_mem _ he)) with rfl | he'
        · exact absurd (hx e he) (String.lt_irrefl _)
        · exact he'
      · intro he
        rcases mem_cons.mp ((hmem e).mpr (mem_cons_of_mem _ he)) with rfl | he'
        · exact absurd (hy e he) (String.lt_irrefl _)
        · exact he'

/-! ## Many puts -/

theorem putAll_cons (d : Dict α) (p : String × α) (ps : List (String × α)) :
    putAll d (p :: ps) = putAll (put p.1 p.2 d) ps := rfl

theorem mem_of_mem_putAll (h : e ∈ putAll d ps) : e ∈ ps ∨ e ∈ d := by
  induction ps generalizing d with
  | nil => exact .inr h
  | cons p ps ih =>
    rcases ih (d := put p.1 p.2 d) h with h | h
    · exact .inl (mem_cons_of_mem _ h)
    · rcases mem_of_mem_put h with rfl | h
      · exact .inl mem_cons_self
      · exact .inr h

theorem mem_putAll_of_not_mem (h : e.1 ∉ ps.map (·.1)) : e ∈ putAll d ps ↔ e ∈ d := by
  induction ps generalizing d with
  | nil => rfl
  | cons p ps ih =>
    simp only [map_cons, mem_cons, not_or] at h
    rw [putAll_cons, ih h.2, mem_put_of_ne h.1]

theorem mem_putAll_of_mem (hps : ps.Pairwise fun a b => a.1 ≠ b.1) (h : e ∈ ps) : e ∈ putAll d ps := by
  induction ps generalizing d with
  | nil => cases h
  | cons p ps ih =>
    obtain ⟨hp, hrest⟩ := pairwise_cons.mp hps
    rw [putAll_cons]
    rcases mem_cons.mp h with rfl | h
    · have hnot : e.1 ∉ ps.map (·.1) := by
        intro hmem
        obtain ⟨e', he', heq⟩ := mem_map.mp hmem
        exact hp e' he' heq.symm
      exact (mem_putAll_of_not_mem hnot).mpr (mem_put_self e.1 e.2 d)
    · exact ih hrest h

theorem mem_putAll (hd : Sorted d) (hps : ps.Pairwise fun a b => a.1 ≠ b.1) :
    e ∈ putAll d ps ↔ e ∈ ps ∨ e ∈ d ∧ e.1 ∉ ps.map (·.1) := by
  by_cases hk : e.1 ∈ ps.map (·.1)
  · obtain ⟨p, hp, hpk⟩ := mem_map.mp hk
    have hput := mem_putAll_of_mem (d := d) hps hp
    constructor
    · intro he
      have : e = p := Prod.ext hpk.symm ((hd.putAll ps).unique (k := p.1) (hpk ▸ he) hput)
      exact .inl (this ▸ hp)
    · rintro (he | he)
      · exact mem_putAll_of_mem hps he
      · exact absurd hk he.2
  · rw [mem_putAll_of_not_mem hk]
    constructor
    · exact fun he => .inr ⟨he, hk⟩
    · rintro (he | he)
      · exact absurd (mem_map_of_mem he) hk
      · exact he.1

theorem Sorted.pairwise_ne (h : Sorted d) : d.Pairwise fun a b => a.1 ≠ b.1 :=
  h.imp fun hlt heq => absurd hlt (by rw [heq]; exact String.lt_irrefl _)

theorem ofPairs_of_sorted (h : Sorted d) : ofPairs d = d := by
  refine (sorted_ofPairs d).ext h fun e => ?_
  rw [ofPairs, mem_putAll Sorted.nil h.pairwise_ne]
  simp

/-! ## Looking up -/

theorem get?_eq_some (h : Sorted d) : get? d k = some v ↔ (k, v) ∈ d := by
  simp only [get?, Option.map_eq_some_iff]
  constructor
  · rintro ⟨e, he, rfl⟩
    have hk := find?_some (p := fun e : String × α => e.1 == k) he
    rw [← eq_of_beq hk]
    exact mem_of_find?_eq_some he
  · intro hmem
    have hsome : (d.find? fun e => e.1 == k).isSome = true :=
      find?_isSome.mpr ⟨(k, v), hmem, beq_self_eq_true k⟩
    obtain ⟨e, he⟩ := Option.isSome_iff_exists.mp hsome
    have hk := eq_of_beq (find?_some (p := fun e : String × α => e.1 == k) he)
    exact ⟨e, he, h.unique (hk ▸ mem_of_find?_eq_some he) hmem⟩

theorem mem_of_get? (h : get? d k = some v) : (k, v) ∈ d := by
  obtain ⟨e, he, rfl⟩ := Option.map_eq_some_iff.mp h
  have hk := eq_of_beq (find?_some (p := fun e : String × α => e.1 == k) he)
  rw [← hk]
  exact mem_of_find?_eq_some he

theorem get?_put (k k' : String) (v : α) (d : Dict α) : get? (put k v d) k' = if k' = k then some v else get? d k' := by
  induction d with
  | nil =>
    by_cases h : k' = k
    · simp [put, get?, h]
    · simp [put, get?, h, Ne.symm h]
  | cons x rest ih =>
    obtain ⟨l, w⟩ := x
    simp only [get?] at ih ⊢
    by_cases h : k' = k
    · subst h
      rw [if_pos rfl] at ih ⊢
      rw [put]
      split
      · simp
      · split
        · simp
        · next hne => simpa [Ne.symm hne] using ih
    · have hk : ¬k = k' := Ne.symm h
      rw [if_neg h] at ih ⊢
      rw [put]
      split
      · simp [hk]
      · split
        · next hl => simp [← hl, hk]
        · by_cases hl : l = k'
          · simp [hl]
          · simpa [hl] using ih

theorem Sorted.put_of_get? (h : Sorted d) (hv : get? d k = some v) : Dict.put k v d = d := by
  refine (h.put k v).ext h fun e => ?_
  rw [← get?_eq_some (h.put k v), ← get?_eq_some h, get?_put]
  split
  · next hk => rw [hk, hv]
  · rfl

theorem get?_eq_none : get? d k = none ↔ k ∉ d.map (·.1) := by
  simp only [get?, Option.map_eq_none_iff, find?_eq_none, mem_map, not_exists, not_and, beq_iff_eq]

theorem get?_ofPairs_eq_none (h : k ∉ ps.map (·.1)) : get? (ofPairs ps) k = none := by
  refine get?_eq_none.mpr fun hk => h ?_
  obtain ⟨e, he, rfl⟩ := mem_map.mp hk
  rcases mem_of_mem_putAll he with he | he
  · exact mem_map_of_mem he
  · cases he

theorem has_eq_true : has d k = true ↔ k ∈ d.map (·.1) := by simp only [has, any_eq_true, beq_iff_eq, mem_map]

/-! ## Changing every value -/

theorem put_mapValues (k : String) (v : α) (d : Dict α) : put k (g v) (mapValues g d) = mapValues g (put k v d) := by
  induction d with
  | nil => rfl
  | cons x rest ih =>
    obtain ⟨k', v'⟩ := x
    show put k (g v) ((k', g v') :: mapValues g rest) = _
    rw [put, put]
    split
    · rfl
    · split
      · rfl
      · rw [ih]
        rfl

theorem putAll_mapValues (d : Dict α) (ps : List (String × α)) :
    putAll (mapValues g d) (mapValues g ps) = mapValues g (putAll d ps) := by
  induction ps generalizing d with
  | nil => rfl
  | cons p ps ih =>
    show putAll (put p.1 (g p.2) (mapValues g d)) (mapValues g ps) = _
    rw [put_mapValues, ih]
    rfl

theorem get?_mapValues (d : Dict α) (k : String) : get? (mapValues g d) k = (get? d k).map g := by
  induction d with
  | nil => rfl
  | cons x rest ih =>
    simp only [get?, mapValues, map_cons, find?_cons] at ih ⊢
    cases x.1 == k
    · exact ih
    · rfl

theorem has_mapValues (d : Dict α) (k : String) : has (mapValues g d) k = has d k := by
  simp only [has, mapValues, any_map, Function.comp_def]

theorem get?_filter (d : Dict α) (p : String → Bool) (k : String) :
    get? (d.filter fun e => p e.1) k = if p k then get? d k else none := by
  induction d with
  | nil => cases p k <;> rfl
  | cons e d ih =>
    unfold get? at ih ⊢
    rw [filter_cons, find?_cons]
    by_cases hk : e.1 = k
    · subst hk
      cases hp : p e.1 with
      | true => simp
      | false => simpa [hp] using ih
    · have hne : (e.1 == k) = false := beq_eq_false_iff_ne.mpr hk
      rw [hne]
      split
      · rw [find?_cons, hne]
        exact ih
      · exact ih

theorem isSome_get?_putAll (h : (get? d k).isSome = true ∨ k ∈ ps.map (·.1)) :
    (get? (putAll d ps) k).isSome = true := by
  induction ps generalizing d with
  | nil => exact h.resolve_right (by simp)
  | cons p ps ih =>
    rw [putAll_cons]
    refine ih ?_
    rw [get?_put]
    rcases h with h | h
    · exact .inl (by split <;> simp [h])
    · rcases mem_cons.mp h with rfl | h
      · exact .inl (by simp)
      · exact .inr h

theorem filter_mapValues (d : Dict α) (p : String → Bool) :
    (mapValues g d).filter (fun e => p e.1) = mapValues g (d.filter fun e => p e.1) := by
  simp only [mapValues, filter_map, Function.comp_def]

end AnimatedChart.Dict
