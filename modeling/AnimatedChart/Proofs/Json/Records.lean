import AnimatedChart.Json.Reading
import AnimatedChart.Proofs.Json.Values

/-!
# Records, field by field

A record is read member by member, and every member sets one field. A `Schema` lists the fields of a record with the
laws that make them independent, so that reading a record is reading each of its fields on its own
(`Schema.members_iff`).
-/

open List AnimatedChart.Json.Fragment AnimatedChart.Dict AnimatedChart.Json.Reader AnimatedChart.Json.Reading

namespace AnimatedChart

theorem bind_eq_ok {α β : Type} {x : Except Error α} {f : α → Except Error β} {b : β} :
    x >>= f = .ok b ↔ ∃ a, x = .ok a ∧ f a = .ok b := by
  cases x with
  | error e => exact ⟨(nomatch ·), fun ⟨_, h, _⟩ => nomatch h⟩
  | ok a => exact ⟨fun h => ⟨a, rfl, h⟩, fun ⟨_, ha, h⟩ => Except.ok.inj ha ▸ h⟩

theorem mapError_eq_ok {α : Type} {x : Except Error α} {f : Error → Error} {a : α} :
    x.mapError f = .ok a ↔ x = .ok a := by
  cases x <;> simp [Except.mapError]

theorem toOption_eq_some {α : Type} {x : Except Error α} {a : α} : x.toOption = some a ↔ x = .ok a := by
  cases x <;> simp [Except.toOption]

theorem map_eq_ok {α β : Type} {x : Except Error α} {f : α → β} {b : β} :
    x.map f = .ok b ↔ ∃ a, x = .ok a ∧ f a = b := by
  cases x <;> simp [Except.map]

end AnimatedChart

namespace AnimatedChart.Json

variable {k : String} {f : Fragment} {ms : List (String × Fragment)} {v : Fragment} {Q : Fragment → Prop} {n : String}
variable {e : String × Fragment}

/-! ## Clean readings -/

namespace Reading

variable {α β : Type}

theorem pure_eq (a : α) : (pure a : Reading α) = read a true := rfl

theorem bind_eq_clean {x : Reading α} {f : α → Reading β} {b : β} :
    x >>= f = read b true ↔ ∃ a, x = read a true ∧ f a = read b true := by
  show andThen x f = _ ↔ _
  cases x with
  | refused e => simp [andThen]
  | read a clean =>
    cases hf : f a with
    | refused e => simp [andThen, hf]
    | read b' clean' => cases clean <;> cases clean' <;> simp [andThen, hf]

theorem settle_eq_ok {x : Reading α} {a : α} : x.settle = .ok a ↔ x = read a true := by
  cases x with
  | refused e => simp [settle]
  | read b clean => cases clean <;> simp [settle]

theorem ofExcept_eq_clean {x : Except Error α} {a : α} : ofExcept x = read a true ↔ x = .ok a := by
  cases x <;> simp [ofExcept]

end Reading

namespace Reader

variable {α β : Type}
variable {r : Reader α} {n : String} {m : String × Fragment} {ms : List (String × Fragment)}

theorem run_eq_ok {a b : α} : r.run f a = .ok b ↔ r f a = .read b true :=
  settle_eq_ok

theorem settled_eq_clean {r : Fragment → Except Error α} {a b : α} :
    settled r f a = .read b true ↔ r f = .ok b := ofExcept_eq_clean

/-! ## One field -/

def names (n : String) (m : String × Fragment) : Prop := foldName n = foldName (unescape m.1)

theorem field?_singleton (n k : String) (r : α) :
    field? [(n, r)] k = if foldName n = foldName k then some r else none := by
  by_cases hexact : n = k
  · subst hexact
    simp [field?]
  · by_cases hfold : foldName n = foldName k <;> simp [field?, hexact, hfold]

theorem members_skip (h : ¬names n m) (ms : List (String × Fragment)) (a : α) :
    members [(n, r)] (m :: ms) a = members [(n, r)] ms a := by
  obtain ⟨k, v⟩ := m
  rw [members, field?_singleton, if_neg (show ¬foldName n = foldName (unescape k) from h)]

theorem members_hit (h : names n m) (ms : List (String × Fragment)) (a : α) :
    members [(n, r)] (m :: ms) a = r m.2 a >>= members [(n, r)] ms := by
  obtain ⟨k, v⟩ := m
  rw [members, field?_singleton, if_pos (show foldName n = foldName (unescape k) from h)]

theorem members_unnamed (h : ∀ m ∈ ms, ¬names n m) (a : α) : members [(n, r)] ms a = .read a true := by
  induction ms with
  | nil => rfl
  | cons m ms ih => rw [members_skip (h m mem_cons_self), ih fun m hm => h m (mem_cons_of_mem _ hm)]

def Accepts (r : Reader α) (f : Fragment) : Prop := ∀ a, ∃ b, r f a = .read b true

def Takes (r : Reader α) (f : Fragment) (b : α) : Prop := ∀ a, r f a = .read b true

theorem members_written {P : α → Prop} {pre post : List (String × Fragment)} {a : α}
    (hpre : ∀ m' ∈ pre, names n m' → Accepts r m'.2) (hm : names n m)
    (hb : ∀ a', (a' = a ∨ ∃ m' ∈ pre, names n m') → ∃ b, r m.2 a' = .read b true ∧ P b)
    (hpost : ∀ m' ∈ post, ¬names n m') : ∃ b, members [(n, r)] (pre ++ m :: post) a = .read b true ∧ P b := by
  induction pre generalizing a with
  | nil =>
    obtain ⟨b, hread, hP⟩ := hb a (.inl rfl)
    refine ⟨b, ?_, hP⟩
    rw [nil_append, members_hit hm, hread, bind_eq_clean]
    exact ⟨b, rfl, members_unnamed hpost b⟩
  | cons m' pre ih =>
    obtain ⟨haccept, hpre⟩ := forall_mem_cons.mp hpre
    rw [cons_append]
    by_cases hname : names n m'
    · obtain ⟨a', ha'⟩ := haccept hname a
      obtain ⟨b, hread, hP⟩ := ih (a := a') hpre fun c _ => hb c (.inr ⟨m', mem_cons_self, hname⟩)
      refine ⟨b, ?_, hP⟩
      rw [members_hit hname, ha', bind_eq_clean]
      exact ⟨a', rfl, hread⟩
    · rw [members_skip hname]
      exact ih hpre fun c hc => hb c (hc.imp_right fun ⟨m'', hm'', h⟩ => ⟨m'', mem_cons_of_mem _ hm'', h⟩)

theorem read_last_of_members {pre post : List (String × Fragment)} {a b : α} (hm : names n m)
    (hpost : ∀ m' ∈ post, ¬names n m') (h : members [(n, r)] (pre ++ m :: post) a = .read b true) :
    ∃ a', r m.2 a' = .read b true := by
  induction pre generalizing a with
  | nil =>
    rw [nil_append, members_hit hm, bind_eq_clean] at h
    obtain ⟨b', hread, hrest⟩ := h
    obtain rfl := (read.inj ((members_unnamed hpost b').symm.trans hrest)).1
    exact ⟨a, hread⟩
  | cons m' pre ih =>
    rw [cons_append] at h
    by_cases hname : names n m'
    · rw [members_hit hname, bind_eq_clean] at h
      obtain ⟨a', -, hrest⟩ := h
      exact ih hrest
    · rw [members_skip hname] at h
      exact ih h

theorem isSome_of_members {o o' : Option Fragment} (h : members [(n, fragment)] ms o = .read o' true)
    (ho : o.isSome = true ∨ ∃ m ∈ ms, names n m) : o'.isSome = true := by
  induction ms generalizing o with
  | nil =>
    cases h
    exact ho.resolve_right (by simp)
  | cons m ms ih =>
    by_cases hname : names n m
    · rw [members_hit hname, bind_eq_clean] at h
      obtain ⟨a, ha, hrest⟩ := h
      cases ha
      exact ih hrest (.inl rfl)
    · rw [members_skip hname] at h
      refine ih h (ho.imp_right fun ⟨m', hm', hn⟩ => ?_)
      rcases mem_cons.mp hm' with rfl | hm'
      · exact absurd hn hname
      · exact ⟨m', hm', hn⟩

theorem exists_read_of_members {a b : α} (h : members [(n, r)] ms a = .read b true) :
    ∀ m ∈ ms, names n m → ∃ a b, r m.2 a = .read b true := by
  induction ms generalizing a with
  | nil => exact fun _ hm => nomatch hm
  | cons m ms ih =>
    intro m' hm' hname
    by_cases hm : names n m
    · rw [members_hit hm, bind_eq_clean] at h
      obtain ⟨c, hc, hrest⟩ := h
      rcases mem_cons.mp hm' with rfl | hm'
      · exact ⟨a, c, hc⟩
      · exact ih hrest m' hm' hname
    · rw [members_skip hm] at h
      rcases mem_cons.mp hm' with rfl | hm'
      · exact absurd hname hm
      · exact ih h m' hm' hname

theorem settled_of_members {r : Fragment → Except Error α} {a b : α} {o : Option Fragment} {g : Fragment}
    (hr : members [(n, settled r)] ms a = .read b true) (hg : members [(n, fragment)] ms o = .read (some g) true)
    (ho : ∀ g', o = some g' → r g' = .ok a) : r g = .ok b := by
  induction ms generalizing a o with
  | nil =>
    cases hr
    exact ho g (read.inj hg).1
  | cons m ms ih =>
    by_cases hm : names n m
    · rw [members_hit hm, bind_eq_clean] at hr hg
      obtain ⟨a', ha', hr⟩ := hr
      obtain ⟨o', ho', hg⟩ := hg
      obtain rfl := (read.inj ho').1
      exact ih hr hg fun g' hg' => Option.some.inj hg' ▸ settled_eq_clean.mp ha'
    · rw [members_skip hm] at hr hg
      exact ih hr hg ho

end Reader

def Reader.Distinct (names : List String) : Prop :=
  names.Pairwise fun x y => foldName x ≠ foldName y

instance (names : List String) : Decidable (Distinct names) := inferInstanceAs (Decidable (names.Pairwise _))

theorem Reader.Distinct.fields {α : Type} {fields : List (String × α)} (h : Distinct (fields.map (·.1))) :
    fields.Pairwise fun x y => foldName x.1 ≠ foldName y.1 := by
  rwa [Distinct, pairwise_map] at h

/-! ## Fields and schemas -/

/-- The fields of a record, which are independent of each other, and what reading leaves alone. -/
structure Schema (α : Type) where
  fields : List (Field α)
  {γ : Type}
  kept : α → γ
  get_set : ∀ x ∈ fields, ∀ b a, x.get (x.set b a) = b := by simp
  frame : fields.Pairwise fun x y => (∀ b a, x.get (y.set b a) = x.get a) ∧ ∀ b a, y.get (x.set b a) = y.get a := by
    simp
  kept_set : ∀ x ∈ fields, ∀ b a, kept (x.set b a) = kept a := by simp
  ext : ∀ a a', (∀ x ∈ fields, x.get a = x.get a') → kept a = kept a' → a = a' := by
    rintro ⟨⟩ ⟨⟩ h ⟨⟩
    simpa using h
  distinct : Distinct (fields.map (·.name)) := by decide

namespace Schema

open Reader

variable {α : Type}

def readers (s : Schema α) : List (String × Reader α) := s.fields.map fun x => (x.name, x.read)

theorem eq_of_foldName (s : Schema α) {x y : Field α} (hx : x ∈ s.fields) (hy : y ∈ s.fields)
    (h : foldName x.name = foldName y.name) : x = y := by
  have hsymm : Std.Symm fun x y : Field α => foldName x.name ≠ foldName y.name := ⟨fun _ _ h => h.symm⟩
  by_contra hne
  have hdistinct := s.distinct
  rw [Distinct, pairwise_map] at hdistinct
  exact hdistinct.forall hx hy hne h

theorem field?_of_mem (s : Schema α) {x : Field α} (hx : x ∈ s.fields)
    (hk : foldName x.name = foldName k) : field? s.readers k = some x.read := by
  have hunique : ∀ y ∈ s.fields, foldName y.name = foldName k → y = x :=
    fun y hy hyk => s.eq_of_foldName hy hx (hyk.trans hk.symm)
  unfold field?
  split
  · next e he =>
    obtain ⟨y, hy, rfl⟩ := mem_map.mp (mem_of_find?_eq_some he)
    have hname := find?_some (p := fun e : String × Reader α => e.1 == k) he
    have hyk : foldName y.name = foldName k := congrArg foldName (eq_of_beq hname)
    rw [hunique y hy hyk]
  · have hsome : (s.readers.find? fun e => foldName e.1 == foldName k).isSome = true :=
      find?_isSome.mpr ⟨(x.name, x.read), mem_map_of_mem hx, beq_iff_eq.mpr hk⟩
    obtain ⟨e, he⟩ := Option.isSome_iff_exists.mp hsome
    obtain ⟨y, hy, rfl⟩ := mem_map.mp (mem_of_find?_eq_some he)
    have hname := find?_some (p := fun e : String × Reader α => foldName e.1 == foldName k) he
    rw [he, Option.map_some, hunique y hy (eq_of_beq hname)]

theorem field?_of_forall_ne (s : Schema α) (hk : ∀ x ∈ s.fields, foldName x.name ≠ foldName k) :
    field? s.readers k = none := by
  have hfold : s.readers.find? (fun e => foldName e.1 == foldName k) = none := by
    rw [find?_eq_none]
    intro e he
    obtain ⟨x, hx, rfl⟩ := mem_map.mp he
    simpa using hk x hx
  have hexact : s.readers.find? (·.1 == k) = none := by
    rw [find?_eq_none]
    intro e he
    obtain ⟨x, hx, rfl⟩ := mem_map.mp he
    simpa using fun h : x.name = k => hk x hx (congrArg foldName h)
  rw [field?, hexact, hfold]
  rfl

theorem get_set_ne (s : Schema α) {x y : Field α} (hx : x ∈ s.fields) (hy : y ∈ s.fields)
    (hne : foldName x.name ≠ foldName y.name) (b : y.β) (a : α) : x.get (y.set b a) = x.get a := by
  have hsymm : Std.Symm fun x y : Field α =>
      (∀ b a, x.get (y.set b a) = x.get a) ∧ ∀ b a, y.get (x.set b a) = y.get a := ⟨fun _ _ h => ⟨h.2, h.1⟩⟩
  have hxy : x ≠ y := fun h => hne (by rw [h])
  exact (s.frame.forall hx hy hxy).1 b a

theorem members_iff (s : Schema α) {a a' : α} : members s.readers ms a = .read a' true ↔
      (∀ x ∈ s.fields, members [(x.name, x.reader)] ms (x.get a) = .read (x.get a') true) ∧ s.kept a' = s.kept a := by
  induction ms generalizing a with
  | nil =>
    simp only [members, pure_eq, read.injEq, and_true]
    constructor
    · rintro rfl
      exact ⟨fun _ _ => rfl, rfl⟩
    · exact fun h => s.ext a a' h.1 h.2.symm
  | cons m ms ih =>
    obtain ⟨k, v⟩ := m
    by_cases hhit : ∃ x ∈ s.fields, foldName x.name = foldName (unescape k)
    · obtain ⟨x, hx, hk⟩ := hhit
      -- Only the field of this name moves; all others skip the member.
      have hother : ∀ y ∈ s.fields, foldName y.name ≠ foldName x.name → ∀ b,
          members [(y.name, y.reader)] ((k, v) :: ms) b = members [(y.name, y.reader)] ms b :=
        fun y _ hne b => members_skip (m := (k, v)) (fun hyk => hne (hyk.trans hk.symm)) ms b
      rw [members, s.field?_of_mem hx hk]
      simp only [Field.read, bind_eq_clean, pure_eq, read.injEq, and_true]
      constructor
      · rintro ⟨a₁, ⟨b, hb, rfl⟩, hrest⟩
        obtain ⟨hfields, hkept⟩ := ih.mp hrest
        refine ⟨fun y hy => ?_, hkept.trans (s.kept_set x hx b a)⟩
        by_cases hyx : foldName y.name = foldName x.name
        · obtain rfl := s.eq_of_foldName hy hx hyx
          rw [members_hit (m := (k, v)) hk, bind_eq_clean]
          exact ⟨b, hb, by have := hfields y hy; rwa [s.get_set y hy] at this⟩
        · rw [hother y hy hyx, ← s.get_set_ne hy hx hyx b a]
          exact hfields y hy
      · rintro ⟨hfields, hkept⟩
        have hread := hfields x hx
        rw [members_hit (m := (k, v)) hk, bind_eq_clean] at hread
        obtain ⟨b, hb, hrest⟩ := hread
        refine ⟨x.set b a, ⟨b, hb, rfl⟩, ih.mpr ⟨fun y hy => ?_, hkept.trans (s.kept_set x hx b a).symm⟩⟩
        by_cases hyx : foldName y.name = foldName x.name
        · obtain rfl := s.eq_of_foldName hy hx hyx
          rw [s.get_set y hy]
          exact hrest
        · rw [s.get_set_ne hy hx hyx b a, ← hother y hy hyx]
          exact hfields y hy
    · have hnone : ∀ x ∈ s.fields, foldName x.name ≠ foldName (unescape k) :=
        fun x hx h => hhit ⟨x, hx, h⟩
      rw [members, s.field?_of_forall_ne hnone]
      refine ih.trans (and_congr_left fun _ => forall₂_congr fun x hx => ?_)
      rw [members_skip (m := (k, v)) (hnone x hx)]

end Schema

/-! ## Written records -/

namespace Fragment

variable {fields : List (String × Option Fragment)} {others : Dict Fragment} {ms : List (String × Fragment)}

/-- Every further member that is named like a field, up to case, stands before the field. -/
def Unambiguous (fields : List (String × Option Fragment)) (others : Dict Fragment) : Prop :=
  ∀ e ∈ others, ∀ x ∈ fields, foldName e.1 = foldName x.1 → x.2.isSome = true ∧ e.1 < x.1

instance (fields : List (String × Option Fragment)) (others : Dict Fragment) : Decidable (Unambiguous fields others) :=
  inferInstanceAs (Decidable (∀ e ∈ others, ∀ x ∈ fields, _))

theorem mem_own : e ∈ fields.filterMap (fun m => m.2.map (m.1, ·)) ↔ (e.1, some e.2) ∈ fields := by
  obtain ⟨n, v⟩ := e
  simp only [mem_filterMap, Option.map_eq_some_iff, Prod.mk.injEq]
  constructor
  · rintro ⟨⟨n', o⟩, hm, v', rfl, rfl, rfl⟩
    exact hm
  · intro hm
    exact ⟨(n, some v), hm, v, rfl, rfl, rfl⟩

theorem pairwise_own (h : Distinct (fields.map (·.1))) :
    (fields.filterMap fun m => m.2.map (m.1, ·)).Pairwise fun x y => x.1 ≠ y.1 := by
  refine List.Pairwise.filterMap _ (fun x y hxy a ha b hb => ?_) h.fields
  obtain ⟨v, -, rfl⟩ := Option.map_eq_some_iff.mp ha
  obtain ⟨w, -, rfl⟩ := Option.map_eq_some_iff.mp hb
  exact fun heq => hxy (congrArg foldName heq)

/-- The members of a written record: the fields that are there, and the further members that no field hides. -/
structure Merges (fields : List (String × Option Fragment)) (others : Dict Fragment)
    (ms : List (String × Fragment)) : Prop where
  mem : ∀ {e}, e ∈ ms ↔ (e.1, some e.2) ∈ fields ∨ e ∈ others ∧ ∀ v, (e.1, some v) ∉ fields
  keys : ms.Pairwise fun x y => x.1 ≠ y.1 ∧ (others ≠ [] → x.1 < y.1)
  sorted : Sorted others
  distinct : Distinct (fields.map (·.1))

theorem merges_putAll (hothers : Sorted others) (hfields : Distinct (fields.map (·.1))) :
    Merges fields others (putAll others (fields.filterMap fun m => m.2.map (m.1, ·))) where
  mem {e} := by
    have hown : e.1 ∉ (fields.filterMap fun m => m.2.map (m.1, ·)).map (·.1) ↔ ∀ v, (e.1, some v) ∉ fields := by
      simp only [mem_map, not_exists, not_and]
      constructor
      · intro h v hv
        exact h (e.1, v) (mem_own.mpr hv) rfl
      · rintro h ⟨n, v⟩ hm rfl
        exact h v (mem_own.mp hm)
    rw [mem_putAll hothers (pairwise_own hfields), mem_own, hown]
  keys := (hothers.putAll _).imp fun h => ⟨fun heq => absurd h (by rw [heq]; exact String.lt_irrefl _), fun _ => h⟩
  sorted := hothers
  distinct := hfields

theorem merges_written (hothers : Sorted others) (hfields : Distinct (fields.map (·.1))) :
    Merges fields others (written fields others) := by
  unfold written
  dsimp only
  split
  · next hempty =>
    rw [List.isEmpty_iff] at hempty
    subst hempty
    exact ⟨fun {e} => by rw [mem_own]; simp, (pairwise_own hfields).imp fun h => ⟨h, fun hne => absurd rfl hne⟩,
      hothers, hfields⟩
  · exact merges_putAll hothers hfields

theorem Merges.unique (h : Merges fields others ms) {x y : String × Option Fragment} (hx : x ∈ fields)
    (hy : y ∈ fields) (hname : foldName x.1 = foldName y.1) : y = x := by
  have hsymm : Std.Symm fun x y : String × Option Fragment => foldName x.1 ≠ foldName y.1 :=
    ⟨fun _ _ h => h.symm⟩
  by_contra hne
  exact h.distinct.fields.forall hy hx hne hname.symm

theorem Merges.split (h : Merges fields others ms) (hv : (n, some v) ∈ fields)
    (hothers : ∀ e ∈ others, foldName n = foldName e.1 → e.1 ≠ n → e.1 < n) : ∃ pre post, ms = pre ++ (n, v) :: post
      ∧ (∀ m ∈ pre, foldName n = foldName m.1 → m ∈ others) ∧ ∀ m ∈ post, foldName n ≠ foldName m.1 := by
  obtain ⟨pre, post, hsplit⟩ := append_of_mem (h.mem.mpr (.inl hv) : (n, v) ∈ ms)
  have hkeys := h.keys
  rw [hsplit, pairwise_append, pairwise_cons] at hkeys
  obtain ⟨-, ⟨hafter, -⟩, hpre⟩ := hkeys
  refine ⟨pre, post, hsplit, fun m hm hname => ?_, fun m hm hname => ?_⟩
  · have hin : m ∈ ms := hsplit ▸ mem_append_left _ hm
    rcases h.mem.mp hin with hmf | ⟨hmo, -⟩
    · exact absurd (Prod.mk.inj (h.unique hv hmf hname)).1 (hpre m hm _ mem_cons_self).1
    · exact hmo
  · obtain ⟨hne, hlt⟩ := hafter m hm
    have hin : m ∈ ms := hsplit ▸ mem_append_right _ (mem_cons_of_mem _ hm)
    rcases h.mem.mp hin with hmf | ⟨hmo, -⟩
    · exact hne (Prod.mk.inj (h.unique hv hmf hname)).1.symm
    · exact String.lt_asymm (hothers m hmo hname hne.symm) (hlt (ne_nil_of_mem hmo))

theorem forall_unless {c : Prop} [Decidable c] (h : Q v) : ∀ w ∈ (if c then none else some v), Q w := by
  split
  · exact fun _ hw => nomatch hw
  · rintro _ ⟨⟩
    exact h

theorem Closed.recordWith {P : Value → Prop} (h : Closed P Q)
    (hfields : ∀ x ∈ fields, ∀ v ∈ x.2, Q v) (hothers : ∀ e ∈ others, Q e.2) : Q (recordWith fields others) := by
  have hown : ∀ e ∈ fields.filterMap (fun m => m.2.map (m.1, ·)), Q e.2 :=
    fun e he => hfields _ (mem_own.mp he) e.2 rfl
  rw [Fragment.recordWith]
  refine h.record fun e he => ?_
  unfold written at he
  dsimp only at he
  split at he
  · exact hown e he
  · exact (mem_of_mem_putAll he).elim (hown e) (hothers e)

theorem Closed.recordOf {P : Value → Prop} (h : Closed P Q)
    (hfields : ∀ x ∈ fields, ∀ v ∈ x.2, Q v) : Q (recordOf fields) :=
  show Q (Fragment.recordWith fields []) from h.recordWith hfields fun _ he => nomatch he

theorem membersOf_record (ms : List (String × Fragment)) : membersOf (record ms) = .ok (ofPairs ms) := by
  simp only [record, membersOf, map_map, Function.comp_def, unescape_encode]
  rw [map_id']

theorem membersOf_record_of_sorted {ms : Dict Fragment} (h : Sorted ms) : membersOf (record ms) = .ok ms := by
  rw [membersOf_record, ofPairs_of_sorted h]

theorem membersOf_recordWith (fields : List (String × Option Fragment)) (others : Dict Fragment) :
    membersOf (recordWith fields others) = .ok (ofPairs (written fields others)) := by
  rw [recordWith, membersOf_record]

theorem Merges.mem_ofPairs (h : Merges fields others ms) : e ∈ ofPairs ms ↔ e ∈ ms := by
  rw [ofPairs, mem_putAll Sorted.nil (h.keys.imp fun hkeys => hkeys.1)]
  simp

theorem Merges.othersOf (h : Merges fields others ms) {names : List String} (hnames : ∀ e ∈ others, e.1 ∉ names)
    (hsub : ∀ x ∈ fields, x.1 ∈ names) : Reader.othersOf (record ms) names = .ok others := by
  rw [Reader.othersOf, membersOf_record]
  refine congrArg Except.ok (Sorted.ext ((sorted_ofPairs _).filter _) h.sorted fun e => ?_)
  simp only [mem_filter, h.mem_ofPairs, h.mem, Bool.not_eq_true', contains_eq_mem, decide_eq_false_iff_not]
  constructor
  · rintro ⟨he | he, hn⟩
    · exact absurd (hsub _ he) hn
    · exact he.1
  · intro he
    exact ⟨.inr ⟨he, fun v hv => hnames e he (hsub _ hv)⟩, hnames e he⟩

theorem Merges.has_eq_true (h : Merges fields others ms) (hk : (k, some v) ∈ fields) : has (ofPairs ms) k = true :=
  Dict.has_eq_true.mpr (mem_map.mpr ⟨(k, v), h.mem_ofPairs.mpr (h.mem.mpr (.inl hk)), rfl⟩)

theorem Merges.has_eq_false (h : Merges fields others ms) (hk : k ∉ fields.map (·.1))
    (hothers : has others k = false) : has (ofPairs ms) k = false := by
  rw [Bool.eq_false_iff, ne_eq, Dict.has_eq_true] at hothers ⊢
  intro hmem
  obtain ⟨e, he, rfl⟩ := mem_map.mp hmem
  rcases h.mem.mp (h.mem_ofPairs.mp he) with he | ⟨he, -⟩
  · exact hk (mem_map.mpr ⟨_, he, rfl⟩)
  · exact hothers (mem_map.mpr ⟨e, he, rfl⟩)

theorem othersOf_recordWith {names : List String} (hothers : Sorted others) (hnames : ∀ e ∈ others, e.1 ∉ names)
    (hfields : Distinct (fields.map (·.1))) (hsub : ∀ x ∈ fields, x.1 ∈ names) :
    othersOf (recordWith fields others) names = .ok others := by
  rw [recordWith]
  exact (merges_written hothers hfields).othersOf hnames hsub

theorem Merges.get?_field (h : Merges fields others ms) {o : Option Fragment} (ho : (n, o) ∈ fields)
    (hothers : ∀ e ∈ others, e.1 ≠ n) : get? (ofPairs ms) n = o := by
  cases o with
  | some v => exact (get?_eq_some (sorted_ofPairs ms)).mpr (h.mem_ofPairs.mpr (h.mem.mpr (.inl ho)))
  | none =>
    refine get?_eq_none.mpr fun hmem => ?_
    obtain ⟨e, he, rfl⟩ := mem_map.mp hmem
    rcases h.mem.mp (h.mem_ofPairs.mp he) with he | ⟨he, -⟩
    · exact Option.some_ne_none _ (Prod.mk.inj (h.unique ho he rfl)).2
    · exact hothers e he rfl

theorem Merges.get?_other (h : Merges fields others ms) (hk : k ∉ fields.map (·.1)) :
    get? (ofPairs ms) k = get? others k := by
  have hmem : ∀ v, (k, v) ∈ ofPairs ms ↔ (k, v) ∈ others := by
    intro v
    rw [h.mem_ofPairs, h.mem]
    constructor
    · rintro (hf | ⟨ho, -⟩)
      · exact absurd (mem_map.mpr ⟨_, hf, rfl⟩) hk
      · exact ho
    · exact fun ho => .inr ⟨ho, fun w hw => hk (mem_map.mpr ⟨_, hw, rfl⟩)⟩
  ext v
  rw [get?_eq_some (sorted_ofPairs ms), get?_eq_some h.sorted, hmem]

end Fragment

namespace Reader

variable {α : Type}
variable {n : String} {r : Reader α} {fields : List (String × Option Fragment)} {others : Dict Fragment}
  {ms : List (String × Fragment)} {o : Option Fragment}

theorem foldCase_le {c d : Char} (hs : d ≠ 's') (hk : d ≠ 'k') (h : foldCase c = d) : c ≤ d := by
  unfold foldCase at h
  split at h
  · exact absurd h.symm hs
  · split at h
    · exact absurd h.symm hk
    · rw [← h]
      unfold Char.toLower
      split
      · next hc =>
        simp only [ge_iff_le, UInt32.le_iff_toNat_le] at hc
        rw [Char.le_def, UInt32.le_iff_toNat_le, UInt32.toNat_add]
        simp at hc ⊢
        omega
      · exact Char.le_refl c

theorem lt_of_foldName (hn : ∀ c ∈ n.toList, foldCase c = c ∧ c ≠ 's' ∧ c ≠ 'k')
    (h : foldName n = foldName k) (hne : k ≠ n) : k < n := by
  have hlist (l l' : List Char) (hl' : ∀ c ∈ l', foldCase c = c ∧ c ≠ 's' ∧ c ≠ 'k')
      (h : l'.map foldCase = l.map foldCase) (hne : l ≠ l') : l < l' := by
    induction l' generalizing l with
    | nil => exact absurd (map_eq_nil_iff.mp h.symm) hne
    | cons d l' ih =>
      obtain ⟨⟨hd, hs, hk⟩, hl'⟩ := forall_mem_cons.mp hl'
      cases l with
      | nil => cases h
      | cons c l =>
        obtain ⟨hc, hrest⟩ := List.cons.inj h
        rw [cons_lt_cons_iff]
        by_cases hcd : c = d
        · exact .inr ⟨hcd, ih l hl' hrest fun heq => hne (by rw [hcd, heq])⟩
        · exact .inl (lt_of_le_of_ne (foldCase_le hs hk (hc.symm.trans hd)) hcd)
  rw [String.lt_iff_toList_lt]
  exact hlist _ _ hn h fun heq => hne (String.toList_inj.mp heq)

theorem names_encoded {m : String × Fragment} :
    names n (String.ofList (Escape.encode false m.1.toList), m.2) ↔ foldName n = foldName m.1 := by
  rw [names, unescape_encode]

/-- What is written for a field is read as something with a property, and what is left out has it already. -/
def Restores (r : Reader α) (start : α) (P : α → Prop) (again : Prop) : Option Fragment → Prop
  | some v => ∀ a, (a = start ∨ again) → ∃ b, r v a = .read b true ∧ P b
  | none => P start

theorem Takes.restores {b : α} (h : Takes r v b) (start : α) (again : Prop) :
    Restores r start (· = b) again (some v) := fun a _ => ⟨b, h a, rfl⟩

theorem record_absent (hmerge : Merges fields others ms) (hn : (n, none) ∈ fields)
    (hothers : ∀ e ∈ others, foldName n ≠ foldName e.1) (a : α) : record [(n, r)] (.record ms) a = .read a true := by
  refine members_unnamed (fun m' hm' hname => ?_) a
  obtain ⟨m, hm, rfl⟩ := mem_map.mp hm'
  have hname := names_encoded.mp hname
  rcases hmerge.mem.mp hm with hmf | ⟨hmo, -⟩
  · exact nomatch (Prod.mk.inj (hmerge.unique hn hmf hname)).2
  · exact hothers m hmo hname

theorem record_merged {start : α} {P : α → Prop} (hmerge : Merges fields others ms)
    (hclear : Unambiguous fields others) (ho : (n, o) ∈ fields)
    (haccept : ∀ e ∈ others, foldName n = foldName e.1 → Accepts r e.2)
    (hrestore : Restores r start P (∃ e ∈ others, foldName n = foldName e.1) o) :
    ∃ b, record [(n, r)] (.record ms) start = .read b true ∧ P b := by
  cases o with
  | some v =>
    show ∃ b, members [(n, r)] (ms.map _) start = _ ∧ _
    obtain ⟨pre, post, hsplit, hbefore, hafter⟩ := hmerge.split ho fun e he hname _ => (hclear e he _ ho hname.symm).2
    rw [hsplit, map_append, map_cons]
    refine members_written ?_ (names_encoded (m := (n, v)) |>.mpr rfl) ?_ ?_
    · intro m' hm' hname
      obtain ⟨m, hm, rfl⟩ := mem_map.mp hm'
      have hname := names_encoded.mp hname
      exact haccept m (hbefore m hm hname) hname
    · rintro a (ha | ⟨m', hm', hname⟩)
      · exact hrestore a (.inl ha)
      · obtain ⟨m, hm, rfl⟩ := mem_map.mp hm'
        have hname := names_encoded.mp hname
        exact hrestore a (.inr ⟨m, hbefore m hm hname, hname⟩)
    · intro m' hm' hname
      obtain ⟨m, hm, rfl⟩ := mem_map.mp hm'
      exact hafter m hm (names_encoded.mp hname)
  | none =>
    exact ⟨start, record_absent hmerge ho (fun e he hname => nomatch (hclear e he _ ho hname.symm).1) start, hrestore⟩

theorem read_field_of_merged {a b : α} (hmerge : Merges fields others ms)
    (hv : (n, some v) ∈ fields) (hothers : ∀ e ∈ others, foldName n = foldName e.1 → e.1 ≠ n → e.1 < n)
    (h : record [(n, r)] (.record ms) a = .read b true) : ∃ a', r v a' = .read b true := by
  obtain ⟨pre, post, hsplit, -, hafter⟩ := hmerge.split hv hothers
  have hread : members [(n, r)] (ms.map fun m => (String.ofList (Escape.encode false m.1.toList), m.2)) a = .read b true := h
  rw [hsplit, map_append, map_cons] at hread
  refine read_last_of_members (names_encoded (m := (n, v)) |>.mpr rfl) (fun m' hm' hname => ?_) hread
  obtain ⟨m, hm, rfl⟩ := mem_map.mp hm'
  exact hafter m hm (names_encoded.mp hname)

theorem field_merged {start b : α} (hmerge : Merges fields others ms)
    (hclear : Unambiguous fields others) (ho : (n, o) ∈ fields)
    (haccept : ∀ e ∈ others, foldName n = foldName e.1 → Accepts r e.2)
    (hrestore : Restores r start (· = b) (∃ e ∈ others, foldName n = foldName e.1) o) :
    record [(n, r)] (.record ms) start = .read b true := by
  obtain ⟨_, hread, rfl⟩ := record_merged hmerge hclear ho haccept hrestore
  exact hread

theorem field_recordWith {start b : α} (hothers : Sorted others) (hfields : Distinct (fields.map (·.1)))
    (hclear : Unambiguous fields others) (ho : (n, o) ∈ fields)
    (haccept : ∀ e ∈ others, foldName n = foldName e.1 → Accepts r e.2)
    (hrestore : Restores r start (· = b) (∃ e ∈ others, foldName n = foldName e.1) o) :
    record [(n, r)] (.recordWith fields others) start = .read b true := by
  rw [recordWith]
  exact field_merged (merges_written hothers hfields) hclear ho haccept hrestore

theorem record_unnamed (r : Reader α) (h : ∀ x ∈ fields, foldName n ≠ foldName x.1) (a : α) :
    record [(n, r)] (.recordOf fields) a = .read a true := by
  refine members_unnamed (fun m' hm' hname => ?_) a
  obtain ⟨m, hm, rfl⟩ := mem_map.mp hm'
  exact h _ (mem_own.mp hm) (names_encoded.mp hname)

end Reader

namespace Schema

open Reader

variable {α : Type}
variable {fields : List (String × Option Fragment)} {others : Dict Fragment}

theorem record_iff (s : Schema α) {a a' : α} : record s.readers (.recordWith fields others) a = .read a' true ↔
      (∀ x ∈ s.fields, record [(x.name, x.reader)] (.recordWith fields others) (x.get a) = .read (x.get a') true)
        ∧ s.kept a' = s.kept a := by
  rw [recordWith]
  exact s.members_iff

theorem read_merged (s : Schema α) {start target : α}
    (hmerge : Merges fields others ms) (hclear : Unambiguous fields others)
    (haccept : ∀ e ∈ others, ∀ x ∈ s.fields, foldName x.name = foldName e.1 → Accepts x.reader e.2)
    (hrestore : ∀ x ∈ s.fields, ∃ o, (x.name, o) ∈ fields
      ∧ Restores x.reader (x.get start) (· = x.get target) (∃ e ∈ others, foldName x.name = foldName e.1) o)
    (hkept : s.kept target = s.kept start) : record s.readers (.record ms) start = .read target true := by
  refine s.members_iff.mpr ⟨fun x hx => ?_, hkept⟩
  obtain ⟨o, ho, hx'⟩ := hrestore x hx
  exact field_merged hmerge hclear ho (fun e he => haccept e he x hx) hx'

theorem names_written (s : Schema α) {P : Field α → Option Fragment → Prop}
    (hfields : List.Forall₂ (fun x e => e.1 = x.name ∧ P x e.2) s.fields fields) :
    fields.map (·.1) = s.fields.map (·.name) := by
  rw [← forall₂_eq_eq_eq, forall₂_map_left_iff, forall₂_map_right_iff]
  exact hfields.flip.imp fun _ _ h => h.1

theorem read_written (s : Schema α) {start target : α} (hothers : Sorted others) (hclear : Unambiguous fields others)
    (haccept : ∀ e ∈ others, ∀ x ∈ s.fields, foldName x.name = foldName e.1 → Accepts x.reader e.2)
    (hfields : List.Forall₂ (fun x e => e.1 = x.name
      ∧ Restores x.reader (x.get start) (· = x.get target) (∃ e ∈ others, foldName x.name = foldName e.1) e.2)
      s.fields fields)
    (hkept : s.kept target = s.kept start) :
    record s.readers (.recordWith fields others) start = .read target true := by
  rw [recordWith]
  have hmerge := merges_written hothers (s.names_written hfields ▸ s.distinct)
  refine s.read_merged hmerge hclear haccept (fun x hx => ?_) hkept
  obtain ⟨i, hi, rfl⟩ := getElem_of_mem hx
  have hlen := hfields.length_eq
  obtain ⟨hname, hrestore⟩ := hfields.get hi (hlen ▸ hi)
  exact ⟨_, hname ▸ getElem_mem _, hrestore⟩

theorem read_recordOf (s : Schema α) {start target : α}
    (hfields : List.Forall₂ (fun x e => e.1 = x.name
      ∧ Restores x.reader (x.get start) (· = x.get target) False e.2) s.fields fields)
    (hkept : s.kept target = s.kept start) : record s.readers (.recordOf fields) start = .read target true := by
  have hagain : ∀ x : Field α, (∃ e ∈ ([] : Dict Fragment), foldName x.name = foldName e.1) = False := by simp
  refine s.read_written Sorted.nil nofun nofun ?_ hkept
  simpa only [hagain] using hfields

end Schema

section Entries

variable {α β : Type} {start : α} {names : List String} {finish : α → Dict Fragment → β} {f : Fragment}

/-- Reads an entry: its fields, and its further members, which are those that no field of the given names holds. -/
theorem readEntry_eq_ok {r : Reader α} {b : β} : readEntry r start names finish f = .ok b ↔
    ∃ a others, r f start = .read a true ∧ othersOf f names = .ok others ∧ finish a others = b := by
  simp only [readEntry, bind_eq_ok, run_eq_ok]
  constructor
  · rintro ⟨a, ha, others, hothers, hb⟩
    exact ⟨a, others, ha, hothers, Except.ok.inj hb⟩
  · rintro ⟨a, others, ha, hothers, rfl⟩
    exact ⟨a, ha, others, hothers, rfl⟩

theorem Schema.readEntry_written (s : Schema α) {fields : List (String × Option Fragment)} {others : Dict Fragment}
    (target : α) (hothers : Sorted others) (hforeign : ∀ e ∈ others, e.1 ∉ names) (hclear : Unambiguous fields others)
    (haccept : ∀ e ∈ others, ∀ x ∈ s.fields, foldName x.name = foldName e.1 → x.reader.Accepts e.2)
    (hnames : ∀ x ∈ fields, x.1 ∈ names)
    (hfields : List.Forall₂ (fun x e => e.1 = x.name ∧ Restores x.reader (x.get start) (· = x.get target)
      (∃ e ∈ others, foldName x.name = foldName e.1) e.2) s.fields fields) (hkept : s.kept target = s.kept start) :
    readEntry (.record s.readers) start names finish (.recordWith fields others) = .ok (finish target others) := by
  refine readEntry_eq_ok.mpr ⟨target, others, s.read_written hothers hclear haccept hfields hkept, ?_, rfl⟩
  exact othersOf_recordWith hothers hforeign (s.names_written hfields ▸ s.distinct) hnames

end Entries

/-! ## Records of exact names -/

namespace Reader

variable {α : Type} {fieldNames : List String}

/-- What a field holds after a member of its name was read, or none was there. -/
def Holds (r : Reader α) (start : α) : Option Fragment → α → Prop
  | none, a => a = start
  | some f, a => ∃ old, r f old = .read a true

/-- Members are named like a field, up to case, only if they have its name. -/
def NamedExactly (names : List String) (ms : Dict Fragment) : Prop :=
  ∀ e ∈ ms, ∀ n ∈ names, foldName e.1 = foldName n → e.1 = n

instance (names : List String) (ms : Dict Fragment) : Decidable (NamedExactly names ms) :=
  inferInstanceAs (Decidable (∀ e ∈ ms, ∀ n ∈ names, foldName e.1 = foldName n → e.1 = n))

theorem holds_members {r : Reader α} {start : α} {d : Dict Fragment}
    {a b : α} (hexact : ∀ m ∈ ms, names n m → unescape m.1 = n) (ha : Holds r start (get? d n) a)
    (h : members [(n, r)] ms a = .read b true) :
    Holds r start (get? (putAll d (ms.map fun m => (unescape m.1, m.2))) n) b := by
  induction ms generalizing d a with
  | nil =>
    cases h
    exact ha
  | cons m ms ih =>
    obtain ⟨hm, hms⟩ := forall_mem_cons.mp hexact
    rw [map_cons, putAll_cons]
    by_cases hname : names n m
    · rw [members_hit hname, bind_eq_clean] at h
      obtain ⟨a', ha', hrest⟩ := h
      refine ih hms ?_ hrest
      rw [get?_put, if_pos (hm hname).symm]
      exact ⟨a, ha'⟩
    · rw [members_skip hname] at h
      refine ih hms ?_ h
      rw [get?_put, if_neg fun heq => hname (by rw [names, heq])]
      exact ha

theorem holds_of_record {r : Reader α} {ms : Dict Fragment} {start b : α}
    (hms : membersOf f = .ok ms) (hexact : NamedExactly fieldNames ms) (hn : n ∈ fieldNames)
    (h : record [(n, r)] f start = .read b true) : Holds r start (get? ms n) b := by
  cases f with
  | null =>
    cases hms
    exact ((read.inj h).1).symm
  | object raw blanks =>
    cases hms
    refine holds_members (fun m hm hname => ?_) rfl h
    -- The dictionary has a member of this name, if perhaps a later one.
    have hkey : unescape m.1 ∈ (raw.map fun m => (unescape m.1, m.2)).map (·.1) :=
      mem_map.mpr ⟨_, mem_map_of_mem hm, rfl⟩
    obtain ⟨v, hv⟩ := Option.isSome_iff_exists.mp (isSome_get?_putAll (d := []) (.inr hkey))
    exact hexact _ (mem_of_get? hv) n hn hname.symm
  | _ => cases hms

theorem holds_of_schema (s : Schema α) {ms : Dict Fragment} {start b : α}
    (hms : membersOf f = .ok ms) (hexact : NamedExactly fieldNames ms) (hnames : ∀ x ∈ s.fields, x.name ∈ fieldNames)
    (h : record s.readers f start = .read b true) :
    ∀ x ∈ s.fields, Holds x.reader (x.get start) (get? ms x.name) (x.get b) := by
  intro x hx
  refine holds_of_record hms hexact (hnames x hx) ?_
  cases f with
  | null =>
    cases h
    rfl
  | object raw blanks => exact (s.members_iff.mp h).1 x hx
  | _ => cases hms

theorem get?_othersOf {ms others : Dict Fragment} {names : List String} (hms : membersOf f = .ok ms)
    (h : othersOf f names = .ok others) (hk : k ∉ names) : get? others k = get? ms k := by
  rw [othersOf, hms] at h
  cases h
  refine (get?_filter ms (fun k => !names.contains k) k).trans (if_pos ?_)
  simpa using hk

theorem NamedExactly.unambiguous {names : List String} {ms others : Dict Fragment}
    {fields : List (String × Option Fragment)} (h : NamedExactly names ms) (hms : membersOf f = .ok ms)
    (hothers : othersOf f names = .ok others) (hfields : ∀ x ∈ fields, x.1 ∈ names) : Unambiguous fields others := by
  intro e he x hx heq
  rw [othersOf, hms] at hothers
  cases hothers
  obtain ⟨hmem, hforeign⟩ := mem_filter.mp he
  have hname := h e hmem x.1 (hfields x hx) heq
  simp [hname, hfields x hx] at hforeign

end Reader

end AnimatedChart.Json
