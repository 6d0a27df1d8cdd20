import AnimatedChart.Proofs.Json.Records
import AnimatedChart.Proofs.Json.Roundtrip

/-!
# Readers

Three facts about each reader. What was written for a value is taken as that value (`Reader.Takes`).
-/

open List AnimatedChart.Json.Reading AnimatedChart.Json.Fragment AnimatedChart.Dict

namespace AnimatedChart.Json

variable {α : Type} {others : Dict Fragment} {v : Fragment} {names : List String}

def Reading.map {α β : Type} (g : α → β) : Reading α → Reading β
  | read a clean => read (g a) clean
  | refused e => refused e

theorem Reading.map_id (x : Reading α) : x.map id = x := by cases x <;> rfl

theorem Reading.bind_map {β α' β' : Type} {g : α → α'} {h : β → β'} (x : Reading α) {f : α → Reading β}
    {f' : α' → Reading β'} (hf : ∀ a, f' (g a) = (f a).map h) : x.map g >>= f' = (x >>= f).map h := by
  cases x with
  | refused e => rfl
  | read a clean =>
    show andThen (read (g a) clean) f' = (andThen (read a clean) f).map h
    simp only [andThen, hf]
    cases f a <;> rfl

theorem Reading.settle_map {β : Type} (g : α → β) (x : Reading α) : (x.map g).settle = x.settle.map g := by
  cases x with
  | refused e => rfl
  | read a clean => cases clean <;> rfl

/-! ## Records without blanks -/

namespace Fragment

theorem mapValues_bare_bare (d : Dict Fragment) : mapValues bare (mapValues bare d) = mapValues bare d := by
  simp [mapValues, bare_bare]

theorem bare_record (ms : List (String × Fragment)) : (record ms).bare = .record (mapValues bare ms) := by
  simp [record, bare, bareMembers_eq_map, mapValues]

theorem filterMap_bare (ms : List (String × Option Fragment)) :
    (ms.map fun m => (m.1, m.2.map bare)).filterMap (fun m => m.2.map (m.1, ·))
      = mapValues bare (ms.filterMap fun m => m.2.map (m.1, ·)) := by
  induction ms with
  | nil => rfl
  | cons m ms ih =>
    obtain ⟨k, v⟩ := m
    cases v with
    | none => simpa using ih
    | some f => simpa [mapValues] using ih

theorem bare_recordWith (ms : List (String × Option Fragment)) (others : Dict Fragment) : (recordWith ms others).bare
      = .recordWith (ms.map fun m => (m.1, m.2.map bare)) (mapValues bare others) := by
  unfold recordWith written
  rw [filterMap_bare]
  cases others with
  | nil => exact bare_record _
  | cons e others =>
    show (record (putAll _ _)).bare = .record (putAll _ _)
    rw [bare_record, ← putAll_mapValues]

theorem bare_list (fs : List Fragment) : (list fs).bare = .list (fs.map bare) := by
  rw [list, bare, bareAll_eq_map]
  rfl

theorem bare_recordWith_congr {ms ms' : List (String × Option Fragment)}
    (h : ms'.map (fun m => (m.1, m.2.map bare)) = ms.map fun m => (m.1, m.2.map bare)) :
    (recordWith ms' (mapValues bare others)).bare = (recordWith ms others).bare := by
  rw [bare_recordWith, bare_recordWith, h, mapValues_bare_bare]

theorem bare_recordWith_forall₂ {ms ms' : List (String × Option Fragment)} {others : Dict Fragment}
    (h : List.Forall₂ (fun m' m => m'.1 = m.1 ∧ m'.2.map bare = m.2.map bare) ms' ms) :
    (recordWith ms' (mapValues bare others)).bare = (recordWith ms others).bare := by
  refine bare_recordWith_congr ?_
  rw [← forall₂_eq_eq_eq, forall₂_map_left_iff, forall₂_map_right_iff]
  exact h.imp fun _ _ h => Prod.ext h.1 h.2

theorem bare_listed {write : α → Fragment} {change : α → α} {xs : List α}
    (h : ∀ x ∈ xs, (write (change x)).bare = (write x).bare) :
    Option.map bare (if (xs.map change).isEmpty then none else some (.list ((xs.map change).map write)))
      = Option.map bare (if xs.isEmpty then none else some (.list (xs.map write))) := by
  cases xs with
  | nil => rfl
  | cons x xs =>
    show some (list _).bare = some (list _).bare
    rw [bare_list, bare_list, map_map, map_map, map_map]
    exact congrArg (some ∘ list) (map_congr_left h)

end Fragment

namespace Reader

variable {α β : Type}
variable {r : Reader α} {f : Fragment} {empty : α} {as : List α} {write : α → Fragment} {g : α → α} {old : List α}
variable {x : Field α} {a : α}
  {fs : List Fragment} {fields : List (String × Reader α)} {P : α → Prop}

/-! ## Written values are taken -/

theorem takes_text (s : String) : Takes text (.text s) s := by
  intro a
  show read (unescape _) true = _
  rw [unescape_encode]

theorem takes_number {x : Float} (h : Decimal.IsFinite x) : Takes number (Value.literal x) x := by
  intro a
  rw [Value.literal, number, Decimal.numberOfLiteral_write h]
  rfl

theorem takes_flag (b : Bool) : Takes flag (.bool b) b := fun _ => rfl

theorem takes_any {v : Value} (h : v.Plain) : Takes any v.toFragment v := by
  intro a
  rw [any, Value.ofFragment_toFragment v h]

theorem takes_fragment (f : Fragment) : Takes fragment f (some f) := fun _ => rfl

theorem takes_settled {r : Fragment → Except Error α} (h : r f = .ok a) :
    Takes (settled r) f a := fun _ => settled_eq_clean.mpr h

theorem optional_eq_clean {old : Option α} (hf : f ≠ .null) :
    optional empty r f old = .read (some a) true ↔ r f (old.getD empty) = .read a true := by
  have hsome : optional empty r f old = (do let b ← r f (old.getD empty); pure (some b)) := by
    cases f with
    | null => exact absurd rfl hf
    | _ => rfl
  rw [hsome, bind_eq_clean]
  constructor
  · rintro ⟨b, hb, heq⟩
    exact Option.some.inj (read.inj heq).1 ▸ hb
  · exact fun h => ⟨a, h, rfl⟩

theorem takes_optional (hf : f ≠ .null) (h : Takes r f a) :
    Takes (optional empty r) f (some a) := fun _ => (optional_eq_clean hf).mpr (h _)

theorem record_singleton {n : String} {b : α} (h : Takes r v b) (a : α) :
    record [(n, r)] (.record [(n, v)]) a = .read b true :=
  (members_hit (names_encoded (m := (n, v)) |>.mpr rfl) [] a).trans
    (bind_eq_clean.mpr ⟨b, h a, rfl⟩)

theorem items_eq_clean {as : List β} {write : β → Fragment} {g : β → α} (h : ∀ a ∈ as, Takes r (write a) (g a))
    (old : List α) : items empty r (as.map write) old = .read (as.map g) true := by
  induction as generalizing old with
  | nil => rfl
  | cons a as ih =>
    obtain ⟨ha, has⟩ := forall_mem_cons.mp h
    rw [map_cons, items, bind_eq_clean]
    exact ⟨g a, ha _, bind_eq_clean.mpr ⟨as.map g, ih has _, rfl⟩⟩

theorem forall₂_of_items (h : items empty r fs old = .read as true) :
    List.Forall₂ (fun f a => ∃ a', r f a' = .read a true) fs as := by
  induction fs generalizing old as with
  | nil =>
    cases h
    exact .nil
  | cons f fs ih =>
    rw [items, bind_eq_clean] at h
    obtain ⟨a, ha, h⟩ := h
    obtain ⟨rest, hrest, h⟩ := bind_eq_clean.mp h
    cases h
    exact .cons ⟨_, ha⟩ (ih hrest)

theorem items_over_nil {as : List β} {write : β → Fragment} {g : β → α}
    (h : ∀ a ∈ as, r (write a) empty = .read (g a) true) : items empty r (as.map write) [] = .read (as.map g) true := by
  induction as with
  | nil => rfl
  | cons a as ih =>
    obtain ⟨ha, has⟩ := forall_mem_cons.mp h
    rw [map_cons, items, bind_eq_clean]
    exact ⟨g a, ha, bind_eq_clean.mpr ⟨as.map g, ih has, rfl⟩⟩

theorem takes_list_map {as : List β} {write : β → Fragment} {g : β → α} (h : ∀ a ∈ as, Takes r (write a) (g a)) :
    Takes (list empty r) (.list (as.map write)) (as.map g) :=
  fun old => items_eq_clean h old

theorem takes_list (h : ∀ a ∈ as, Takes r (write a) a) : Takes (list empty r) (.list (as.map write)) as := by
  have htakes : Takes (list empty r) (.list (as.map write)) (as.map id) := takes_list_map h
  rwa [List.map_id] at htakes

theorem takes_list?_map {as : List β} {write : β → Fragment} {g : β → α} (h : ∀ a ∈ as, Takes r (write a) (g a)) :
    Takes (list? empty r) (.list (as.map write)) (some (as.map g)) := by
  intro old
  rw [Fragment.list, list?, items_eq_clean h]
  rfl

theorem takes_list? (h : ∀ a ∈ as, Takes r (write a) a) : Takes (list? empty r) (.list (as.map write)) (some as) := by
  have htakes : Takes (list? empty r) (.list (as.map write)) (some (as.map id)) := takes_list?_map h
  rwa [List.map_id] at htakes

theorem slots_eq_clean (h : ∀ a ∈ as, Takes r (write a) a) :
    ∀ old, ∃ s, slots empty r (.list (as.map write)) old = .read s true ∧ s.items = some as := by
  intro old
  cases as with
  | nil => exact ⟨_, rfl, rfl⟩
  | cons a as =>
    have hitems : items empty r (write a :: as.map write) (old.toList ++ old.spare) = .read ((a :: as).map id) true :=
      items_eq_clean h _
    rw [List.map_id] at hitems
    rw [Fragment.list, map_cons, slots]
    · simp only [hitems]
      exact ⟨_, rfl, rfl⟩
    · intro h
      cases h

theorem entries_written {ms : List (String × α)} (h : ∀ m ∈ ms, r (write m.2) empty = .read m.2 true) (d : Dict α) :
    entries empty r (ms.map fun m => (String.ofList (Escape.encode false m.1.toList), write m.2)) d
      = .read (putAll d ms) true := by
  induction ms generalizing d with
  | nil => rfl
  | cons m ms ih =>
    obtain ⟨hm, hms⟩ := forall_mem_cons.mp h
    rw [map_cons, entries, bind_eq_clean]
    refine ⟨m.2, hm, ?_⟩
    rw [unescape_encode, ih hms]
    rfl

theorem entries_eq_clean {ms : List (String × Value)} (h : Value.PlainMembers ms) (d : Dict Value) :
    entries .null any ((Value.toMembers ms).map fun m => (String.ofList (Escape.encode false m.1.toList), m.2)) d
      = .read (putAll d ms) true := by
  rw [Value.toMembers_eq_map, map_map]
  exact entries_written (fun m hm => takes_any (Value.plainMembers_iff.mp h m hm) _) d

theorem restores_map {o : Option α} {again : Prop} (hnull : ∀ a, write a ≠ .null) (h : ∀ a ∈ o, Takes r (write a) a) :
    Restores (optional empty r) none (· = o) again (o.map write) := by
  cases o with
  | none => rfl
  | some a => exact (takes_optional (hnull a) (h a rfl)).restores none again

theorem restores_fragment (o : Option Fragment) (again : Prop) : Restores fragment none (· = o) again o := by
  cases o with
  | none => rfl
  | some f => exact (takes_fragment f).restores none again

theorem restores_unless {start b : α} {c again : Prop} [Decidable c] (hc : c → start = b)
    (h : ¬c → Takes r v b) : Restores r start (· = b) again (if c then none else some v) := by
  split
  · next hc' => exact hc hc'
  · next hc' => exact (h hc').restores start again

/-! ## Steady readers -/

def Steady (r : Reader α) : Prop := ∀ f a b, r f a = .read b true → Accepts r f

theorem steady_text : Steady text := by
  intro f a b h a'
  cases f with
  | null => exact ⟨a', rfl⟩
  | string body => exact ⟨_, rfl⟩
  | _ => cases h

theorem steady_number : Steady number := by
  intro f a b h a'
  cases f with
  | null => exact ⟨a', rfl⟩
  | number l =>
    simp only [number] at h ⊢
    cases hl : numberOfLiteral? l with
    | none => simp [hl, skipped] at h
    | some x => exact ⟨x, rfl⟩
  | _ => cases h

theorem steady_any : Steady any := fun _ _ _ h _ => ⟨_, h⟩

theorem steady_fragment : Steady fragment := fun f _ _ _ _ => ⟨some f, rfl⟩

theorem steady_settled (r : Fragment → Except Error α) : Steady (settled r) := fun _ _ _ h _ => ⟨_, h⟩

theorem steady_optional (hr : Steady r) : Steady (optional empty r) := by
  intro f a b h a'
  have hread : ∀ g : Fragment, (do let c ← r g (a.getD empty); pure (some c) : Reading (Option α)) = .read b true →
      ∃ c, (do let c ← r g (a'.getD empty); pure (some c) : Reading (Option α)) = .read c true := by
    intro g hg
    obtain ⟨c, hc, -⟩ := bind_eq_clean.mp hg
    obtain ⟨c', hc'⟩ := hr g _ _ hc (a'.getD empty)
    exact ⟨some c', bind_eq_clean.mpr ⟨c', hc', rfl⟩⟩
  cases f with
  | null => exact ⟨none, rfl⟩
  | _ => exact hread _ h

theorem steady_items (hr : Steady r) (h : items empty r fs old = .read as true) (old' : List α) :
    ∃ as', items empty r fs old' = .read as' true := by
  induction fs generalizing old as old' with
  | nil => exact ⟨[], rfl⟩
  | cons f fs ih =>
    rw [items, bind_eq_clean] at h
    obtain ⟨a, ha, hrest⟩ := h
    obtain ⟨rest, hrest, -⟩ := bind_eq_clean.mp hrest
    obtain ⟨a', ha'⟩ := hr f _ _ ha (old'.head?.getD empty)
    obtain ⟨rest', hrest'⟩ := ih hrest old'.tail
    refine ⟨a' :: rest', ?_⟩
    rw [items, bind_eq_clean]
    exact ⟨a', ha', bind_eq_clean.mpr ⟨rest', hrest', rfl⟩⟩

theorem steady_list (hr : Steady r) : Steady (list empty r) := by
  intro f a b h a'
  cases f with
  | null => exact ⟨[], rfl⟩
  | array fs blanks => exact steady_items hr h a'
  | _ => cases h

theorem steady_list? (hr : Steady r) : Steady (list? empty r) := by
  intro f a b h a'
  cases f with
  | null => exact ⟨none, rfl⟩
  | array fs blanks =>
    obtain ⟨as, has, -⟩ := bind_eq_clean.mp h
    obtain ⟨as', has'⟩ := steady_items hr has (a'.getD [])
    exact ⟨some as', bind_eq_clean.mpr ⟨as', has', rfl⟩⟩
  | _ => cases h

theorem steady_slots (hr : Steady r) : Steady (slots empty r) := by
  intro f a b h a'
  cases f with
  | null => exact ⟨{}, rfl⟩
  | array fs blanks =>
    cases fs with
    | nil => exact ⟨{ items := some [] }, rfl⟩
    | cons f fs =>
      obtain ⟨as, has, -⟩ := bind_eq_clean.mp h
      obtain ⟨as', has'⟩ := steady_items hr has (a'.toList ++ a'.spare)
      exact ⟨_, bind_eq_clean.mpr ⟨as', has', rfl⟩⟩
  | _ => cases h

theorem mem_of_field? {fields : List (String × α)} {k : String} {r : α} (h : field? fields k = some r) :
    ∃ x ∈ fields, x.2 = r := by
  unfold field? at h
  split at h
  · next e he => exact ⟨e, mem_of_find?_eq_some he, Option.some.inj h⟩
  · obtain ⟨e, he, hr⟩ := Option.map_eq_some_iff.mp h
    exact ⟨e, mem_of_find?_eq_some he, hr⟩

theorem steady_record (hr : ∀ x ∈ fields, Steady x.2) : Steady (record fields) := by
  have hmembers : ∀ (ms : List (String × Fragment)) (a b a' : α), members fields ms a = .read b true →
      ∃ b', members fields ms a' = .read b' true := by
    intro ms
    induction ms with
    | nil => exact fun _ _ a' _ => ⟨a', rfl⟩
    | cons m ms ih =>
      intro a b a' h
      obtain ⟨k, v⟩ := m
      rw [members] at h ⊢
      cases hk : field? fields (unescape k) with
      | none =>
        simp only [hk] at h
        exact ih a b a' h
      | some r =>
        simp only [hk] at h
        obtain ⟨x, hx, rfl⟩ := mem_of_field? hk
        obtain ⟨c, hc, hrest⟩ := bind_eq_clean.mp h
        obtain ⟨c', hc'⟩ := hr x hx v _ _ hc a'
        obtain ⟨b', hb'⟩ := ih c b c' hrest
        exact ⟨b', bind_eq_clean.mpr ⟨c', hc', hb'⟩⟩
  intro f a b h a'
  cases f with
  | null => exact ⟨a', rfl⟩
  | object ms blanks => exact hmembers ms a b a' h
  | _ => cases h

theorem steady_read (h : Steady x.reader) : Steady x.read := by
  intro f a b hb a'
  obtain ⟨c, hc, -⟩ := bind_eq_clean.mp hb
  obtain ⟨c', hc'⟩ := h f _ _ hc (x.get a')
  exact ⟨x.set c' a', bind_eq_clean.mpr ⟨c', hc', rfl⟩⟩

/-! ## Readers do not look at blanks -/

/-- Reading without blanks gives what reading gives, with `g` for taking the blanks away. -/
def Natural (g : α → α) (r : Reader α) : Prop := ∀ f a, r f.bare (g a) = (r f a).map g

theorem run_bare (h : Natural g r) (f : Fragment) (ha : g a = a) : r.run f.bare a = (r.run f a).map g := by
  rw [run, run, ← settle_map, ← h, ha]

theorem run_bare_id (h : Natural id r) (f : Fragment) (a : α) : r.run f.bare a = r.run f a := by
  rw [run_bare h f rfl]
  cases r.run f a <;> rfl

theorem natural_text : Natural id text := by
  intro f a
  cases f <;> rfl

theorem natural_number : Natural id number := by
  intro f a
  cases f with
  | number l => exact (Reading.map_id _).symm
  | _ => rfl

theorem natural_flag : Natural id flag := by
  intro f a
  cases f <;> rfl

mutual

theorem ofFragment_bare : ∀ f : Fragment, Value.ofFragment f.bare = Value.ofFragment f
  | .null => rfl
  | .bool _ => rfl
  | .number _ => rfl
  | .string _ => rfl
  | .array items _ => by rw [bare, Value.ofFragment, Value.ofFragment, ofItems_bare items]
  | .object members _ => by rw [bare, Value.ofFragment, Value.ofFragment, ofMembers_bare members]

theorem ofItems_bare : ∀ fs : List Fragment, Value.ofItems (bareAll fs) = Value.ofItems fs
  | [] => rfl
  | f :: fs => by rw [bareAll, Value.ofItems, Value.ofItems, ofFragment_bare f, ofItems_bare fs]

theorem ofMembers_bare : ∀ ms : List (String × Fragment), Value.ofMembers (bareMembers ms) = Value.ofMembers ms
  | [] => rfl
  | (k, f) :: ms => by rw [bareMembers, Value.ofMembers, Value.ofMembers, ofFragment_bare f, ofMembers_bare ms]

end

theorem natural_any : Natural id any := by
  intro f a
  simp only [any, ofFragment_bare]
  rfl

theorem natural_fragment : Natural (Option.map bare) fragment := fun _ _ => rfl

theorem natural_settled {r : Fragment → Except Error α} (h : ∀ f, r f.bare = (r f).map g) : Natural g (settled r) := by
  intro f a
  show ofExcept (r f.bare) = (ofExcept (r f)).map g
  rw [h]
  cases r f <;> rfl

theorem natural_optional (hr : Natural g r) (hempty : g empty = empty) : Natural (Option.map g) (optional empty r) := by
  intro f old
  have hget : (Option.map g old).getD empty = g (old.getD empty) := by
    cases old with
    | none => exact hempty.symm
    | some a => rfl
  have hsome : (do let a ← r f.bare ((Option.map g old).getD empty); pure (some a) : Reading (Option α))
      = (do let a ← r f (old.getD empty); pure (some a) : Reading (Option α)).map (Option.map g) := by
    rw [hget, hr]
    exact bind_map _ fun _ => rfl
  cases f with
  | null => rfl
  | _ => exact hsome

theorem items_bare (hr : Natural g r) (hempty : g empty = empty) (fs : List Fragment) (old : List α) :
    items empty r (bareAll fs) (old.map g) = (items empty r fs old).map (List.map g) := by
  induction fs generalizing old with
  | nil => rfl
  | cons f fs ih =>
    have hhead : (old.map g).head?.getD empty = g (old.head?.getD empty) := by
      cases old with
      | nil => exact hempty.symm
      | cons a as => rfl
    rw [bareAll, items, items, hhead, hr, ← map_tail, ih]
    exact bind_map _ fun a => bind_map _ fun _ => rfl

theorem natural_list (hr : Natural g r) (hempty : g empty = empty) : Natural (List.map g) (list empty r) := by
  intro f old
  cases f with
  | array fs blanks => exact items_bare hr hempty fs old
  | _ => rfl

theorem natural_list? (hr : Natural g r) (hempty : g empty = empty) :
    Natural (Option.map (List.map g)) (list? empty r) := by
  intro f old
  cases f with
  | array fs blanks =>
    have hget : (Option.map (List.map g) old).getD [] = (old.getD []).map g := by cases old <;> rfl
    show (do let as ← items empty r (bareAll fs) _; pure (some as) : Reading (Option (List α))) = _
    rw [hget, items_bare hr hempty]
    exact bind_map _ fun _ => rfl
  | _ => rfl

def Slots.map (g : α → α) (s : Slots α) : Slots α :=
  { items := s.items.map (List.map g), spare := s.spare.map g }

theorem Slots.toList_map (g : α → α) (s : Slots α) : (s.map g).toList = s.toList.map g := by
  obtain ⟨items, spare⟩ := s
  cases items <;> rfl

theorem natural_slots (hr : Natural g r) (hempty : g empty = empty) : Natural (Slots.map g) (slots empty r) := by
  intro f old
  cases f with
  | array fs blanks =>
    cases fs with
    | nil => rfl
    | cons f fs =>
      have hbefore : (Slots.map g old).toList ++ (Slots.map g old).spare = (old.toList ++ old.spare).map g := by
        rw [Slots.toList_map, map_append]
        rfl
      show (do
        let as ← items empty r (bareAll (f :: fs)) _
        pure { items := some as, spare := List.drop as.length _ } : Reading (Slots α)) = _
      rw [hbefore, items_bare hr hempty]
      refine Reading.bind_map _ fun as => ?_
      simp only [Reading.pure_eq, Reading.map, Slots.map, length_map, map_drop, Option.map_some]
  | _ => rfl

theorem natural_optional_id (hr : Natural id r) : Natural id (optional empty r) := by
  have h : Natural (Option.map id) (optional empty r) := natural_optional hr rfl
  rwa [Option.map_id] at h

theorem natural_list_id (hr : Natural id r) : Natural id (list empty r) := by
  have h : Natural (List.map id) (list empty r) := natural_list hr rfl
  rwa [map_id_fun] at h

theorem natural_list?_id (hr : Natural id r) : Natural id (list? empty r) := by
  have h : Natural (Option.map (List.map id)) (list? empty r) := natural_list? hr rfl
  rwa [map_id_fun, Option.map_id] at h

theorem Slots.map_id : Slots.map (id : α → α) = id := by
  funext s
  obtain ⟨items, spare⟩ := s
  cases items <;> simp [Slots.map]

theorem natural_slots_id (hr : Natural id r) : Natural id (slots empty r) := by
  have h : Natural (Slots.map id) (slots empty r) := natural_slots hr rfl
  rwa [Slots.map_id] at h

theorem natural_settled_id {r : Fragment → Except Error α} (h : ∀ f, r f.bare = r f) : Natural id (settled r) := by
  intro f a
  show Reading.ofExcept (r f.bare) = _
  rw [h, Reading.map_id]
  rfl

theorem entries_bare (hr : Natural id r) (ms : List (String × Fragment)) (d : Dict α) :
    entries empty r (bareMembers ms) d = entries empty r ms d := by
  induction ms generalizing d with
  | nil => rfl
  | cons m ms ih =>
    obtain ⟨k, f⟩ := m
    have hread : r f.bare empty = r f empty := (hr f empty).trans (map_id _)
    rw [bareMembers, entries, entries, hread]
    exact congrArg _ (funext fun a => ih _)

theorem natural_dict? (hr : Natural id r) : Natural id (dict? empty r) := by
  intro f old
  cases f with
  | object ms blanks =>
    show (do let d ← entries empty r (bareMembers ms) _; pure (some d) : Reading (Option (Dict α))) = _
    rw [entries_bare hr, Reading.map_id]
    rfl
  | _ => rfl

theorem members_bare (hr : ∀ x ∈ fields, Natural g x.2) (ms : List (String × Fragment)) (a : α) :
    members fields (bareMembers ms) (g a) = (members fields ms a).map g := by
  induction ms generalizing a with
  | nil => rfl
  | cons m ms ih =>
    obtain ⟨k, v⟩ := m
    rw [bareMembers, members, members]
    cases hk : field? fields (unescape k) with
    | none => exact ih a
    | some r =>
      obtain ⟨x, hx, rfl⟩ := mem_of_field? hk
      show x.2 v.bare (g a) >>= _ = _
      rw [hr x hx]
      exact bind_map _ fun b => ih b

theorem natural_record (hr : ∀ x ∈ fields, Natural g x.2) : Natural g (record fields) := by
  intro f a
  cases f with
  | object ms blanks => exact members_bare hr ms a
  | _ => rfl

theorem natural_read {h : x.β → x.β} (hr : Natural h x.reader) (hget : ∀ a, x.get (g a) = h (x.get a))
    (hset : ∀ b a, g (x.set b a) = x.set (h b) (g a)) : Natural g x.read := by
  intro f a
  show (do return x.set (← x.reader f.bare (x.get (g a))) (g a) : Reading α) = _
  rw [hget, hr]
  refine bind_map _ fun b => ?_
  rw [pure_eq, ← hset]
  rfl

theorem membersOf_bare (f : Fragment) : membersOf f.bare = (membersOf f).map (mapValues bare) := by
  cases f with
  | object ms blanks =>
    have hnames : (bareMembers ms).map (fun m => (unescape m.1, m.2))
        = mapValues bare (ms.map fun m => (unescape m.1, m.2)) := by
      simp only [bareMembers_eq_map, mapValues, map_map, Function.comp_def]
    show Except.ok (ofPairs ((bareMembers ms).map _)) = _
    rw [hnames]
    exact congrArg Except.ok (putAll_mapValues bare [] _)
  | _ => rfl

theorem othersOf_bare (f : Fragment) (names : List String) :
    othersOf f.bare names = (othersOf f names).map (mapValues bare) := by
  rw [othersOf, othersOf, membersOf_bare]
  cases membersOf f with
  | error e => rfl
  | ok d => exact congrArg Except.ok (filter_mapValues bare d fun k => !names.contains k)

/-! ## What readers keep -/

/-- What is read from a spelled fragment has the property if what was there before had it. -/
def Keeps (P : α → Prop) (r : Reader α) : Prop := ∀ f a b, f.Spelled → P a → r f a = .read b true → P b

theorem keeps_true (r : Reader α) : Keeps (fun _ => True) r := fun _ _ _ _ _ _ => trivial

theorem keeps_number : Keeps Decimal.IsFinite number := by
  intro f a b _ ha h
  cases f with
  | null => exact (read.inj h).1 ▸ ha
  | number l =>
    simp only [number] at h
    split at h
    · next x hx => exact (read.inj h).1 ▸ Decimal.isFinite_numberOfLiteral hx
    · cases h
  | _ => cases h

theorem keeps_any : Keeps Value.Plain any := by
  intro f a b _ _ h
  obtain rfl := (read.inj h).1
  exact Value.plain_ofFragment f

theorem keeps_fragment : Keeps (fun o => ∀ f ∈ o, f.Spelled) fragment := by
  intro f a b hf _ h
  cases h
  rintro _ ⟨⟩
  exact hf

theorem keeps_settled {r : Fragment → Except Error α} (h : ∀ f a, f.Spelled → r f = .ok a → P a) :
    Keeps P (settled r) := fun f _ b hf _ hread => h f b hf (settled_eq_clean.mp hread)

theorem keeps_optional (hr : Keeps P r) (hempty : P empty) : Keeps (fun o => ∀ a ∈ o, P a) (optional empty r) := by
  intro f a b hf ha h
  have hsome : (do let c ← r f (a.getD empty); pure (some c) : Reading (Option α)) = .read b true → ∀ c ∈ b, P c := by
    intro hread
    obtain ⟨c, hc, hb⟩ := bind_eq_clean.mp hread
    cases hb
    rintro _ ⟨⟩
    refine hr f _ c hf ?_ hc
    cases a with
    | none => exact hempty
    | some a => exact ha a rfl
  cases f with
  | null =>
    cases h
    exact nofun
  | _ => exact hsome h

theorem keeps_items {Q : α → Prop} (hr : ∀ f a b, f.Spelled → Q a → r f a = .read b true → P b) (hempty : Q empty)
    (hfs : ∀ f ∈ fs, f.Spelled) (hold : ∀ a ∈ old, Q a) (h : items empty r fs old = .read as true) : ∀ a ∈ as, P a := by
  induction fs generalizing old as with
  | nil =>
    cases h
    exact nofun
  | cons f fs ih =>
    rw [items, bind_eq_clean] at h
    obtain ⟨a, ha, hrest⟩ := h
    obtain ⟨rest, htail, has⟩ := bind_eq_clean.mp hrest
    cases has
    obtain ⟨hf, hfs⟩ := forall_mem_cons.mp hfs
    refine forall_mem_cons.mpr ⟨hr f _ a hf ?_ ha, ih hfs (fun b hb => hold b (mem_of_mem_tail hb)) htail⟩
    cases old with
    | nil => exact hempty
    | cons b bs => exact hold b mem_cons_self

theorem keeps_list (hr : Keeps P r) (hempty : P empty) : Keeps (fun as => ∀ a ∈ as, P a) (list empty r) := by
  intro f old as hf hold h
  cases f with
  | null =>
    cases h
    exact nofun
  | array fs blanks => exact keeps_items hr hempty (spelledAll_iff.mp hf) hold h
  | _ => cases h

theorem keeps_list_settled {r : Fragment → Except Error α} (hr : ∀ f a, f.Spelled → r f = .ok a → P a) :
    Keeps (fun as => ∀ a ∈ as, P a) (list empty (settled r)) := by
  intro f old as hf _ h
  cases f with
  | null =>
    cases h
    exact nofun
  | array fs blanks =>
    exact keeps_items (Q := fun _ => True) (fun f _ a hf _ ha => hr f a hf (settled_eq_clean.mp ha)) trivial
      (spelledAll_iff.mp hf) (fun _ _ => trivial) h
  | _ => cases h

theorem keeps_list? (hr : Keeps P r) (hempty : P empty) : Keeps (fun o => ∀ as ∈ o, ∀ a ∈ as, P a) (list? empty r) := by
  intro f old o hf hold h
  cases f with
  | null =>
    cases h
    exact nofun
  | array fs blanks =>
    obtain ⟨as, has, ho⟩ := bind_eq_clean.mp h
    cases ho
    rintro _ ⟨⟩
    refine keeps_items hr hempty (spelledAll_iff.mp hf) ?_ has
    cases old with
    | none => exact fun _ ha => nomatch ha
    | some as => exact hold as rfl
  | _ => cases h

theorem keeps_slots (hr : Keeps P r) (hempty : P empty) :
    Keeps (fun s : Slots α => ∀ a ∈ s.toList ++ s.spare, P a) (slots empty r) := by
  intro f old s hf hold h
  cases f with
  | null =>
    cases h
    exact nofun
  | array fs blanks =>
    cases fs with
    | nil =>
      cases h
      exact nofun
    | cons f fs =>
      obtain ⟨as, has, hs⟩ := bind_eq_clean.mp h
      cases hs
      intro a ha
      rcases mem_append.mp ha with ha | ha
      · exact keeps_items hr hempty (spelledAll_iff.mp hf) hold has a ha
      · exact hold a (mem_of_mem_drop ha)
  | _ => cases h

theorem keeps_record (hr : ∀ x ∈ fields, Keeps P x.2) : Keeps P (record fields) := by
  have hmembers : ∀ (ms : List (String × Fragment)) (a b : α), (∀ m ∈ ms, m.2.Spelled) → P a →
      members fields ms a = .read b true → P b := by
    intro ms
    induction ms with
    | nil => exact fun a b _ ha h => (read.inj h).1 ▸ ha
    | cons m ms ih =>
      intro a b hms ha h
      obtain ⟨k, v⟩ := m
      obtain ⟨hv, hms⟩ := forall_mem_cons.mp hms
      rw [members] at h
      cases hk : field? fields (unescape k) with
      | none =>
        simp only [hk] at h
        exact ih a b hms ha h
      | some r =>
        simp only [hk] at h
        obtain ⟨x, hx, rfl⟩ := mem_of_field? hk
        obtain ⟨c, hc, hrest⟩ := bind_eq_clean.mp h
        exact ih c b hms (hr x hx v a c hv ha hc) hrest
  intro f a b hf ha h
  cases f with
  | null => exact (read.inj h).1 ▸ ha
  | object ms blanks => exact hmembers ms a b (fun m hm => (spelledMembers_iff.mp hf m hm).2) ha h
  | _ => cases h

theorem keeps_read {Q : x.β → Prop} (hr : Keeps Q x.reader) (hget : ∀ a, P a → Q (x.get a))
    (hset : ∀ a b, P a → Q b → P (x.set b a)) : Keeps P x.read := by
  intro f a b hf ha h
  obtain ⟨c, hc, hb⟩ := bind_eq_clean.mp h
  cases hb
  exact hset a c ha (hr f _ c hf (hget a ha) hc)

theorem membersOf_spelled {d : Dict Fragment} (hf : f.Spelled) (h : membersOf f = .ok d) :
    Sorted d ∧ ∀ e ∈ d, e.2.Spelled := by
  cases f with
  | null =>
    cases h
    exact ⟨Sorted.nil, by simp⟩
  | object ms blanks =>
    cases h
    refine ⟨sorted_ofPairs _, fun e he => ?_⟩
    rcases mem_of_mem_putAll he with he | he
    · obtain ⟨m, hm, rfl⟩ := mem_map.mp he
      exact (spelledMembers_iff.mp hf m hm).2
    · cases he
  | _ => cases h

theorem othersOf_spelled (hf : f.Spelled) (h : othersOf f names = .ok others) :
    Sorted others ∧ (∀ e ∈ others, e.2.Spelled) ∧ ∀ e ∈ others, e.1 ∉ names := by
  rw [othersOf] at h
  cases hd : membersOf f with
  | error e => rw [hd] at h; cases h
  | ok d =>
    rw [hd] at h
    cases h
    obtain ⟨hsorted, hspelled⟩ := membersOf_spelled hf hd
    refine ⟨hsorted.filter _, fun e he => hspelled e (mem_filter.mp he).1, fun e he => ?_⟩
    simpa using (mem_filter.mp he).2

end Reader

/-! ## Schemas -/

/-- A map of the record acts on the field, and reading the field goes along with it. -/
def Field.Natural {α : Type} (g : α → α) (x : Field α) : Prop :=
  ∃ k : x.β → x.β, Reader.Natural k x.reader ∧ (∀ a, x.get (g a) = k (x.get a))
    ∧ ∀ b a, g (x.set b a) = x.set (k b) (g a)

theorem Field.Natural.of {g : α → α} {x : Field α} {k : x.β → x.β} (hr : Reader.Natural k x.reader)
    (hget : ∀ a, x.get (g a) = k (x.get a) := by intros; rfl)
    (hset : ∀ b a, g (x.set b a) = x.set (k b) (g a) := by intros; rfl) : x.Natural g := ⟨k, hr, hget, hset⟩

namespace Schema

open Reader

variable {α : Type}

theorem forall_readers (s : Schema α) {P : Reader α → Prop} (h : ∀ x ∈ s.fields, P x.read) :
    ∀ x ∈ s.readers, P x.2 := by
  intro x hx
  obtain ⟨y, hy, rfl⟩ := mem_map.mp hx
  exact h y hy

theorem steady (s : Schema α) (h : ∀ x ∈ s.fields, Steady x.reader) : Steady (record s.readers) :=
  steady_record (s.forall_readers fun x hx => steady_read (h x hx))

theorem natural (s : Schema α) {g : α → α} (h : ∀ x ∈ s.fields, x.Natural g) : Natural g (record s.readers) :=
  natural_record (s.forall_readers fun x hx =>
    have ⟨_, hr, hget, hset⟩ := h x hx
    natural_read hr hget hset)

theorem natural_id (s : Schema α) (h : ∀ x ∈ s.fields, Natural id x.reader) : Natural id (record s.readers) :=
  s.natural fun x hx => .of (h x hx)

theorem keeps (s : Schema α) {P : α → Prop}
    (h : ∀ x ∈ s.fields, ∃ Q : x.β → Prop, Keeps Q x.reader ∧ (∀ a, P a → Q (x.get a))
      ∧ ∀ a b, P a → Q b → P (x.set b a)) : Keeps P (record s.readers) :=
  keeps_record (s.forall_readers fun x hx =>
    have ⟨_, hr, hget, hset⟩ := h x hx
    keeps_read hr hget hset)

theorem accepts_others (s : Schema α) (hsteady : ∀ x ∈ s.fields, Steady x.reader) {f : Fragment} {a a' : α}
    (hread : record s.readers f a = .read a' true) (hothers : othersOf f names = .ok others) :
    ∀ e ∈ others, ∀ x ∈ s.fields, foldName x.name = foldName e.1 → Accepts x.reader e.2 := by
  intro e he x hx hname
  cases f with
  | object ms blanks =>
    cases hothers
    rcases mem_of_mem_putAll (mem_filter.mp he).1 with he | he
    · obtain ⟨m, hm, rfl⟩ := mem_map.mp he
      obtain ⟨b, b', hb⟩ := exists_read_of_members ((s.members_iff.mp hread).1 x hx) m hm hname
      exact hsteady x hx m.2 b b' hb
    · cases he
  | null =>
    cases hothers
    cases he
  | _ => cases hothers

end Schema

theorem readEntry_bare {β : Type} {r : Reader α} {start : α} {finish : α → Dict Fragment → β}
    {g : α → α} {h : β → β} (hr : Reader.Natural g r) (hstart : g start = start)
    (hfinish : ∀ a others, h (finish a others) = finish (g a) (mapValues bare others)) (f : Fragment) :
    readEntry r start names finish f.bare = (readEntry r start names finish f).map h := by
  rw [readEntry, readEntry, Reader.run_bare hr f hstart, Reader.othersOf_bare]
  cases r.run f start with
  | error e => rfl
  | ok a =>
    cases Reader.othersOf f names with
    | error e => rfl
    | ok others => exact congrArg Except.ok (hfinish a others).symm

end AnimatedChart.Json
