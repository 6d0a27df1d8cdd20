import Mathlib.Data.List.Forall2
import AnimatedChart.Graph.References
import AnimatedChart.Proofs.Dict

/-!
# Renaming the datasets of a domain

A domain is drawn from the datasets that its references name: its own members, and those of its fields (`domainRefs`).
-/

open List AnimatedChart.Dict

namespace AnimatedChart

open Json

def renameReference (f : String → String) (ms : Dict Value) : Dict Value :=
  match dataOf? ms with
  | some n => if f n = n then ms else put "data" (.string (f n)) ms
  | none => ms

def renameField (f : String → String) : Value → Value
  | .object r => .object (renameReference f r)
  | v => v

def renameDomain (f : String → String) : Value → Value
  | .object ms =>
    .object (match get? ms "fields" with
      | some (.array fields) => put "fields" (.array (fields.map (renameField f))) (renameReference f ms)
      | _ => renameReference f ms)
  | d => d

def replaceName (old new n : String) : String := if n = old then new else n

/-- The parts of a domain that may name a dataset. -/
def domainRefs : Value → List (Dict Value)
  | .object ms =>
    ms :: match get? ms "fields" with
      | some (.array fields) => fields.filterMap Value.members?
      | _ => []
  | _ => []

def mapField (r : Dict Value → Dict Value) : Value → Value
  | .object ms => .object (r ms)
  | v => v

/-- The domain with each of its references rewritten. -/
def mapReferences (r : Dict Value → Dict Value) : Value → Value
  | .object ms =>
    .object (match get? ms "fields" with
      | some (.array fields) => put "fields" (.array (fields.map (mapField r))) (r ms)
      | _ => r ms)
  | d => d

variable {f h : String → String} {old new : String} {ms : Dict Value} {d v : Value} {r r' : Dict Value → Dict Value}

/-! ## References -/

theorem get?_data_of_dataOf? {n : String} (hn : dataOf? ms = some n) : get? ms "data" = some (.string n) := by
  obtain ⟨v, hv, htext⟩ := Option.bind_eq_some_iff.mp hn
  cases v with
  | string s => rw [hv, Option.some.inj htext]
  | _ => cases htext

theorem dataOf?_put_data (n : String) : dataOf? (put "data" (.string n) ms) = some n := by
  rw [dataOf?, get?_put, if_pos rfl]
  rfl

theorem dataOf?_put_fields : dataOf? (put "fields" v ms) = dataOf? ms := by
  rw [dataOf?, get?_put, if_neg (by decide), dataOf?]

theorem dataOf?_renameReference : dataOf? (renameReference f ms) = (dataOf? ms).map f := by
  unfold renameReference
  split
  · next n hn =>
    split
    · next hfix => rw [hn, Option.map_some, hfix]
    · rw [dataOf?_put_data, hn, Option.map_some]
  · next hn => rw [hn, Option.map_none]

theorem get?_renameReference {k : String} (hk : k ≠ "data") : get? (renameReference f ms) k = get? ms k := by
  unfold renameReference
  split
  · split
    · rfl
    · rw [get?_put, if_neg hk]
  · rfl

theorem renameReference_congr (heq : ∀ n, dataOf? ms = some n → f n = h n) :
    renameReference f ms = renameReference h ms := by
  unfold renameReference
  split
  · next n hn => rw [heq n hn]
  · rfl

theorem renameReference_comp (hback : ∀ n, f (h n) = n → h n = n) :
    renameReference f (renameReference h ms) = renameReference (f ∘ h) ms := by
  cases hdata : dataOf? ms with
  | none => simp [renameReference, hdata]
  | some n =>
    by_cases hfix : h n = n
    · simp [renameReference, hdata, hfix]
    · have hmoved : f (h n) ≠ n := fun heq => hfix (hback n heq)
      by_cases hthen : f (h n) = h n
      · simp [renameReference, hdata, hfix, dataOf?_put_data, hthen]
      · simp [renameReference, hdata, hfix, dataOf?_put_data, hthen, hmoved, put_put]

theorem renameReference_put_fields : renameReference f (put "fields" v ms) = put "fields" v (renameReference f ms) := by
  unfold renameReference
  rw [dataOf?_put_fields]
  split
  · split
    · rfl
    · exact put_comm (by decide) _ _ _
  · rfl

theorem rebindReference_of_data (h : dataOf? ms = some old) :
    rebindReference old new ms = put "data" (.string new) ms := by
  rw [rebindReference, h, if_pos (beq_self_eq_true _)]

theorem rebindReference_of_ne (h : dataOf? ms ≠ some old) : rebindReference old new ms = ms :=
  if_neg fun heq => h (eq_of_beq heq)

theorem dataOf?_rebindReference : dataOf? (rebindReference old new ms) = (dataOf? ms).map (replaceName old new) := by
  by_cases hdata : dataOf? ms = some old
  · rw [rebindReference_of_data hdata, dataOf?_put_data, hdata, Option.map_some, replaceName, if_pos rfl]
  · rw [rebindReference_of_ne hdata]
    cases hn : dataOf? ms with
    | none => rfl
    | some n => rw [Option.map_some, replaceName, if_neg fun heq => hdata (by rw [hn, heq])]

/-- Rebinding changes the dataset only, and that only where one is named. -/
theorem get?_rebindReference {k : String} (hk : k ≠ "data" ∨ dataOf? ms = none) :
    get? (rebindReference old new ms) k = get? ms k := by
  by_cases hdata : dataOf? ms = some old
  · have hne : k ≠ "data" := hk.resolve_right (by simp [hdata])
    rw [rebindReference_of_data hdata, get?_put, if_neg hne]
  · rw [rebindReference_of_ne hdata]

theorem rebindReference_put_fields :
    rebindReference old new (put "fields" v ms) = put "fields" v (rebindReference old new ms) := by
  by_cases hdata : dataOf? ms = some old
  · rw [rebindReference_of_data hdata, rebindReference_of_data (dataOf?_put_fields.trans hdata)]
    exact put_comm (by decide) _ _ _
  · rw [rebindReference_of_ne hdata, rebindReference_of_ne (by rwa [dataOf?_put_fields])]

theorem rebindReference_rebindReference (hsorted : Sorted ms) (hnew : dataOf? ms ≠ some new) :
    rebindReference new old (rebindReference old new ms) = ms := by
  by_cases hdata : dataOf? ms = some old
  · rw [rebindReference_of_data hdata, rebindReference_of_data (dataOf?_put_data new), put_put]
    exact hsorted.put_of_get? (get?_data_of_dataOf? hdata)
  · rw [rebindReference_of_ne hdata, rebindReference_of_ne hnew]

theorem rebindReference_eq (hne : new ≠ old) : rebindReference old new ms = renameReference (replaceName old new) ms := by
  unfold rebindReference renameReference replaceName
  cases dataOf? ms with
  | none => rfl
  | some n =>
    by_cases hn : n = old
    · subst hn
      simp [hne]
    · simp [hn]

/-! ## Domains -/

theorem renameDomain_eq (f : String → String) (d : Value) : renameDomain f d = mapReferences (renameReference f) d := by
  have hfield : renameField f = mapField (renameReference f) := funext fun v => by cases v <;> rfl
  cases d with
  | object ms =>
    rw [renameDomain, hfield]
    rfl
  | _ => rfl

theorem rebindDomain_eq_map (d : Value) : rebindDomain d old new = mapReferences (rebindReference old new) d := by
  cases d with
  | object ms =>
    simp only [rebindDomain, mapReferences, get?_rebindReference (.inl (show "fields" ≠ "data" by decide))]
    rfl
  | _ => rfl

theorem members?_mapField (v : Value) : (mapField r v).members? = v.members?.map r := by cases v <;> rfl

theorem domainData_eq (d : Value) : domainData d = (domainRefs d).filterMap dataOf? := by
  cases d with
  | object ms =>
    rw [domainData, domainRefs, filterMap_cons]
    cases dataOf? ms <;> split <;> simp [*, filterMap_filterMap]
  | _ => rfl

theorem mem_domainData {n : String} : n ∈ domainData d ↔ ∃ ms ∈ domainRefs d, dataOf? ms = some n := by
  rw [domainData_eq, mem_filterMap]

theorem domainMentions_iff {n : String} : domainMentions d n = true ↔ n ∈ domainData d := by
  cases d with
  | object ms =>
    rw [domainMentions, domainData]
    split <;> simp
  | _ => simp [domainMentions, domainData]

theorem mapReferences_congr (heq : ∀ ms ∈ domainRefs d, r ms = r' ms) : mapReferences r d = mapReferences r' d := by
  cases d with
  | object ms =>
    rw [mapReferences, mapReferences, heq ms mem_cons_self]
    split
    · next fields hfields =>
      have hmap : fields.map (mapField r) = fields.map (mapField r') := map_congr_left fun v hv => by
        cases v with
        | object ms' =>
          have hmem : ms' ∈ domainRefs (.object ms) := by
            rw [domainRefs, hfields]
            exact mem_cons_of_mem _ (mem_filterMap.mpr ⟨_, hv, rfl⟩)
          exact congrArg Value.object (heq ms' hmem)
        | _ => rfl
      rw [hmap]
    · rfl
  | _ => rfl

theorem rebindDomain_eq (hne : new ≠ old) (d : Value) : rebindDomain d old new = renameDomain (replaceName old new) d := by
  rw [rebindDomain_eq_map, renameDomain_eq]
  exact mapReferences_congr fun ms _ => rebindReference_eq hne

theorem mapReferences_comp (hput : ∀ v ms, r (put "fields" v ms) = put "fields" v (r ms))
    (hget : ∀ ms, get? (r' ms) "fields" = get? ms "fields") (d : Value) :
    mapReferences r (mapReferences r' d) = mapReferences (r ∘ r') d := by
  cases d with
  | object ms =>
    cases hfields : get? ms "fields" with
    | none => simp only [mapReferences, hget, hfields, Function.comp_apply]
    | some v =>
      cases v with
      | array fields =>
        have hmap : (fields.map (mapField r')).map (mapField r) = fields.map (mapField (r ∘ r')) := by
          rw [map_map]
          exact map_congr_left fun v _ => by cases v <;> rfl
        simp only [mapReferences, hfields, get?_put, if_true, hput, put_put, hmap, Function.comp_apply]
      | _ => simp only [mapReferences, hget, hfields, Function.comp_apply]
  | _ => rfl

theorem mapReferences_id (hsorted : ∀ ms ∈ domainRefs d, Sorted ms) : mapReferences id d = d := by
  have hfield : mapField id = id := funext fun v => by cases v <;> rfl
  cases d with
  | object ms =>
    rw [mapReferences, hfield]
    split
    · next fields hfields => rw [map_id, id, (hsorted ms mem_cons_self).put_of_get? hfields]
    · rfl
  | _ => rfl

theorem domainData_mapReferences (hdata : ∀ ms, dataOf? (r ms) = (dataOf? ms).map f)
    (hget : ∀ ms, get? (r ms) "fields" = get? ms "fields") (d : Value) :
    domainData (mapReferences r d) = (domainData d).map f := by
  have hown (ms : Dict Value) : (dataOf? (r ms)).toList = (dataOf? ms).toList.map f := by
    rw [hdata]
    cases dataOf? ms <;> rfl
  have hfield (v : Value) : (mapField r v).members?.bind dataOf? = (v.members?.bind dataOf?).map f := by
    rw [members?_mapField]
    cases v.members? with
    | none => rfl
    | some ms => exact hdata ms
  cases d with
  | object ms =>
    cases hfields : get? ms "fields" with
    | none => simp [mapReferences, domainData, hget, hfields, hown]
    | some v =>
      cases v with
      | array fields =>
        simp [mapReferences, domainData, hfields, get?_put, dataOf?_put_fields, hown, filterMap_map, map_filterMap,
          hfield]
      | _ => simp [mapReferences, domainData, hget, hfields, hown]
  | _ => rfl

theorem renameDomain_congr (heq : ∀ n ∈ domainData d, f n = h n) : renameDomain f d = renameDomain h d := by
  rw [renameDomain_eq, renameDomain_eq]
  exact mapReferences_congr fun ms hms => renameReference_congr fun n hn => heq n (mem_domainData.mpr ⟨ms, hms, hn⟩)

theorem renameDomain_comp (hback : ∀ n, f (h n) = n → h n = n) (d : Value) :
    renameDomain f (renameDomain h d) = renameDomain (f ∘ h) d := by
  rw [renameDomain_eq, renameDomain_eq, renameDomain_eq, mapReferences_comp (fun _ _ => renameReference_put_fields)
    (fun _ => get?_renameReference (by decide))]
  exact mapReferences_congr fun ms _ => renameReference_comp hback

theorem domainData_renameDomain (f : String → String) (d : Value) :
    domainData (renameDomain f d) = (domainData d).map f := by
  rw [renameDomain_eq]
  exact domainData_mapReferences (fun _ => dataOf?_renameReference) (fun _ => get?_renameReference (by decide)) d

theorem domainData_rebindDomain (d : Value) :
    domainData (rebindDomain d old new) = (domainData d).map (replaceName old new) := by
  rw [rebindDomain_eq_map]
  exact domainData_mapReferences (fun _ => dataOf?_rebindReference) (fun _ => get?_rebindReference (.inl (by decide))) d

/-! ## Rebinding -/

/-- Members that agree but for the dataset that the first ones name. -/
def SameReference (ms ms' : Dict Value) : Prop :=
  ∀ k, k ≠ "data" ∨ dataOf? ms = none → get? ms' k = get? ms k

def SameField : Value → Value → Prop
  | .object r, .object r' => SameReference r r'
  | v, v' => v' = v

/-- Domains that agree but for the datasets that the first one is drawn from. -/
def SameDomain : Value → Value → Prop
  | .object ms, .object ms' =>
    (∀ k, k ≠ "fields" → k ≠ "data" ∨ dataOf? ms = none → get? ms' k = get? ms k)
      ∧ match get? ms "fields" with
        | some (.array fields) => ∃ fields', get? ms' "fields" = some (.array fields') ∧ Forall₂ SameField fields fields'
        | v => get? ms' "fields" = v
  | d, d' => d' = d

theorem sameDomain_mapReferences (hr : ∀ ms, SameReference ms (r ms)) (d : Value) : SameDomain d (mapReferences r d) := by
  have hfield (v : Value) : SameField v (mapField r v) := by
    cases v with
    | object ms => exact hr ms
    | _ => rfl
  cases d with
  | object ms =>
    cases hfields : get? ms "fields" with
    | none =>
      simp only [mapReferences, SameDomain, hfields]
      exact ⟨fun k _ hk => hr ms k hk, (hr ms _ (.inl (by decide))).trans hfields⟩
    | some v =>
      cases v with
      | array fields =>
        simp only [mapReferences, SameDomain, hfields, get?_put, if_true]
        refine ⟨fun k hk hdata => ?_, _, rfl, forall₂_map_right_iff.mpr (forall₂_same.mpr fun v _ => hfield v)⟩
        rw [if_neg hk]
        exact hr ms k hdata
      | _ =>
        simp only [mapReferences, SameDomain, hfields]
        exact ⟨fun k _ hk => hr ms k hk, (hr ms _ (.inl (by decide))).trans hfields⟩
  | _ => rfl

theorem rebindDomain_rebindDomain (hsorted : ∀ ms ∈ domainRefs d, Sorted ms) (hnew : new ∉ domainData d) :
    rebindDomain (rebindDomain d old new) new old = d := by
  rw [rebindDomain_eq_map, rebindDomain_eq_map, mapReferences_comp (fun _ _ => rebindReference_put_fields)
    (fun _ => get?_rebindReference (.inl (by decide)))]
  calc mapReferences (rebindReference new old ∘ rebindReference old new) d
      = mapReferences id d := mapReferences_congr fun ms hms =>
        rebindReference_rebindReference (hsorted ms hms) fun hdata => hnew (mem_domainData.mpr ⟨ms, hms, hdata⟩)
    _ = d := mapReferences_id hsorted

/-- Rebinding renames one dataset in the places that the domain is drawn from, tells whether there are any, and changes
nothing else. Where the new name was not in use, it is undone by rebinding the other way. -/
theorem rebindDomain_renames (d : Value) (old new : String) (hsorted : ∀ ms ∈ domainRefs d, Dict.Sorted ms) :
    domainData (rebindDomain d old new) = (domainData d).map (replaceName old new)
      ∧ (domainMentions d old = true ↔ old ∈ domainData d)
      ∧ SameDomain d (rebindDomain d old new)
      ∧ (new ∉ domainData d → rebindDomain (rebindDomain d old new) new old = d) := by
  refine ⟨domainData_rebindDomain d, domainMentions_iff, ?_, rebindDomain_rebindDomain hsorted⟩
  rw [rebindDomain_eq_map]
  exact sameDomain_mapReferences (fun ms k hk => get?_rebindReference hk) d

/-- A domain with a dataset of its own, and with fields of which one is no reference and one names no dataset. -/
def mixedDomain : Value :=
  .ofPairs [("data", .string "rows"), ("sort", .bool true), ("fields", .array [
    .string "rows", .ofPairs [("data", .string "rows"), ("field", .string "a")],
    .ofPairs [("data", .null)], .ofPairs [("data", .string "other"), ("field", .string "b")]])]

theorem rebindDomain_renames_mixedDomain :
    domainData (rebindDomain mixedDomain "rows" "next") = ["next", "next", "other"]
      ∧ SameDomain mixedDomain (rebindDomain mixedDomain "rows" "next")
      ∧ rebindDomain (rebindDomain mixedDomain "rows" "next") "next" "rows" = mixedDomain := by
  have hsorted : ∀ ms ∈ domainRefs mixedDomain, Dict.Sorted ms := by decide +kernel
  obtain ⟨hdata, -, hsame, hback⟩ := rebindDomain_renames mixedDomain "rows" "next" hsorted
  exact ⟨hdata.trans (by decide +kernel), hsame, hback (by decide +kernel)⟩

end AnimatedChart
