import Mathlib.Data.List.Basic
import AnimatedChart.Proofs.Dict
import AnimatedChart.Proofs.Json.Parsing

/-!
# Values read back

A value that was read from a document is plain: its numbers are finite and its objects are dictionaries
(`Value.plain_ofFragment`).
-/

open List

namespace AnimatedChart.Json

namespace Fragment

@[induction_eliminator]
theorem induction {P : Fragment → Prop} (null : P .null) (bool : ∀ b, P (.bool b)) (number : ∀ l, P (.number l))
    (string : ∀ b, P (.string b)) (array : ∀ fs blanks, (∀ f ∈ fs, P f) → P (.array fs blanks))
    (object : ∀ ms blanks, (∀ m ∈ ms, P m.2) → P (.object ms blanks)) (f : Fragment) : P f :=
  @Fragment.rec P (fun fs => ∀ f ∈ fs, P f) (fun ms => ∀ m ∈ ms, P m.2) (fun m => P m.2) null bool number string array
    object (by simp) (fun _ _ hf hfs => forall_mem_cons.mpr ⟨hf, hfs⟩) (by simp)
    (fun _ _ hm hms => forall_mem_cons.mpr ⟨hm, hms⟩) (fun _ _ h => h) f

theorem areFinite_iff {fs : List Fragment} : areFinite fs = true ↔ ∀ f ∈ fs, f.isFinite = true := by
  induction fs with
  | nil => simp [areFinite]
  | cons f fs ih => simp [areFinite, ih]

theorem membersAreFinite_iff {ms : List (String × Fragment)} :
    membersAreFinite ms = true ↔ ∀ m ∈ ms, m.2.isFinite = true := by
  induction ms with
  | nil => simp [membersAreFinite]
  | cons m ms ih => simp [membersAreFinite, ih]

theorem depthOfMembers_eq (ms : List (String × Fragment)) : depthOfMembers ms = depthOfItems (ms.map (·.2)) := by
  induction ms with
  | nil => rfl
  | cons m ms ih => rw [depthOfMembers, ih, map_cons, depthOfItems]

theorem depthOfItems_map {fs : List Fragment} {g : Fragment → Fragment} (h : ∀ f ∈ fs, (g f).depth = f.depth) :
    depthOfItems (fs.map g) = depthOfItems fs := by
  induction fs with
  | nil => rfl
  | cons f fs ih =>
    obtain ⟨hf, hfs⟩ := forall_mem_cons.mp h
    rw [map_cons, depthOfItems, depthOfItems, hf, ih hfs]

end Fragment

namespace Value

@[induction_eliminator]
theorem induction {P : Value → Prop} (null : P .null) (bool : ∀ b, P (.bool b)) (number : ∀ x, P (.number x))
    (string : ∀ s, P (.string s)) (array : ∀ vs, (∀ v ∈ vs, P v) → P (.array vs))
    (object : ∀ ms, (∀ m ∈ ms, P m.2) → P (.object ms)) (v : Value) : P v :=
  @Value.rec P (fun vs => ∀ v ∈ vs, P v) (fun ms => ∀ m ∈ ms, P m.2) (fun m => P m.2) null bool number string array
    object (by simp) (fun _ _ hv hvs => forall_mem_cons.mpr ⟨hv, hvs⟩) (by simp)
    (fun _ _ hm hms => forall_mem_cons.mpr ⟨hm, hms⟩) (fun _ _ h => h) v

theorem toItems_eq_map (vs : List Value) : toItems vs = vs.map toFragment := by
  induction vs with
  | nil => rfl
  | cons v vs ih => rw [toItems, ih, map_cons]

theorem toMembers_eq_map (ms : List (String × Value)) : toMembers ms = ms.map fun m => (m.1, m.2.toFragment) := by
  induction ms with
  | nil => rfl
  | cons m ms ih => rw [toMembers, ih, map_cons]

end Value

/-! ## Texts and literals -/

namespace Fragment

@[simp] theorem unescape_encode (html : Bool) (s : String) :
    unescape (String.ofList (Escape.encode html s.toList)) = s := by
  rw [unescape, String.toList_ofList, Escape.decode_encode, String.ofList_toList]

theorem isBody_encode (html : Bool) (s : String) : Token.IsBody (String.ofList (Escape.encode html s.toList)) := by
  intro rest
  rw [String.toList_ofList, Token.body_encode]

theorem spelled_text (s : String) : (text s).Spelled := isBody_encode false s

theorem spelled_htmlText (s : String) : (htmlText s).Spelled := isBody_encode true s

theorem spelled_list {fs : List Fragment} (h : ∀ f ∈ fs, f.Spelled) : (list fs).Spelled := spelledAll_iff.mpr h

theorem spelled_record {ms : List (String × Fragment)} (h : ∀ m ∈ ms, m.2.Spelled) : (record ms).Spelled := by
  refine spelledMembers_iff.mpr fun m hm => ?_
  obtain ⟨m', hm', rfl⟩ := mem_map.mp hm
  exact ⟨isBody_encode false m'.1, h m' hm'⟩

end Fragment

theorem Token.isMagnitude_text {l : Decimal.Literal} (h : l.Valid) : Token.IsMagnitude l.text := by
  refine ⟨l.whole, if l.fraction.isEmpty then [] else '.' :: l.fraction, Decimal.Literal.exponentText l.exponent, rfl,
    ?_, ?_, ?_⟩
  · exact h.leading.imp id fun hlead => ⟨⟨h.nonempty, h.whole⟩, hlead⟩
  · split
    · exact .inl rfl
    · next hne => exact .inr ⟨l.fraction, rfl, by simpa using hne, h.fraction⟩
  · rcases hexp : l.exponent with _ | ⟨negative, ds⟩
    · exact .inl rfl
    · obtain ⟨hall, hne⟩ := h.exponent (negative, ds) hexp
      refine .inr ⟨'e', [if negative then '-' else '+'], ds, rfl, .inl rfl, .inr ?_, hne, hall⟩
      cases negative
      · exact .inl rfl
      · exact .inr rfl

theorem Value.spelled_literal {x : Float} (h : Decimal.IsFinite x) : (Value.literal x).Spelled := by
  obtain ⟨l, hvalid, hwrite, -⟩ := Decimal.exists_literal h
  refine ⟨l.text, Token.isMagnitude_text hvalid, ?_⟩
  rw [hwrite, String.toList_ofList]
  split
  · exact .inr rfl
  · exact .inl rfl

/-! ## Plain values -/

namespace Value

mutual

def Plain : Value → Prop
  | number x => Decimal.IsFinite x
  | array items => PlainAll items
  | object members => Dict.Sorted members ∧ PlainMembers members
  | _ => True

def PlainAll : List Value → Prop
  | [] => True
  | v :: vs => v.Plain ∧ PlainAll vs

def PlainMembers : List (String × Value) → Prop
  | [] => True
  | (_, v) :: ms => v.Plain ∧ PlainMembers ms

end

theorem plainAll_iff {vs : List Value} : PlainAll vs ↔ ∀ v ∈ vs, v.Plain := by
  induction vs with
  | nil => simp [PlainAll]
  | cons v vs ih => simp [PlainAll, ih]

theorem plainMembers_iff {ms : List (String × Value)} : PlainMembers ms ↔ ∀ m ∈ ms, m.2.Plain := by
  induction ms with
  | nil => simp [PlainMembers]
  | cons m ms ih => simp [PlainMembers, ih]

theorem plain_ofPairs {ps : List (String × Value)} (h : ∀ p ∈ ps, p.2.Plain) : (ofPairs ps).Plain := by
  refine ⟨Dict.sorted_ofPairs ps, plainMembers_iff.mpr fun m hm => ?_⟩
  rcases Dict.mem_of_mem_putAll hm with hm | hm
  · exact h m hm
  · cases hm

mutual

theorem plain_ofFragment : ∀ f : Fragment, (ofFragment f).1.Plain
  | .null => trivial
  | .bool _ => trivial
  | .number l => by
    rw [ofFragment]
    split
    · next hx => exact Decimal.isFinite_numberOfLiteral hx
    · trivial
  | .string _ => trivial
  | .array items _ => plain_ofItems items
  | .object members _ => by
    refine ⟨Dict.sorted_ofPairs _, plainMembers_iff.mpr fun m hm => ?_⟩
    rcases Dict.mem_of_mem_putAll hm with hm | hm
    · exact plainMembers_iff.mp (plain_ofMembers members) m hm
    · cases hm

theorem plain_ofItems : ∀ fs : List Fragment, PlainAll (ofItems fs).1
  | [] => trivial
  | f :: fs => ⟨plain_ofFragment f, plain_ofItems fs⟩

theorem plain_ofMembers : ∀ ms : List (String × Fragment), PlainMembers (ofMembers ms).1
  | [] => trivial
  | (_, f) :: ms => ⟨plain_ofFragment f, plain_ofMembers ms⟩

end

mutual

theorem ofFragment_toFragment : ∀ v : Value, v.Plain → ofFragment v.toFragment = (v, true)
  | null, _ => rfl
  | bool _, _ => rfl
  | number x, h => by rw [toFragment, literal, ofFragment, Decimal.numberOfLiteral_write h]
  | string s, _ => by rw [toFragment, Fragment.text, ofFragment, Fragment.unescape_encode]
  | array items, h => by rw [toFragment, Fragment.list, ofFragment, ofItems_toItems items h]
  | object members, h => by
    rw [toFragment, Fragment.record, ofFragment, ofMembers_toMembers members h.2, Dict.ofPairs_of_sorted h.1]

theorem ofItems_toItems : ∀ vs : List Value, PlainAll vs → ofItems (toItems vs) = (vs, true)
  | [], _ => rfl
  | v :: vs, h => by
    rw [toItems, ofItems, ofFragment_toFragment v h.1, ofItems_toItems vs h.2]
    rfl

theorem ofMembers_toMembers : ∀ ms : List (String × Value), PlainMembers ms →
    ofMembers ((toMembers ms).map fun m => (String.ofList (Escape.encode false m.1.toList), m.2)) = (ms, true)
  | [], _ => rfl
  | (k, v) :: ms, h => by
    rw [toMembers, map_cons, ofMembers, Fragment.unescape_encode, ofFragment_toFragment v h.1,
      ofMembers_toMembers ms h.2]
    rfl

end

end Value

/-! ## Fragments put together -/

/-- A property of fragments that the parts of a text have, and that containers take over from their parts; and a
property of values that is what it takes of their numbers. -/
structure Fragment.Closed (P : Value → Prop) (Q : Fragment → Prop) : Prop where
  null : Q .null
  bool : ∀ b, Q (.bool b)
  text : ∀ s, Q (.text s)
  list : ∀ {fs : List Fragment}, (∀ f ∈ fs, Q f) → Q (.list fs)
  record : ∀ {ms : List (String × Fragment)}, (∀ m ∈ ms, Q m.2) → Q (.record ms)
  number : ∀ {x}, P (.number x) → Q (Value.literal x)
  items : ∀ {vs : List Value}, P (.array vs) → ∀ v ∈ vs, P v
  members : ∀ {ms : List (String × Value)}, P (.object ms) → ∀ m ∈ ms, P m.2

theorem Fragment.spelled_closed : Closed Value.Plain Spelled where
  null := trivial
  bool _ := trivial
  text := spelled_text
  list := spelled_list
  record := spelled_record
  number := Value.spelled_literal
  items := Value.plainAll_iff.mp
  members h := Value.plainMembers_iff.mp h.2

namespace Fragment.Closed

variable {P : Value → Prop} {Q : Fragment → Prop} (h : Closed P Q)

include h

theorem value {v : Value} (hv : P v) : Q v.toFragment := by
  induction v with
  | null => exact h.null
  | bool b => exact h.bool b
  | number x => exact h.number hv
  | string s => exact h.text s
  | array vs ih =>
    rw [Value.toFragment, Value.toItems_eq_map]
    exact h.list (forall_mem_map.mpr fun v hmem => ih v hmem (h.items hv v hmem))
  | object ms ih =>
    rw [Value.toFragment, Value.toMembers_eq_map]
    exact h.record (forall_mem_map.mpr fun m hmem => ih m hmem (h.members hv m hmem))

theorem valueList {vs : List Value} (hvs : ∀ v ∈ vs, P v) : Q (.list (Value.toItems vs)) := by
  rw [Value.toItems_eq_map]
  exact h.list (forall_mem_map.mpr fun v hv => h.value (hvs v hv))

theorem valueRecord {ms : List (String × Value)} (hms : ∀ m ∈ ms, P m.2) : Q (.record (Value.toMembers ms)) := by
  rw [Value.toMembers_eq_map]
  exact h.record (forall_mem_map.mpr fun m hm => h.value (hms m hm))

theorem valueUnless {v : Value} (hv : P v) : ∀ f ∈ (if v.isSome then some v.toFragment else none), Q f := by
  split
  · rintro _ ⟨⟩
    exact h.value hv
  · exact fun _ hf => nomatch hf

theorem mapped {α : Type} {write : α → Fragment} {as : List α} (has : ∀ a ∈ as, Q (write a)) :
    Q (.list (as.map write)) := h.list (forall_mem_map.mpr has)

end Fragment.Closed

end AnimatedChart.Json
