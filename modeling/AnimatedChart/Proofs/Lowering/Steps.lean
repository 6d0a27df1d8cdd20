import Mathlib.Data.List.Nodup
import Mathlib.Logic.Relation
import AnimatedChart.Lowering.Basic
import AnimatedChart.Proofs.Paths

/-!
# What a draft is made of

Lowering changes the datasets and the signals of a draft in a few ways only (`Step`), and what a step preserves holds
after every run (`Origin.invariant`):

* two datasets have one name, or a dataset is its own source, only if a data definition brings along a numbered name
  (`Draft.Single`, `Draft.Acyclic`);
* two signals have one name only if a variable is named like a signal that a point selection adds (`Draft.Tuned`);
* a store comes with the signals of its selection, unless a data definition brings its name along (`Draft.Stocked`).
-/

open List

namespace AnimatedChart.Lowering

open Json Spec Animation

/-! ## Parameters -/

def definition? : Param → Option ParamDefinition
  | .plain raw => (ParamDefinition.reader.run raw {}).toOption
  | .animation _ => none

/-- The name of a variable. -/
def variableName? (q : Param) : Option String :=
  (definition? q).bind fun d => if d.select.isNone then some d.name else none

/-- The name of a point selection. -/
def pointName? (q : Param) : Option String :=
  (definition? q).bind fun d => (d.select.bind fun f => (SelectDefinition.read f).toOption).bind fun sel =>
    if sel.type = "point" then some d.name else none

def storeName (name : String) : String := name ++ "_store"

def pointEnds : List String := ["_tuple_fields", "_tuple", "_toggle", "_modify"]

def pointNames (name : String) : List String := pointEnds.map (name ++ ·)

theorem map_name_pointSignals (name : String) (fields : List String) (unit : String) :
    (pointSignals name fields unit).map (·.name) = pointNames name := rfl

/-! ## Names -/

/-- A name that lowering gives to a dataset by number. -/
def Numbered (n : String) : Prop := (∃ k : Nat, n = s!"source_{k}") ∨ ∃ k : Nat, n = s!"data_{k}"

theorem append_toString_inj (a : String) {i j : Nat} (h : a ++ toString i = a ++ toString j) : i = j := by
  have hlist := congrArg String.toList ((String.append_right_inj a).mp h)
  rw [Nat.toString_eq_repr, Nat.toString_eq_repr, Nat.toList_repr, Nat.toList_repr] at hlist
  exact toDigits_inj hlist

theorem source_ne_data (i j : Nat) : s!"source_{i}" ≠ s!"data_{j}" := by
  intro h
  have hhead := congrArg (fun n : String => n.toList.head?) (show "source_" ++ toString i = "data_" ++ toString j from h)
  simp at hhead

theorem not_numbered_store (name : String) : ¬Numbered (storeName name) := by
  have hlast : (storeName name).toList.getLast? = some 'e' := by simp [storeName]
  have hends (a : String) (k : Nat) : storeName name ≠ a ++ toString k := by
    intro h
    obtain ⟨c, hc, hdigit⟩ := endsDigit_append a k
    rw [← h, hlast] at hc
    exact absurd (Option.some.inj hc ▸ hdigit) (by decide)
  rintro (⟨k, h⟩ | ⟨k, h⟩)
  · exact hends "source_" k h
  · exact hends "data_" k h

theorem storeName_inj {a b : String} (h : storeName a = storeName b) : a = b := (String.append_left_inj _).mp h

theorem eq_of_suffix_pointEnds : ∀ x ∈ pointEnds, ∀ y ∈ pointEnds, x.toList <:+ y.toList → x = y := by decide

theorem exists_suffix_of_mem_pointNames {a n : String} (h : n ∈ pointNames a) :
    ∃ x ∈ pointEnds, n = a ++ x ∧ x.toList <:+ n.toList := by
  obtain ⟨x, hx, rfl⟩ := mem_map.mp h
  exact ⟨x, hx, rfl, by rw [String.toList_append]; exact suffix_append _ _⟩

/-- No name ends like two signals of selections, so it tells the selection. -/
theorem eq_of_mem_pointNames {a b n : String} (ha : n ∈ pointNames a) (hb : n ∈ pointNames b) : a = b := by
  obtain ⟨x, hx, hax, hxn⟩ := exists_suffix_of_mem_pointNames ha
  obtain ⟨y, hy, hby, hyn⟩ := exists_suffix_of_mem_pointNames hb
  have hxy : x = y := (suffix_or_suffix_of_suffix hxn hyn).elim (eq_of_suffix_pointEnds x hx y hy)
    fun h => (eq_of_suffix_pointEnds y hy x hx h).symm
  subst hxy
  exact (String.append_left_inj x).mp (hax.symm.trans hby)

theorem nodup_pointNames (name : String) : (pointNames name).Nodup :=
  Nodup.map (fun _ _ h => (String.append_right_inj name).mp h) (by decide)

/-- The signals that charts and pointers bring are named like none of a selection. -/
theorem not_mem_pointNames {n : String} (h : n ∈ ["childWidth", "childHeight", "unit"]) (a : String) :
    n ∉ pointNames a := by
  have hends : ∀ n ∈ ["childWidth", "childHeight", "unit"], ∀ x ∈ pointEnds, ¬x.toList <:+ n.toList := by decide
  intro hn
  obtain ⟨x, hx, -, hsuffix⟩ := exists_suffix_of_mem_pointNames hn
  exact hends n h x hx hsuffix

/-! ## Steps -/

/-- What a chart gives to its draft: the names that data definitions bring along, the parameters that views declare,
and the draft to begin with. -/
structure Origin where
  brought : String → Prop
  declared : Param → Prop
  start : Draft := {}

/-- The name of a source: a numbered one, or one that a data definition brings along. -/
def Origin.Source (o : Origin) (n : String) : Prop := (∃ k : Nat, n = s!"source_{k}") ∨ o.brought n

def Draft.dataNames (s : Draft) : List String := s.data.map (·.name)

def Draft.signalNames (s : Draft) : List String := s.signals.map (·.name)

inductive Step (o : Origin) : Draft → Draft → Prop
  | keep (s : Draft) (scales : List ScalePlan) (sources : List (Fragment × String)) (projection : Option Value) :
      Step o s { s with scales, sources, projection }
  | load (s : Draft) (raw : Fragment) (d : Dataset) (hname : d.name = s!"source_{s.nextSource}")
      (hsource : d.source = .null) : Step o s { s with
        data := s.data ++ [d]
        sources := s.sources ++ [(raw, d.name)]
        nextSource := s.nextSource + 1 }
  | bring (s : Draft) (raw : Fragment) {n : String} (hn : o.brought n) (hnew : n ∉ s.dataNames) : Step o s { s with
        data := s.data ++ [{ name := n }]
        sources := s.sources ++ [(raw, n)] }
  | derive (s : Draft) (key : String × String) (transform : List Value) {source : String} (hsource : o.Source source) :
      Step o s { s with
        data := s.data ++ [{ name := s!"data_{s.nextDerived}", source := .string source, transform }]
        derived := s.derived ++ [(key, s!"data_{s.nextDerived}")]
        nextDerived := s.nextDerived + 1 }
  | assign (s : Draft) {q : Param} (hq : o.declared q) (x : Signal) (hname : variableName? q = some x.name)
      (hnew : x.name ∉ s.signalNames) : Step o s { s with signals := s.signals ++ [x] }
  | select (s : Draft) {q : Param} (hq : o.declared q) {name : String} (hname : pointName? q = some name)
      (hnew : storeName name ∉ s.dataNames) (fields : List String) (unit : String) : Step o s { s with
        data := s.data ++ [{ name := storeName name }]
        signals := s.signals ++ (if s.pointer then [] else [unitSignal]) ++ pointSignals name fields unit
        pointer := true }

variable {o : Origin} {s s' : Draft}

/-- What every step preserves is preserved by a whole run. -/
theorem Origin.invariant {I : Draft → Prop} (hstep : ∀ {s s'}, Step o s s' → I s → I s') (hstart : I o.start)
    (h : Relation.ReflTransGen (Step o) o.start s) : I s := by
  induction h with
  | refl => exact hstart
  | tail _ h ih => exact hstep h ih

/-! ## Names stay -/

structure Draft.Grows (s s' : Draft) : Prop where
  data : s.dataNames ⊆ s'.dataNames
  signals : s.signalNames ⊆ s'.signalNames

theorem Draft.Grows.refl (s : Draft) : s.Grows s := ⟨fun _ => id, fun _ => id⟩

theorem Draft.Grows.trans {s'' : Draft} (h : s.Grows s') (h' : s'.Grows s'') : s.Grows s'' :=
  ⟨fun _ hn => h'.data (h.data hn), fun _ hn => h'.signals (h.signals hn)⟩

theorem Draft.grows_of_append {ds : List Dataset} {xs : List Signal} (hdata : s'.data = s.data ++ ds)
    (hsignals : s'.signals = s.signals ++ xs) : s.Grows s' := by
  refine ⟨fun n hn => ?_, fun n hn => ?_⟩
  · rw [dataNames, hdata, map_append]
    exact mem_append_left _ hn
  · rw [signalNames, hsignals, map_append]
    exact mem_append_left _ hn

theorem Step.grows (h : Step o s s') : s.Grows s' := by
  cases h with
  | keep => exact ⟨fun _ => id, fun _ => id⟩
  | load | bring | derive => exact Draft.grows_of_append rfl (append_nil _).symm
  | assign => exact Draft.grows_of_append (append_nil _).symm rfl
  | select => exact Draft.grows_of_append rfl (append_assoc _ _ _)

theorem Origin.grows (h : Relation.ReflTransGen (Step o) o.start s) : o.start.Grows s :=
  invariant (fun hstep hgrows => hgrows.trans hstep.grows) (Draft.Grows.refl _) h

theorem count_append_singleton_le {ns : List String} {n m : String} (h : ns.count n ≤ 1) (hnew : m = n → n ∉ ns) :
    (ns ++ [m]).count n ≤ 1 := by
  rw [count_append, count_singleton]
  split
  · next heq => exact Nat.le_of_eq (congrArg (· + 1) (count_eq_zero.mpr (hnew (eq_of_beq heq))))
  · exact h

/-- At most one dataset has the name, and if it is a numbered name, its number has been given away. -/
structure Draft.Single (n : String) (s : Draft) : Prop where
  count : s.dataNames.count n ≤ 1
  source : ∀ k : Nat, n = s!"source_{k}" → n ∈ s.dataNames → k < s.nextSource
  derived : ∀ k : Nat, n = s!"data_{k}" → n ∈ s.dataNames → k < s.nextDerived

theorem Draft.Single.add {n : String} (h : s.Single n) {d : Dataset} (hdata : s'.data = s.data ++ [d])
    (hsources : s.nextSource ≤ s'.nextSource) (hderived : s.nextDerived ≤ s'.nextDerived)
    (hd : d.name = n → n ∉ s.dataNames ∧ (∀ k : Nat, n = s!"source_{k}" → k < s'.nextSource)
      ∧ ∀ k : Nat, n = s!"data_{k}" → k < s'.nextDerived) : s'.Single n := by
  have hnames : s'.dataNames = s.dataNames ++ [d.name] := by rw [dataNames, hdata, map_append]; rfl
  refine ⟨?_, fun k hk hn => ?_, fun k hk hn => ?_⟩
  · rw [hnames]
    exact count_append_singleton_le h.count fun hname => (hd hname).1
  all_goals
    rw [hnames] at hn
    rcases mem_append.mp hn with hn | hn
  · exact Nat.lt_of_lt_of_le (h.source k hk hn) hsources
  · exact (hd (mem_singleton.mp hn).symm).2.1 k hk
  · exact Nat.lt_of_lt_of_le (h.derived k hk hn) hderived
  · exact (hd (mem_singleton.mp hn).symm).2.2 k hk

theorem Step.single {n : String} (hn : ¬(Numbered n ∧ o.brought n)) (h : Step o s s') (hs : s.Single n) : s'.Single n := by
  cases h with
  | keep => exact { hs with }
  | load raw d hname =>
    refine hs.add rfl (Nat.le_succ _) (Nat.le_refl _) ?_
    rintro rfl
    refine ⟨fun hmem => Nat.lt_irrefl _ (hs.source _ hname hmem), fun k hk => ?_, fun k hk => ?_⟩
    · rw [← append_toString_inj "source_" (hname.symm.trans hk)]
      exact Nat.lt_succ_self _
    · exact absurd (hname.symm.trans hk) (source_ne_data _ _)
  | bring raw hbrought hnew =>
    refine hs.add rfl (Nat.le_refl _) (Nat.le_refl _) ?_
    rintro rfl
    exact ⟨hnew, fun k hk => absurd ⟨.inl ⟨k, hk⟩, hbrought⟩ hn, fun k hk => absurd ⟨.inr ⟨k, hk⟩, hbrought⟩ hn⟩
  | derive =>
    refine hs.add rfl (Nat.le_refl _) (Nat.le_succ _) ?_
    rintro rfl
    refine ⟨fun hmem => Nat.lt_irrefl _ (hs.derived _ rfl hmem), fun k hk => ?_, fun k hk => ?_⟩
    · exact absurd hk.symm (source_ne_data _ _)
    · rw [← append_toString_inj "data_" hk]
      exact Nat.lt_succ_self _
  | assign => exact { hs with }
  | @select _ _ name _ hnew =>
    refine hs.add rfl (Nat.le_refl _) (Nat.le_refl _) ?_
    rintro rfl
    exact ⟨hnew, fun k hk => absurd (.inl ⟨k, hk⟩) (not_numbered_store name),
      fun k hk => absurd (.inr ⟨k, hk⟩) (not_numbered_store name)⟩

/-- A dataset is its own source only under a numbered name that a data definition brings along. -/
def Draft.Acyclic (o : Origin) (s : Draft) : Prop :=
  ∀ d ∈ s.data, d.source = .string d.name → Numbered d.name ∧ o.brought d.name

theorem Step.acyclic (h : Step o s s') (hs : s.Acyclic o) : s'.Acyclic o := by
  have hadd {d : Dataset} (hd : d.source = .null) :
      ∀ d' ∈ s.data ++ [d], d'.source = .string d'.name → Numbered d'.name ∧ o.brought d'.name :=
    forall_mem_append.mpr ⟨hs, forall_mem_singleton.mpr fun hself => nomatch hd.symm.trans hself⟩
  cases h with
  | keep => exact hs
  | load raw d hname hsource => exact hadd hsource
  | bring => exact hadd rfl
  | derive key transform hsource =>
    refine forall_mem_append.mpr ⟨hs, forall_mem_singleton.mpr fun hself => ?_⟩
    rw [Value.string.inj hself] at hsource
    exact ⟨.inr ⟨_, rfl⟩, hsource.resolve_left fun ⟨_, hk⟩ => source_ne_data _ _ hk.symm⟩
  | assign => exact hs
  | select => exact hadd rfl

/-! ## Signals -/

/-- A variable is named like a signal that a point selection adds. -/
def Origin.Clashes (o : Origin) (n : String) : Prop :=
  (∃ q, o.declared q ∧ variableName? q = some n)
    ∧ ∃ q name, o.declared q ∧ pointName? q = some name ∧ n ∈ "unit" :: pointNames name

/-- Where a signal comes from. -/
inductive Draft.Signals (o : Origin) (s : Draft) : String → Prop
  | size {n : String} (h : n ∈ ["childWidth", "childHeight"]) : Signals o s n
  | assigned {q : Param} {n : String} (hq : o.declared q) (hn : variableName? q = some n) : Signals o s n
  | pointer (h : s.pointer = true) : Signals o s "unit"
  | point {name n : String} (hn : n ∈ pointNames name) (hstore : storeName name ∈ s.dataNames) : Signals o s n

/-- At most one signal has the name, which tells where it comes from. -/
structure Draft.Tuned (o : Origin) (n : String) (s : Draft) : Prop where
  named : n ∈ s.signalNames → s.Signals o n
  count : s.signalNames.count n ≤ 1

theorem Draft.Signals.mono {n : String} (h : s.Signals o n) (hgrows : s.Grows s')
    (hpointer : s.pointer = true → s'.pointer = true) : s'.Signals o n := by
  cases h with
  | size h => exact .size h
  | assigned hq hn => exact .assigned hq hn
  | pointer h => exact .pointer (hpointer h)
  | point hn hstore => exact .point hn (hgrows.data hstore)

/-- The signals that a point selection adds, that of the pointer only if it is missing. -/
def addedNames (s : Draft) (name : String) : List String := (if s.pointer then [] else ["unit"]) ++ pointNames name

theorem nodup_addedNames (s : Draft) (name : String) : (addedNames s name).Nodup := by
  refine nodup_append.mpr ⟨by split <;> simp, nodup_pointNames name, ?_⟩
  rintro n hn _ hn' rfl
  split at hn
  · cases hn
  · rw [mem_singleton.mp hn] at hn'
    exact not_mem_pointNames (by decide) _ hn'

/-- What a point selection adds is not there yet, apart from a variable of the name. -/
theorem Draft.Signals.not_added {q : Param} (hq : o.declared q) {name n : String} (hname : pointName? q = some name)
    (hnew : storeName name ∉ s.dataNames) (hclash : ¬o.Clashes n) (hn : n ∈ addedNames s name) : ¬s.Signals o n := by
  have hcases : n = "unit" ∧ s.pointer = false ∨ n ∈ pointNames name := by
    refine (mem_append.mp hn).imp_left fun hn => ?_
    split at hn
    · cases hn
    · next hpointer => exact ⟨mem_singleton.mp hn, Bool.eq_false_iff.mpr hpointer⟩
  intro h
  cases h with
  | size h =>
    rcases hcases with ⟨rfl, -⟩ | hn
    · exact absurd h (by decide)
    · exact not_mem_pointNames (mem_append_left ["unit"] h) _ hn
  | assigned hq' hn' => exact hclash ⟨⟨_, hq', hn'⟩, q, name, hq, hname, mem_cons.mpr (hcases.imp_left And.left)⟩
  | pointer h =>
    rcases hcases with ⟨-, hpointer⟩ | hn
    · exact Bool.false_ne_true (hpointer.symm.trans h)
    · exact not_mem_pointNames (by decide) _ hn
  | point hn' hstore =>
    rcases hcases with ⟨rfl, -⟩ | hn
    · exact not_mem_pointNames (by decide) _ hn'
    · exact hnew (eq_of_mem_pointNames hn hn' ▸ hstore)

theorem Step.tuned {n : String} (hclash : ¬o.Clashes n) (h : Step o s s') (hs : s.Tuned o n) : s'.Tuned o n := by
  have hold (hpointer : s.pointer = true → s'.pointer = true) (hn : n ∈ s.signalNames) : s'.Signals o n :=
    (hs.named hn).mono h.grows hpointer
  cases h with
  | keep | load | bring | derive => exact ⟨hold id, hs.count⟩
  | assign hq x hname hnew =>
    refine ⟨fun hn => ?_, ?_⟩
    · rw [Draft.signalNames, map_append] at hn
      rcases mem_append.mp hn with hn | hn
      · exact hold id hn
      · rw [mem_singleton.mp hn]
        exact .assigned hq hname
    · rw [Draft.signalNames, map_append]
      exact count_append_singleton_le hs.count (· ▸ hnew)
  | @select q hq name hname hnew fields unit =>
    have hnames : (s.signals ++ (if s.pointer then [] else [unitSignal]) ++ pointSignals name fields unit).map (·.name)
        = s.signalNames ++ addedNames s name := by
      rw [append_assoc, map_append, map_append, map_name_pointSignals, addedNames]
      split <;> rfl
    refine ⟨fun hn => ?_, ?_⟩
    · rw [Draft.signalNames, hnames] at hn
      rcases mem_append.mp hn with hn | hn
      · exact hold (fun _ => rfl) hn
      · rcases mem_append.mp hn with hn | hn
        · split at hn
          · cases hn
          · rw [mem_singleton.mp hn]
            exact .pointer rfl
        · exact .point hn (by simp [Draft.dataNames])
    · rw [Draft.signalNames, hnames, count_append]
      -- Without a clash, what the selection adds is new.
      by_cases hadded : n ∈ addedNames s name
      · have hfresh : n ∉ s.signalNames := fun hn => Draft.Signals.not_added hq hname hnew hclash hadded (hs.named hn)
        rw [count_eq_zero.mpr hfresh, Nat.zero_add]
        exact nodup_iff_count_le_one.mp (nodup_addedNames s name) n
      · rw [count_eq_zero.mpr hadded]
        exact hs.count

/-- A store comes with the signals of its selection, unless a data definition brings its name along. -/
def Draft.Stocked (o : Origin) (s : Draft) : Prop :=
  ∀ name, storeName name ∈ s.dataNames → o.brought (storeName name) ∨ pointNames name ⊆ s.signalNames

theorem Step.stocked (h : Step o s s') (hs : s.Stocked o) : s'.Stocked o := by
  intro name hname
  have hold (hmem : storeName name ∈ s.dataNames) : o.brought (storeName name) ∨ pointNames name ⊆ s'.signalNames :=
    (hs name hmem).imp_right fun hsub _ hn => h.grows.signals (hsub hn)
  -- The store is an old one, or the dataset that the step adds.
  have hadd {d : Dataset} (hmem : storeName name ∈ (s.data ++ [d]).map (·.name))
      (hd : d.name = storeName name → o.brought (storeName name) ∨ pointNames name ⊆ s'.signalNames) :
      o.brought (storeName name) ∨ pointNames name ⊆ s'.signalNames := by
    rw [map_append] at hmem
    exact (mem_append.mp hmem).elim hold fun hmem => hd (mem_singleton.mp hmem).symm
  cases h with
  | keep => exact hold hname
  | load raw d hd => exact hadd hname fun heq => absurd (.inl ⟨_, heq.symm.trans hd⟩) (not_numbered_store name)
  | bring raw hn => exact hadd hname fun heq => .inl (heq ▸ hn)
  | derive => exact hadd hname fun heq => absurd (.inr ⟨_, heq.symm⟩) (not_numbered_store name)
  | assign => exact hold hname
  | select =>
    refine hadd hname fun heq => .inr fun n hn => ?_
    rw [Draft.signalNames, map_append, map_name_pointSignals, storeName_inj heq]
    exact mem_append_right _ hn

end AnimatedChart.Lowering
