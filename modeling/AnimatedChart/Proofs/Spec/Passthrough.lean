import AnimatedChart.Proofs.Spec.Chart

/-!
# What a chart hands on

Reading a chart takes the animation grammar out of a document and keeps everything else as it is written.
-/

open List AnimatedChart.Dict

namespace AnimatedChart

open Json Reader

variable {f : Fragment} {ms : Dict Fragment} {o : Option Fragment} {p : Param} {ps : List Param} {α : Type}
variable {r : Fragment → Except Error α}
  {as : List α} {empty : α} (n : Nat)

namespace Spec

/-! ## Documents with exact names -/

def itemsOf : Option Fragment → List Fragment
  | some (.array items _) => items
  | _ => []

def fieldNames (ms : Dict Fragment) : List String :=
  if has ms "layer" then Layer.names else if has ms "vconcat" then ["vconcat"] else Unit.names

def viewsBelow (ms : Dict Fragment) : List Fragment :=
  if has ms "layer" then itemsOf (get? ms "layer")
  else if has ms "vconcat" then itemsOf (get? ms "vconcat") else []

/-- An animation selection, and its selecting part, have no member whose name is that of a field in other letters. -/
def Param.Exact (f : Fragment) : Prop :=
  isAnimation f = true → ∀ ms ∈ (membersOf f).toOption, NamedExactly Selection.names ms
    ∧ ∀ sel ∈ get? ms "select", ∀ ns ∈ (membersOf sel).toOption, NamedExactly Select.names ns

instance (f : Fragment) : Decidable (Param.Exact f) := inferInstanceAs (Decidable (_ → _))

/-- No view and no animation selection of a document has a member whose name is that of a field in other letters. -/
inductive Exact : Fragment → Prop
  | view {f : Fragment} {ms : Dict Fragment} (hms : membersOf f = .ok ms) (hnames : NamedExactly (fieldNames ms) ms)
      (hparams : "params" ∈ fieldNames ms → ∀ p ∈ itemsOf (get? ms "params"), Param.Exact p)
      (hviews : ∀ v ∈ viewsBelow ms, Exact v) : Exact f

/-! ## What is handed on -/

/-- A list that is handed on item by item. -/
inductive ListedOn (R : Fragment → Fragment → Prop) : Option Fragment → Option Fragment → Prop
  | absent : ListedOn R none none
  | null : ListedOn R (some .null) none
  | empty (blanks : List String) : ListedOn R (some (.array [] blanks)) none
  | items {fs gs : List Fragment} (hne : fs ≠ []) (h : List.Forall₂ R fs gs) (blanks blanks' : List String) :
      ListedOn R (some (.array fs blanks)) (some (.array gs blanks'))

/-- Channels that are handed on as they are written, and time by what it says. -/
inductive EncodedOn : Option Fragment → Option Fragment → Prop
  | absent : EncodedOn none none
  | null : EncodedOn (some .null) none
  | channels {f g : Fragment} {ms ns : Dict Fragment} (hf : f ≠ .null) (hms : membersOf f = .ok ms)
      (hns : membersOf g = .ok ns) (hchannels : ∀ k, k ≠ "time" → get? ns k = get? ms k)
      (htime : Encoding.readTime (get? ns "time") = Encoding.readTime (get? ms "time")) :
      EncodedOn (some f) (some g)

/-- An animation selection is handed on by what it says, any other parameter as it is written. -/
def Param.HandedOn (f g : Fragment) : Prop :=
  if isAnimation f then isAnimation g = true ∧ ∃ a, Selection.read f = .ok a ∧ Selection.read g = .ok a.settle
  else g = f

structure UnitOn (ms ns : Dict Fragment) : Prop where
  others : ∀ k, k ∉ Unit.names → get? ns k = get? ms k
  mark : get? ns "mark" = get? ms "mark"
  encoding : EncodedOn (get? ms "encoding") (get? ns "encoding")
  params : ListedOn Param.HandedOn (get? ms "params") (get? ns "params")
  transforms : ListedOn Eq (get? ms "transform") (get? ns "transform")
  enter : EncodedOn (get? ms "enter") (get? ns "enter")
  exit : EncodedOn (get? ms "exit") (get? ns "exit")

structure LayerOn (ms ns : Dict Fragment) : Prop where
  others : ∀ k, k ∉ Layer.names → get? ns k = get? ms k
  encoding : EncodedOn (get? ms "encoding") (get? ns "encoding")
  params : ListedOn Param.HandedOn (get? ms "params") (get? ns "params")
  transforms : ListedOn Eq (get? ms "transform") (get? ns "transform")

mutual

/-- The view `g` is of the kind of `f` and has what `f` hands on, and so have the views below it. -/
inductive HandedOn : Fragment → Fragment → Prop
  | unit {f g : Fragment} {ms ns : Dict Fragment} (hms : membersOf f = .ok ms) (hns : membersOf g = .ok ns)
      (hlayer : has ms "layer" = false) (hconcat : has ms "vconcat" = false) (h : UnitOn ms ns) : HandedOn f g
  | layer {f g : Fragment} {ms ns : Dict Fragment} {gs : List Fragment} {blanks : List String}
      (hms : membersOf f = .ok ms) (hns : membersOf g = .ok ns) (hlayer : has ms "layer" = true)
      (h : LayerOn ms ns) (hlist : get? ns "layer" = some (.array gs blanks))
      (hviews : AllHandedOn (itemsOf (get? ms "layer")) gs) : HandedOn f g
  | concat {f g : Fragment} {ms ns : Dict Fragment} {fs gs : List Fragment} {blanks blanks' : List String}
      (hms : membersOf f = .ok ms) (hns : membersOf g = .ok ns) (hlayer : has ms "layer" = false)
      (hothers : ∀ k, k ≠ "vconcat" → get? ns k = get? ms k)
      (hfrom : get? ms "vconcat" = some (.array fs blanks))
      (hto : get? ns "vconcat" = some (.array gs blanks')) (hviews : AllHandedOn fs gs) : HandedOn f g
  | noConcat {f g : Fragment} {ms ns : Dict Fragment} (hms : membersOf f = .ok ms) (hns : membersOf g = .ok ns)
      (hlayer : has ms "layer" = false) (hothers : ∀ k, get? ns k = get? ms k)
      (hnull : get? ms "vconcat" = some .null) : HandedOn f g

inductive AllHandedOn : List Fragment → List Fragment → Prop
  | nil : AllHandedOn [] []
  | cons {f g : Fragment} {fs gs : List Fragment} (h : HandedOn f g) (hrest : AllHandedOn fs gs) :
      AllHandedOn (f :: fs) (g :: gs)

end

/-! ## Encodings, lists and parameters -/

theorem optional_ne_none {r : Reader α} {old : Option α} (hf : f ≠ .null) :
    optional empty r f old ≠ .read none true := by
  have hsome : optional empty r f old = (do let b ← r f (old.getD empty); pure (some b)) := by
    cases f with
    | null => exact absurd rfl hf
    | _ => rfl
  intro h
  rw [hsome, Reading.bind_eq_clean] at h
  obtain ⟨b, -, heq⟩ := h
  cases heq

theorem Encoding.members_toFragment {e : Encoding} (hspelled : f.Spelled) (h : read f = .ok e) :
    ∃ ms ns, membersOf f = .ok ms ∧ membersOf e.toFragment = .ok ns ∧ (∀ k, k ≠ "time" → get? ns k = get? ms k)
      ∧ readTime (get? ns "time") = readTime (get? ms "time") := by
  have hsound := sound_read hspelled h
  rw [read_eq] at h
  obtain ⟨ms, hms, h⟩ := bind_eq_ok.mp h
  obtain ⟨time, htime, he⟩ := bind_eq_ok.mp h
  cases he
  have hchannels : ∀ k, get? (remove ms "time") k = if k != "time" then get? ms k else none :=
    fun k => get?_filter ms (· != "time") k
  cases time with
  | none =>
    refine ⟨ms, remove ms "time", hms, ?_, fun k hk => ?_, ?_⟩
    · exact Fragment.membersOf_record_of_sorted hsound.sorted
    · rw [hchannels, if_pos (bne_iff_ne.mpr hk)]
    · rw [hchannels, htime]
      rfl
  | some t =>
    have hsorted := hsound.sorted.put "time" t.toFragment
    refine ⟨ms, put "time" t.toFragment (remove ms "time"), hms, ?_, fun k hk => ?_, ?_⟩
    · exact Fragment.membersOf_record_of_sorted hsorted
    · rw [get?_put, if_neg hk, hchannels, if_pos (bne_iff_ne.mpr hk)]
    · rw [get?_put, if_pos rfl, htime, readTime_some t.toFragment_ne_null,
        TimeEncoding.read_toFragment (hsound.time t rfl)]
      rfl

theorem encodedOn_of_holds {e : Option Encoding} (hspelled : ∀ f ∈ o, f.Spelled)
    (h : Holds (.optional {} (.settled Encoding.read)) none o e) : EncodedOn o (e.map Encoding.toFragment) := by
  cases o with
  | none =>
    obtain rfl : e = none := h
    exact .absent
  | some f =>
    obtain ⟨old, hread⟩ := h
    by_cases hnull : f = .null
    · subst hnull
      cases hread
      exact .null
    · cases e with
      | none => exact absurd hread (optional_ne_none hnull)
      | some e =>
        have hread : Encoding.read f = .ok e := settled_eq_clean.mp ((optional_eq_clean hnull).mp hread)
        obtain ⟨ms, ns, hms, hns, hchannels, htime⟩ := Encoding.members_toFragment (hspelled f rfl) hread
        exact .channels hnull hms hns hchannels htime

theorem forall₂_of_holds (h : Holds (.list empty (.settled r)) [] o as) :
    List.Forall₂ (fun f a => r f = .ok a) (itemsOf o) as := by
  cases o with
  | none =>
    obtain rfl : as = [] := h
    exact .nil
  | some f =>
    obtain ⟨old, hread⟩ := h
    cases f with
    | null =>
      cases hread
      exact .nil
    | array fs blanks => exact (forall₂_of_items hread).imp fun _ _ ⟨_, h⟩ => settled_eq_clean.mp h
    | _ => cases hread

theorem listedOn_of_holds {write : α → Fragment} {R : Fragment → Fragment → Prop}
    (h : Holds (.list empty (.settled r)) [] o as) (hR : ∀ f ∈ itemsOf o, ∀ a, r f = .ok a → R f (write a)) :
    ListedOn R o (if as.isEmpty then none else some (.list (as.map write))) := by
  have hitems := forall₂_of_holds h
  cases o with
  | none =>
    cases hitems
    exact .absent
  | some f =>
    obtain ⟨old, hread⟩ := h
    cases f with
    | null =>
      cases hitems
      exact .null
    | array fs blanks =>
      cases hitems with
      | nil => exact .empty blanks
      | cons hf hrest =>
        refine .items (cons_ne_nil _ _) ?_ blanks []
        have hboth := (forall₂_and_left _ _).mpr ⟨hR, .cons hf hrest⟩
        exact forall₂_map_right_iff.mpr (hboth.imp fun f a h => h.1 a h.2)
    | _ => cases hread

theorem Param.handedOn_toFragment (hspelled : f.Spelled) (hclear : p.Clear) (h : read f = .ok p) :
    HandedOn f p.toFragment := by
  have hsound := sound_read hspelled h
  unfold read at h
  unfold HandedOn
  split at h
  · next hanim =>
    obtain ⟨a, ha, rfl⟩ := map_eq_ok.mp h
    rw [if_pos hanim]
    exact ⟨isAnimation_toFragment hsound.1 hclear hsound.2, a, ha, Selection.read_toFragment hsound.1 hclear⟩
  · next hanim =>
    cases h
    rw [if_neg hanim]
    rfl

theorem Select.clear_of_exact {s : Select} (hms : membersOf f = .ok ms) (hexact : NamedExactly names ms)
    (h : read f = .ok s) : s.Clear := by
  rw [read, readEntry_eq_ok] at h
  obtain ⟨r, others, -, hothers, rfl⟩ := h
  exact hexact.unambiguous hms hothers (by simp [written, names])

theorem Param.clear_of_exact (hexact : Exact f) (h : read f = .ok p) : p.Clear := by
  unfold read at h
  split at h
  · next hanim =>
    obtain ⟨a, ha, rfl⟩ := map_eq_ok.mp h
    rw [Selection.read, readEntry_eq_ok] at ha
    obtain ⟨b, others, hb, hothers, rfl⟩ := ha
    obtain ⟨ms, hms, -⟩ := map_eq_ok.mp hothers
    obtain ⟨hnames, hselect⟩ := hexact hanim ms (toOption_eq_some.mpr hms)
    refine ⟨?_, hnames.unambiguous hms hothers (by simp [Selection.written, Selection.names])⟩
    -- The selecting part was read from the member of its name, if there is one.
    have hholds : Holds (.settled Select.read) {} (get? ms "select") b.select :=
      holds_of_schema Selection.schema hms hnames (by simp [Selection.schema, Selection.names]) hb _
        (mem_cons_of_mem _ mem_cons_self)
    cases hsel : get? ms "select" with
    | none =>
      rw [hsel] at hholds
      have hempty : b.select = {} := hholds
      show b.select.Clear
      rw [hempty]
      simp [Select.Clear, Fragment.Unambiguous]
    | some sel =>
      rw [hsel] at hholds
      obtain ⟨old, hread⟩ := hholds
      have hread : Select.read sel = .ok b.select := settled_eq_clean.mp hread
      obtain ⟨r, others, -, hothers, -⟩ := readEntry_eq_ok.mp hread
      obtain ⟨ns, hns, -⟩ := map_eq_ok.mp hothers
      exact Select.clear_of_exact hns (hselect sel hsel ns (toOption_eq_some.mpr hns)) hread
  · cases h
    trivial

theorem exists_mem_itemsOf (h : Holds (.list empty (.settled r)) [] o as) : ∀ a ∈ as, ∃ f ∈ itemsOf o, r f = .ok a := by
  have hitems := forall₂_of_holds h
  clear h
  generalize itemsOf o = fs at hitems
  intro a ha
  induction hitems with
  | nil => cases ha
  | cons hf _ ih =>
    rcases mem_cons.mp ha with rfl | ha
    · exact ⟨_, mem_cons_self, hf⟩
    · obtain ⟨f, hmem, hread⟩ := ih ha
      exact ⟨f, mem_cons_of_mem _ hmem, hread⟩

theorem spelled_itemsOf (h : ∀ f ∈ o, f.Spelled) : ∀ f ∈ itemsOf o, f.Spelled := by
  unfold itemsOf
  split
  · next items blanks => exact Fragment.spelledAll_iff.mp (h (.array items blanks) rfl)
  · simp

theorem listedOn_params (hspelled : ∀ f ∈ o, f.Spelled) (hexact : ∀ p ∈ itemsOf o, Param.Exact p)
    (h : Holds (.list default (.settled Param.read)) [] o ps) :
    ListedOn Param.HandedOn o (if ps.isEmpty then none else some (.list (ps.map Param.toFragment))) :=
  listedOn_of_holds h fun f hf _ hread =>
    Param.handedOn_toFragment (spelled_itemsOf hspelled f hf) (Param.clear_of_exact (hexact f hf) hread) hread

theorem listedOn_transforms {ts : List Transform} (h : Holds (.list default (.settled fun f => .ok ⟨f⟩)) [] o ts) :
    ListedOn Eq o (if ts.isEmpty then none else some (.list (ts.map Transform.raw))) :=
  listedOn_of_holds h fun _ _ _ hread => congrArg Transform.raw (Except.ok.inj hread)

theorem clear_params (hexact : ∀ p ∈ itemsOf o, Param.Exact p) (h : Holds (.list default (.settled Param.read)) [] o ps) :
    ∀ p ∈ ps, p.Clear := by
  intro p hp
  obtain ⟨f, hf, hread⟩ := exists_mem_itemsOf h p hp
  exact Param.clear_of_exact (hexact f hf) hread

theorem eq_of_holds_fragment {a : Option Fragment} (h : Holds .fragment none o a) : a = o := by
  cases o with
  | none => exact h
  | some f =>
    obtain ⟨old, hread⟩ := h
    exact (Reading.read.inj hread).1.symm

theorem spelled_get? (hf : f.Spelled) (hms : membersOf f = .ok ms) (k : String) :
    ∀ v ∈ get? ms k, v.Spelled := fun v hv => (membersOf_spelled hf hms).2 (k, v) (mem_of_get? hv)

namespace Unit

variable {f : Fragment} {ms : Dict Fragment} {u : Unit}

structure ReadsFrom (u : Unit) (ms : Dict Fragment) : Prop where
  mark : Holds .fragment none (get? ms "mark") u.mark
  encoding : Holds (.optional {} (.settled Encoding.read)) none (get? ms "encoding") u.encoding
  params : Holds (.list default (.settled Param.read)) [] (get? ms "params") u.params
  transforms : Holds (.list default (.settled fun f => .ok ⟨f⟩)) [] (get? ms "transform") u.transforms
  enter : Holds (.optional {} (.settled Encoding.read)) none (get? ms "enter") u.enter
  exit : Holds (.optional {} (.settled Encoding.read)) none (get? ms "exit") u.exit

theorem readsFrom_of_read (hms : membersOf f = .ok ms) (hexact : NamedExactly names ms) (h : read f = .ok u) :
    u.ReadsFrom ms := by
  rw [read, readEntry_eq_ok] at h
  obtain ⟨v, others, hv, -, rfl⟩ := h
  have hfields := holds_of_schema schema hms hexact (by simp [schema, names]) hv
  simp only [schema, layout, forall_mem_cons, not_mem_nil, false_implies, implies_true, and_true] at hfields
  obtain ⟨hmark, hencoding, hparams, htransforms, henter, hexit⟩ := hfields
  exact ⟨hmark, hencoding, hparams, htransforms, henter, hexit⟩

theorem clear_of_exact (hms : membersOf f = .ok ms) (hexact : NamedExactly names ms)
    (hparams : ∀ p ∈ itemsOf (get? ms "params"), Param.Exact p) (h : read f = .ok u) : u.Clear :=
  ⟨clear_params hparams (readsFrom_of_read hms hexact h).params,
    hexact.unambiguous hms (Chart.othersOf_unit h) (by simp [written, names])⟩

theorem unitOn_toFragment (hf : f.Spelled) (hms : membersOf f = .ok ms) (hexact : NamedExactly names ms)
    (hparams : ∀ p ∈ itemsOf (get? ms "params"), Param.Exact p) (h : read f = .ok u) :
    ∃ ns, membersOf u.toFragment = .ok ns ∧ UnitOn ms ns := by
  have hsound := sound_read hf h
  have hreads := readsFrom_of_read hms hexact h
  have hspelled := spelled_get? hf hms
  have hmerge := merges_written hsound
  have hfield : ∀ {n o}, (n, o) ∈ u.written → get? (ofPairs (Fragment.written u.written u.others)) n = o :=
    fun {n o} ho => hmerge.get?_field ho fun e he heq =>
      hsound.others.foreign e he (heq ▸ (mem_map_of_mem (f := (·.1)) ho : n ∈ names))
  refine ⟨_, u.membersOf_toFragment, ?_⟩
  exact {
    others := fun k hk => (hmerge.get?_other hk).trans (get?_othersOf hms (Chart.othersOf_unit h) hk)
    mark := (hfield (mem_of_getElem? (i := 0) rfl)).trans (eq_of_holds_fragment hreads.mark)
    encoding := by
      rw [hfield (mem_of_getElem? (i := 1) rfl)]
      exact encodedOn_of_holds (hspelled "encoding") hreads.encoding
    params := by
      rw [hfield (mem_of_getElem? (i := 2) rfl)]
      exact listedOn_params (hspelled "params") hparams hreads.params
    transforms := by
      rw [hfield (mem_of_getElem? (i := 3) rfl)]
      exact listedOn_transforms hreads.transforms
    enter := by
      rw [hfield (mem_of_getElem? (i := 4) rfl)]
      exact encodedOn_of_holds (hspelled "enter") hreads.enter
    exit := by
      rw [hfield (mem_of_getElem? (i := 5) rfl)]
      exact encodedOn_of_holds (hspelled "exit") hreads.exit }

end Unit

namespace Layer

variable {f : Fragment} {ms : Dict Fragment} {l : Layer} {cs : List Fragment}

structure ReadsFrom (l : Layer) (ms : Dict Fragment) : Prop where
  encoding : Holds (.optional {} (.settled Encoding.read)) none (get? ms "encoding") l.encoding
  params : Holds (.list default (.settled Param.read)) [] (get? ms "params") l.params
  transforms : Holds (.list default (.settled fun f => .ok ⟨f⟩)) [] (get? ms "transform") l.transforms

theorem readsFrom_of_read (hms : membersOf f = .ok ms) (hexact : NamedExactly names ms) (h : read f = .ok l) :
    l.ReadsFrom ms ∧ othersOf f names = .ok l.others := by
  rw [read, readEntry_eq_ok] at h
  obtain ⟨v, others, hv, hothers, rfl⟩ := h
  have hfields := holds_of_schema ownSchema hms hexact (by simp [ownSchema, names]) hv
  simp only [ownSchema, layout, forall_mem_cons, not_mem_nil, false_implies, implies_true, and_true] at hfields
  obtain ⟨hencoding, hparams, htransforms⟩ := hfields
  exact ⟨⟨hencoding, hparams, htransforms⟩, hothers⟩

theorem children_eq_itemsOf (hms : membersOf f = .ok ms) (hexact : NamedExactly names ms) (h : children f = .ok cs) :
    cs = itemsOf (get? ms "layer") := by
  have hrecord : record [("layer", childList)] f [] = .read cs true := by
    cases f with
    | null =>
      cases h
      rfl
    | object raw blanks => exact childrenAmong_eq_ok.mp h
    | _ => cases hms
  have hholds := holds_of_record hms hexact (by simp [names]) hrecord
  have hitems := (forall₂_of_holds hholds).imp fun _ _ h => Except.ok.inj h
  exact (forall₂_eq_eq_eq ▸ hitems : _ = _).symm

theorem clear_of_exact (hms : membersOf f = .ok ms) (hexact : NamedExactly names ms)
    (hparams : ∀ p ∈ itemsOf (get? ms "params"), Param.Exact p) (h : read f = .ok l) (cs : List Fragment) :
    l.Clear cs := by
  obtain ⟨hreads, hothers⟩ := readsFrom_of_read hms hexact h
  exact ⟨clear_params hparams hreads.params, hexact.unambiguous hms hothers (by simp [written, names])⟩

theorem layerOn_fragment (hf : f.Spelled) (hms : membersOf f = .ok ms) (hexact : NamedExactly names ms)
    (hparams : ∀ p ∈ itemsOf (get? ms "params"), Param.Exact p) (h : read f = .ok l) (hl : l.Sound)
    (cs : List Fragment) :
    ∃ ns, membersOf (l.fragment cs) = .ok ns ∧ get? ns "layer" = some (.list cs) ∧ LayerOn ms ns := by
  obtain ⟨hreads, hothers⟩ := readsFrom_of_read hms hexact h
  have hspelled := spelled_get? hf hms
  have hmerge := merges_fragment hl cs
  have hnames : ∀ k, k ∈ (l.written cs).map (·.1) ↔ k ∈ names := by
    intro k
    simp only [written, names, map_cons, map_nil, mem_cons, not_mem_nil, or_false]
    tauto
  have hfield := fun {n o} (ho : (n, o) ∈ l.written cs) => hmerge.get?_field ho fun e he heq =>
    hl.others.foreign e he (heq ▸ (hnames n).mp (mem_map_of_mem (f := (·.1)) ho))
  refine ⟨_, Fragment.membersOf_record _, hfield (mem_of_getElem? (i := 3) rfl), ?_⟩
  exact {
    others := fun k hk => (hmerge.get?_other fun hmem => hk ((hnames k).mp hmem)).trans (get?_othersOf hms hothers hk)
    encoding := by
      rw [hfield (mem_of_getElem? (i := 0) rfl)]
      exact encodedOn_of_holds (hspelled "encoding") hreads.encoding
    params := by
      rw [hfield (mem_of_getElem? (i := 1) rfl)]
      exact listedOn_params (hspelled "params") hparams hreads.params
    transforms := by
      rw [hfield (mem_of_getElem? (i := 2) rfl)]
      exact listedOn_transforms hreads.transforms }

end Layer

/-! ## Charts -/

theorem Exact.of_members (h : Exact f) (hms : membersOf f = .ok ms) : NamedExactly (fieldNames ms) ms
      ∧ ("params" ∈ fieldNames ms → ∀ p ∈ itemsOf (get? ms "params"), Param.Exact p)
      ∧ ∀ v ∈ viewsBelow ms, Exact v := by
  obtain ⟨hms', hnames, hparams, hviews⟩ := h
  obtain rfl := Except.ok.inj (hms'.symm.trans hms)
  exact ⟨hnames, hparams, hviews⟩

theorem Unit.handedOn_toFragment {u : Unit} (hf : f.Spelled) (hexact : Exact f) (hms : membersOf f = .ok ms)
    (hlayer : has ms "layer" = false) (hconcat : has ms "vconcat" = false) (h : read f = .ok u) :
    HandedOn f u.toFragment ∧ u.Clear := by
  have hfields : fieldNames ms = names := by
    rw [fieldNames, hlayer, hconcat]
    rfl
  obtain ⟨hnames, hparams, -⟩ := hexact.of_members hms
  rw [hfields] at hnames hparams
  have hparams := hparams (by simp [names])
  obtain ⟨ns, hns, hon⟩ := unitOn_toFragment hf hms hnames hparams h
  exact ⟨.unit hms hns hlayer hconcat hon, clear_of_exact hms hnames hparams h⟩

theorem Chart.units_of_holds {us : List Unit} (h : Holds unitList none o (some (us.map some))) :
    ∃ fs blanks, o = some (.array fs blanks) ∧ List.Forall₂ (fun f u => Unit.read f = .ok u) fs us := by
  cases o with
  | none => cases h
  | some f =>
    obtain ⟨old, hread⟩ := h
    cases f with
    | array fs blanks =>
      refine ⟨fs, blanks, rfl, ?_⟩
      obtain ⟨as, has, heq⟩ := Reading.bind_eq_clean.mp hread
      obtain rfl := Option.some.inj (Reading.read.inj heq).1
      refine (forall₂_map_right_iff.mp (forall₂_of_items has)).imp ?_
      rintro f u ⟨a, ha⟩
      have hne : f ≠ .null := by
        rintro rfl
        cases (Reading.read.inj ha).1
      exact settled_eq_clean.mp ((optional_eq_clean hne).mp ha)
    | _ => cases hread

theorem Chart.handedOn_listed {u : Unit} (hf : f.Spelled) (hexact : Exact f) (h : Unit.read f = .ok u)
    (hcheck : compositions.find? (has u.others) = none) : HandedOn f u.toFragment ∧ u.Clear := by
  have hothers := othersOf_unit h
  obtain ⟨ms, hms, -⟩ := map_eq_ok.mp hothers
  -- A member that would make it a composition would be a further one.
  have hplain : ∀ k ∈ compositions, k ∉ Unit.names → has ms k = false := by
    intro k hk hnames
    have hnone := find?_eq_none.mp hcheck k hk
    rw [has_eq_true, ← not_not (a := _ ∈ _), ← get?_eq_none] at hnone
    rw [Bool.eq_false_iff, ne_eq, has_eq_true, ← not_not (a := _ ∈ _), ← get?_eq_none,
      ← get?_othersOf hms hothers hnames]
    exact hnone
  exact Unit.handedOn_toFragment hf hexact hms (hplain "layer" (by simp [compositions]) (by simp [Unit.names]))
    (hplain "vconcat" (by simp [compositions]) (by simp [Unit.names])) h

theorem Chart.members_concat {g : Fragment} {others : Dict Fragment} {us : Option (List Unit)}
    (hms : membersOf f = .ok ms) (hothers : othersOf f ["vconcat"] = .ok others) (hsound : (vconcat us others).Sound)
    (hg : concatWritten us = [("vconcat", some g)]) : ∃ ns, membersOf (vconcat us others).toFragment = .ok ns
      ∧ (∀ k, k ≠ "vconcat" → get? ns k = get? ms k) ∧ get? ns "vconcat" = some g := by
  have hmerge := merges_concat hsound
  refine ⟨_, membersOf_concat us others, fun k hk => ?_, ?_⟩
  · have hk : k ∉ ["vconcat"] := by simpa using hk
    exact (hmerge.get?_other hk).trans (get?_othersOf hms hothers hk)
  · refine hmerge.get?_field (by rw [hg]; exact mem_cons_self) fun e he heq => ?_
    exact hsound.2.1.foreign e he (heq ▸ mem_cons_self)

theorem Chart.null_of_holds (h : Holds unitList none o none) : o = none ∨ o = some .null := by
  cases o with
  | none => exact .inl rfl
  | some f =>
    obtain ⟨old, hread⟩ := h
    cases f with
    | null => exact .inr rfl
    | array fs blanks =>
      obtain ⟨as, -, heq⟩ := Reading.bind_eq_clean.mp hread
      cases heq
    | _ => cases hread

theorem Chart.handedOn_units {fs : List Fragment} {us : List Unit} (hspelled : ∀ f ∈ fs, f.Spelled)
    (hexact : ∀ f ∈ fs, Exact f) (hcheck : ∀ u ∈ us, compositions.find? (has u.others) = none)
    (hread : List.Forall₂ (fun f u => Unit.read f = .ok u) fs us) :
    AllHandedOn fs (us.map Unit.toFragment) ∧ ∀ u ∈ us, u.Clear := by
  induction hread with
  | nil => exact ⟨.nil, by simp⟩
  | cons hu _ ih =>
    obtain ⟨hcheck, hcheckRest⟩ := forall_mem_cons.mp hcheck
    obtain ⟨hspelled, hspelledRest⟩ := forall_mem_cons.mp hspelled
    obtain ⟨hexact, hexactRest⟩ := forall_mem_cons.mp hexact
    obtain ⟨hon, hclear⟩ := handedOn_listed hspelled hexact hu hcheck
    obtain ⟨hrest, hclears⟩ := ih hspelledRest hexactRest hcheckRest
    exact ⟨.cons hon hrest, forall_mem_cons.mpr ⟨hclear, hclears⟩⟩

theorem Chart.handedOn_concat {c : Chart} (hf : f.Spelled) (hexact : Exact f) (hms : membersOf f = .ok ms)
    (hlayer : has ms "layer" = false) (hconcat : has ms "vconcat" = true) (h : readConcat f = .ok c) :
    HandedOn f c.toFragment ∧ c.Clear := by
  have hfields : fieldNames ms = ["vconcat"] := by
    rw [fieldNames, hlayer, hconcat]
    rfl
  have hbelow : viewsBelow ms = itemsOf (get? ms "vconcat") := by
    rw [viewsBelow, hlayer, hconcat]
    rfl
  obtain ⟨hnames, -, hviews⟩ := hexact.of_members hms
  rw [hfields] at hnames
  rw [hbelow] at hviews
  have hsound := sound_readConcat hf hms hlayer h
  rw [readConcat_eq] at h
  obtain ⟨o, ho, h⟩ := bind_eq_ok.mp h
  obtain ⟨others, hothers, h⟩ := bind_eq_ok.mp h
  have hholds : Holds unitList none (get? ms "vconcat") o :=
    holds_of_schema concatSchema hms hnames (by simp [concatSchema]) (run_eq_ok.mp ho) _ mem_cons_self
  have hclear : ∀ us, Fragment.Unambiguous (concatWritten us) others := fun us =>
    hnames.unambiguous hms hothers (by simp [concatWritten])
  -- A chart without a list is one whose list is spelled null, and it is written so again.
  cases o with
  | none =>
    cases h
    obtain ⟨ns, hns, hsame, hlist⟩ := members_concat hms hothers hsound (g := .null) rfl
    have hnull : get? ms "vconcat" = some .null := by
      refine (null_of_holds hholds).resolve_left fun hnone => ?_
      exact get?_eq_none.mp hnone (has_eq_true.mp hconcat)
    refine ⟨.noConcat hms hns hlayer (fun k => ?_) hnull, by simp, hclear none⟩
    by_cases hk : k = "vconcat"
    · rw [hk, hnull, hlist]
    · exact hsame k hk
  | some os =>
    obtain ⟨us, hus, hc⟩ := bind_eq_ok.mp h
    cases hc
    obtain ⟨rfl, hcheck⟩ := checkUnits_eq_ok hus
    obtain ⟨fs, blanks, hfrom, hread⟩ := units_of_holds hholds
    obtain ⟨ns, hns, hsame, hlist⟩ := members_concat hms hothers hsound rfl
    have hspelled : ∀ v ∈ fs, v.Spelled := by
      have := spelled_itemsOf (spelled_get? hf hms "vconcat")
      rwa [hfrom] at this
    rw [hfrom] at hviews
    obtain ⟨hunits, hclears⟩ := handedOn_units hspelled hviews hcheck hread
    refine ⟨.concat hms hns hlayer hsame hfrom hlist hunits, ?_, hclear (some us)⟩
    rintro _ ⟨⟩
    exact hclears

theorem Chart.handedOn_views {cs : List Fragment} {vs : List View}
    (ih : ∀ f ∈ cs, ∀ c, ofFragment f = .ok c → HandedOn f c.toFragment ∧ c.Clear)
    (hread : List.Forall₂ (fun f v => ofFragment f = .ok (view v)) cs vs) :
    AllHandedOn cs (View.toFragments vs) ∧ View.ClearAll vs := by
  induction hread with
  | nil => exact ⟨.nil, trivial⟩
  | cons hv _ ihrest =>
    obtain ⟨ihf, ih⟩ := forall_mem_cons.mp ih
    obtain ⟨hon, hclear⟩ := ihf _ hv
    obtain ⟨hrest, hclears⟩ := ihrest ih
    exact ⟨.cons hon hrest, hclear, hclears⟩

theorem Chart.handedOn_toFragment (f : Fragment) : ∀ c, f.Spelled → Exact f → ofFragment f = .ok c →
    HandedOn f c.toFragment ∧ c.Clear := by
  induction f using layer_induction with
  | h f ih =>
    intro c hf hexact h
    obtain ⟨ms, hms, ⟨hlayer, l, cs, vs, hl, hcs, hvs, rfl⟩ | ⟨hlayer, hconcat, hread⟩ | ⟨hlayer, hconcat, u, hu, rfl⟩⟩ :=
      ofFragment_eq_ok.mp h
    · have hfields : fieldNames ms = Layer.names := by rw [fieldNames, if_pos hlayer]
      have hbelow : viewsBelow ms = itemsOf (get? ms "layer") := by rw [viewsBelow, if_pos hlayer]
      obtain ⟨hnames, hparams, hviews⟩ := hexact.of_members hms
      rw [hfields] at hnames hparams
      rw [hbelow] at hviews
      have hparams := hparams (by simp [Layer.names])
      obtain ⟨hsound, hspelled⟩ := Layer.sound_read hf hl hcs
      obtain ⟨ns, hns, hlist, hon⟩ := Layer.layerOn_fragment hf hms hnames hparams hl hsound (View.toFragments vs)
      obtain rfl := Layer.children_eq_itemsOf hms hnames hcs
      obtain ⟨hall, hclears⟩ := handedOn_views
        (fun v hv c => ih _ hcs v hv c (hspelled v hv) (hviews v hv)) (readChildren_eq_ok.mp hvs)
      refine ⟨?_, Layer.clear_of_exact hms hnames hparams hl _, hclears⟩
      show HandedOn f (View.layer l vs).toFragment
      rw [View.toFragment_layer]
      exact .layer hms hns hlayer hon hlist hall
    · exact handedOn_concat hf hexact hms hlayer hconcat hread
    · exact Unit.handedOn_toFragment hf hexact hms hlayer hconcat hu

namespace Chart

/-- Everything outside the animation grammar is handed on. A chart that nests no deeper than documents may is written as
a document that is read again, as the chart up to blanks, and that has, up to blanks, what the chart's own document hands
on. A chart that nests deeper is not written at all. -/
theorem encode_handedOn {doc : String} {f : Fragment} {c : Chart} (hdoc : Fragment.parse? doc = some f)
    (hread : parse doc = .ok c) (hexact : Exact f) :
    if c.toFragment.depth ≤ maxDepth then
      ∃ text g g' c', c.encode = .ok text ∧ Fragment.parse? text = some g' ∧ parse text = .ok c'
        ∧ c'.bare = c.settle.bare ∧ g'.bare = g.bare ∧ HandedOn f g
    else ∃ e, c.encode = .error e := by
  obtain ⟨f', hf', hc⟩ := parse_eq_ok.mp hread
  obtain rfl := Option.some.inj (hf'.symm.trans hdoc)
  have hsound := sound_parse hread
  obtain ⟨hon, hclear⟩ := handedOn_toFragment f' c (Fragment.parse_spelled hdoc) hexact hc
  split
  · next hdepth =>
    have hshallow : c.toFragment.isShallow = true := decide_eq_true hdepth
    have hfits : c.toFragment.fits 0 = true := (Fragment.fits_zero _).trans hshallow
    obtain ⟨g', hbare, hg'⟩ := Fragment.parse_pretty (spelled_toFragment hsound) hfits
    obtain ⟨c', hparse, hc'⟩ := parse_render hsound hfits hclear
    exact ⟨c.render, c.toFragment, g', c', by rw [encode, if_pos hshallow], hg', hparse, hc', hbare, hon⟩
  · next hdepth =>
    have hdeep : ¬c.toFragment.isShallow = true := fun h => hdepth (of_decide_eq_true h)
    exact ⟨_, by rw [encode, if_neg hdeep]⟩

/-- A unit with a parameter of each kind, numbers of unusual spelling, an escape, a list that is empty and a property that
is not of the grammar. -/
def annotated : String :=
  "\x7b\"mark\" : \x7b\"type\": \"bar\"\x7d, \"encoding\": \x7b\"x\": \x7b\"bin\": 1e1\x7d, \"time\": \x7b\"field\": \"year\"\x7d\x7d, "
    ++ "\"params\": [\x7b\"name\": \"a\", \"select\": \x7b\"type\": \"point\", \"on\": \"timer\", \"clear\": false\x7d\x7d, "
    ++ "\x7b\"name\": \"b\", \"value\": 1.50\x7d], \"transform\": [], \"title\": \"A\\u0042\"\x7d"

theorem encode_handedOn_annotated :
    ∃ f c text g g' c', Fragment.parse? annotated = some f ∧ parse annotated = .ok c ∧ Exact f
      ∧ c.encode = .ok text ∧ Fragment.parse? text = some g' ∧ parse text = .ok c' ∧ c'.bare = c.settle.bare
      ∧ g'.bare = g.bare ∧ HandedOn f g := by
  have hcheck : ∃ f ∈ Fragment.parse? annotated, (∃ ms ∈ (membersOf f).toOption, fieldNames ms = Unit.names
        ∧ (viewsBelow ms).isEmpty = true ∧ NamedExactly Unit.names ms
        ∧ ∀ p ∈ itemsOf (Dict.get? ms "params"), Param.Exact p)
      ∧ ∃ c ∈ (ofFragment f).toOption, c.toFragment.depth ≤ maxDepth := by
    -- The characters of a text are found far faster by a lemma than by decoding it.
    have hchars : annotated.toList = _ := String.toList_append.trans (congrArg₂ _
      (String.toList_append.trans (congrArg₂ _ String.toList_ofList String.toList_ofList)) String.toList_ofList)
    rw [Fragment.parse?, hchars]
    decide +kernel
  obtain ⟨f, hf, ⟨ms, hms, hfields, hbelow, hnames, hparams⟩, c, hc, hdepth⟩ := hcheck
  have hparse : parse annotated = .ok c := parse_eq_ok.mpr ⟨f, hf, toOption_eq_some.mp hc⟩
  have hexact : Exact f := .view (toOption_eq_some.mp hms) (hfields ▸ hnames) (fun _ => hparams)
    (List.isEmpty_iff.mp hbelow ▸ (by simp))
  have hon := encode_handedOn hf hparse hexact
  rw [if_pos hdepth] at hon
  obtain ⟨text, g, g', c', hon⟩ := hon
  exact ⟨f, c, text, g, g', c', hf, hparse, hexact, hon⟩

/-! ## What is not handed on -/

/-- A unit with names that are written with escapes, one of them for half of a character. -/
def escaped : String := "\x7b\"mark\":\"point\",\"user\\u004deta\":1.50,\"\\ud83d\":2\x7d"

def tower : Nat → Fragment
  | 0 => .null
  | n + 1 => .object [("layer", .array [tower n] [])] []

theorem depth_tower : (tower n).depth = 2 * n := by
  induction n with
  | zero => rfl
  | succ n ih =>
    show 1 + max (1 + max (tower n).depth 0) 0 = _
    omega

theorem bare_tower : (tower n).bare = tower n := by
  induction n with
  | zero => rfl
  | succ n ih => simp only [tower, Fragment.bare, Fragment.bareMembers, Fragment.bareAll, ih]

theorem spelled_tower : (tower n).Spelled := by
  induction n with
  | zero => trivial
  | succ n ih =>
    have hname : String.ofList (Escape.encode false "layer".toList) = "layer" := by decide
    have hrecord : tower (n + 1) = .record [("layer", .list [tower n])] := by
      rw [tower, Fragment.record, map_singleton, hname]
      rfl
    rw [hrecord]
    refine Fragment.spelled_record (forall_mem_singleton.mpr ?_)
    exact Fragment.spelled_list (forall_mem_singleton.mpr ih)

theorem exists_of_bare_eq_tower {n : Nat} (h : f.bare = tower (n + 1)) :
    ∃ g blanks blanks', f = .object [("layer", .array [g] blanks)] blanks' ∧ g.bare = tower n := by
  rw [tower] at h
  cases f with
  | object ms blanks' =>
    -- The blanks are all that is not fixed: the one member, its name and the one view are.
    obtain _ | ⟨⟨k, a⟩, _ | ⟨m, ms⟩⟩ := ms
    case cons.nil =>
      simp only [Fragment.bare, Fragment.bareMembers, Fragment.object.injEq, List.cons.injEq, Prod.mk.injEq,
        and_true] at h
      obtain ⟨rfl, h⟩ := h
      cases a with
      | array gs blanks =>
        obtain _ | ⟨g, _ | ⟨g', gs⟩⟩ := gs
        case cons.nil =>
          simp only [Fragment.bare, Fragment.bareAll, Fragment.array.injEq, List.cons.injEq, and_true] at h
          exact ⟨g, blanks, blanks', rfl, h⟩
        all_goals simp [Fragment.bare, Fragment.bareAll] at h
      | _ => simp [Fragment.bare] at h
    all_goals simp [Fragment.bare, Fragment.bareMembers] at h
  | _ => simp [Fragment.bare] at h

theorem ofFragment_tower {n : Nat} (h : f.bare = tower n) :
    Exact f ∧ ∃ v : View, ofFragment f = .ok (view v) ∧ v.toFragment.depth = 2 * n + 1 := by
  induction n generalizing f with
  | zero =>
    obtain rfl : f = .null := by
      cases f with
      | null => rfl
      | _ => simp [Fragment.bare, tower] at h
    refine ⟨.view rfl (by decide) (by decide) (by simp [viewsBelow, has]), .unit {}, ?_, rfl⟩
    exact ofFragment_eq_ok.mpr ⟨[], rfl, .inr (.inr ⟨rfl, rfl, {}, rfl, rfl⟩)⟩
  | succ n ih =>
    obtain ⟨g, blanks, blanks', rfl, hg⟩ := exists_of_bare_eq_tower h
    obtain ⟨hexact, v, hv, hdepth⟩ := ih hg
    have hname : Fragment.unescape "layer" = "layer" := by decide +kernel
    have hms : membersOf (.object [("layer", .array [g] blanks)] blanks') = .ok [("layer", .array [g] blanks)] := by
      simp only [membersOf, map_cons, map_nil, hname]
      rfl
    have hnames : NamedExactly Layer.names [("layer", .array [g] blanks)] := by
      intro e he
      obtain rfl := mem_singleton.mp he
      show ∀ n ∈ Layer.names, foldName "layer" = foldName n → "layer" = n
      decide
    have hread : Layer.read (.object [("layer", .array [g] blanks)] blanks') = .ok {} := by
      rw [Layer.read, readEntry, othersOf, hms, Reader.fields, Reader.run, record, members, hname]
      rfl
    have hchildren : Layer.children (.object [("layer", .array [g] blanks)] blanks') = .ok [g] := by
      simp only [Layer.children, Layer.childrenAmong, hname, if_true]
    refine ⟨.view hms hnames (by simp [itemsOf, get?]) ?_, .layer {} [v], ?_, ?_⟩
    · intro x hx
      obtain rfl : x = g := mem_singleton.mp hx
      exact hexact
    · have hviews : readChildren 0 [g] = .ok [v] := readChildren_eq_ok.mpr (.cons hv .nil)
      exact ofFragment_eq_ok.mpr ⟨_, hms, .inl ⟨rfl, {}, [g], [v], hread, hchildren, hviews, rfl⟩⟩
    · rw [View.toFragment_layer]
      show 1 + max (1 + max v.toFragment.depth 0) 0 = _
      omega

/-- Names are written as plainly as they can be, whatever spelling they had; and a chart whose layers go as deep as a
document may has no text if there is nothing in the deepest, since nothing is written as a unit with nothing in it. -/
theorem encode_respells : (∃ c, parse escaped = .ok c
        ∧ c.encode = .ok "\x7b\n  \"mark\": \"point\",\n  \"userMeta\": 1.50,\n  \"\ufffd\": 2\n\x7d\n")
      ∧ ∃ doc f c e, Fragment.parse? doc = some f ∧ Exact f ∧ parse doc = .ok c ∧ c.encode = .error e := by
  constructor
  · have hcheck : ∃ c ∈ (parse escaped).toOption, c.encode.toOption
        = some "\x7b\n  \"mark\": \"point\",\n  \"userMeta\": 1.50,\n  \"\ufffd\": 2\n\x7d\n" := by
      decide +kernel
    obtain ⟨c, hc, htext⟩ := hcheck
    exact ⟨c, toOption_eq_some.mp hc, toOption_eq_some.mp htext⟩
  · have hfits : (tower 5000).fits 0 = true := by
      rw [Fragment.fits_zero, Fragment.isShallow, depth_tower]
      rfl
    obtain ⟨f, hbare, hf⟩ := Fragment.parse_pretty (spelled_tower 5000) hfits
    obtain ⟨hexact, v, hv, hdepth⟩ := ofFragment_tower (hbare.trans (bare_tower 5000))
    have hdeep : ¬(view v).toFragment.isShallow = true := by
      rw [Fragment.isShallow, toFragment, hdepth]
      decide
    exact ⟨_, f, view v, _, hf, hexact, parse_eq_ok.mpr ⟨f, hf, hv⟩, by rw [encode, if_neg hdeep]⟩

end Chart

end Spec

end AnimatedChart
