import AnimatedChart.Proofs.Spec.Unit

/-!
# Charts read back

A chart that was read from a document is sound (`Chart.sound_ofFragment`). A sound chart whose further members hide no
field is read from how it is written as it was, up to `settle` (`Chart.ofFragment_toFragment`).
-/

open List AnimatedChart.Json.Fragment AnimatedChart.Dict

namespace AnimatedChart.Spec

open Json Reader

variable {c : Chart} {cs : List Fragment} {doc : String} {f : Fragment} {l : Layer} {others : Dict Fragment} {u : Unit}

/-! ## Layers -/

namespace Layer

variable {ms : List (String × Fragment)}

def ownSchema : Schema Layer where
  fields := layout
  kept := (·.others)

def childList : Reader (List Fragment) := .list .null (.settled .ok)

def schema : Schema (Layer × List Fragment) where
  fields := layout.map (.first _) ++ [⟨"layer", (·.2), fun b r => (r.1, b), childList⟩]
  kept := fun r => r.1.others
  ext := by
    rintro ⟨⟨⟩, _⟩ ⟨⟨⟩, _⟩ h rfl
    simpa [and_assoc] using h

theorem takes_childList (cs : List Fragment) (blanks : List String) : Takes childList (.array cs blanks) cs := by
  intro old
  have hitems : items null (.settled .ok) (cs.map id) old = .read (cs.map id) true :=
    items_eq_clean (fun _ _ => takes_settled rfl) old
  rwa [map_id] at hitems

theorem childrenAmong_eq_ok {out : List Fragment} :
    childrenAmong ms cs = .ok out ↔ members [("layer", childList)] ms cs = .read out true := by
  induction ms generalizing cs with
  | nil => simp [childrenAmong, members, Reading.pure_eq]
  | cons m ms ih =>
    obtain ⟨k, v⟩ := m
    by_cases hname : Reader.names "layer" (k, v)
    · have hk : foldName (unescape k) = foldName "layer" := hname.symm
      rw [members_hit hname, Reading.bind_eq_clean]
      cases v with
      | array items blanks =>
        rw [childrenAmong, if_pos hk, ih, takes_childList items blanks cs]
        constructor
        · intro h
          exact ⟨items, rfl, h⟩
        · rintro ⟨_, h, hrest⟩
          exact (Reading.read.inj h).1 ▸ hrest
      | null =>
        rw [childrenAmong, if_pos hk, ih]
        constructor
        · intro h
          exact ⟨[], rfl, h⟩
        · rintro ⟨_, h, hrest⟩
          exact (Reading.read.inj h).1 ▸ hrest
      | _ =>
        rw [childrenAmong, if_pos hk]
        · constructor
          · intro h
            cases h
          · rintro ⟨_, h, _⟩
            cases h
        · intro _ _ h
          cases h
        · intro h
          cases h
    · have hk : ¬foldName (unescape k) = foldName "layer" := fun h => hname h.symm
      have hskip : childrenAmong ((k, v) :: ms) cs = childrenAmong ms cs := by
        cases v <;> simp only [childrenAmong, if_neg hk]
      rw [hskip, members_skip hname, ih]

theorem members_schema_iff {blanks : List String} :
    record schema.readers (.object ms blanks) ({}, []) = .read (l, cs) true ↔
      record ownSchema.readers (.object ms blanks) {} = .read l true ∧ children (.object ms blanks) = .ok cs := by
  show members _ ms _ = _ ↔ members _ ms _ = _ ∧ childrenAmong ms [] = _
  rw [schema.members_iff, ownSchema.members_iff, childrenAmong_eq_ok]
  simp only [schema, layout, map_cons, map_nil, cons_append, nil_append, ownSchema, forall_mem_cons, not_mem_nil,
    false_implies, implies_true, and_true]
  constructor
  · rintro ⟨⟨h1, h2, h3, h4⟩, hkept⟩
    exact ⟨⟨⟨h1, h2, h3⟩, hkept⟩, h4⟩
  · rintro ⟨⟨⟨h1, h2, h3⟩, hkept⟩, h4⟩
    exact ⟨⟨h1, h2, h3, h4⟩, hkept⟩

/-- Every part of the layer is sound. -/
structure Sound (l : Layer) : Prop where
  encoding : ∀ e ∈ l.encoding, e.Sound
  params : ∀ p ∈ l.params, p.Sound
  transforms : ∀ t ∈ l.transforms, t.raw.Spelled
  others : OthersSound schema names l.others

/-- No further member hides a field. -/
structure Clear (l : Layer) (children : List Fragment) : Prop where
  params : ∀ p ∈ l.params, p.Clear
  others : Unambiguous (l.written children) l.others

instance (l : Layer) (children : List Fragment) : Decidable (l.Clear children) :=
  decidable_of_iff ((∀ p ∈ l.params, p.Clear) ∧ Unambiguous (l.written children) l.others)
    ⟨fun h => ⟨h.1, h.2⟩, fun h => ⟨h.params, h.others⟩⟩

def settle (l : Layer) : Layer := { l with params := l.params.map Param.settle }

theorem merges_fragment (h : l.Sound) (children : List Fragment) : Merges (l.written children) l.others
      (putAll l.others ((l.written children).filterMap fun m => m.2.map (m.1, ·))) :=
  merges_putAll h.others.sorted schema.distinct

theorem read_fragment (h : l.Sound) (hclear : l.Clear cs) :
    read (l.fragment cs) = .ok l.settle ∧ children (l.fragment cs) = .ok cs := by
  have hread : record schema.readers (l.fragment cs) ({}, []) = .read ({ l.settle with others := [] }, cs) true := by
    refine schema.read_merged (merges_fragment h cs) hclear.others h.others.accepted ?_ rfl
    simp only [schema, layout, map_cons, map_nil, cons_append, nil_append, forall_mem_cons]
    exact ⟨⟨_, mem_cons_self, restores_encoding h.encoding _⟩,
      ⟨_, mem_cons_of_mem _ mem_cons_self, restores_params h.params hclear.params _⟩,
      ⟨_, mem_cons_of_mem _ (mem_cons_of_mem _ mem_cons_self), restores_transforms l.transforms _⟩,
      ⟨some (.list cs), by simp [written], (takes_childList cs []).restores _ _⟩, by simp⟩
  obtain ⟨hown, hchildren⟩ := members_schema_iff.mp hread
  have hothers : othersOf (l.fragment cs) names = .ok l.others :=
    (merges_fragment h cs).othersOf h.others.foreign (by simp [names, written])
  rw [read]
  exact ⟨readEntry_eq_ok.mpr ⟨_, _, hown, hothers, rfl⟩, hchildren⟩

theorem steady_fields : ∀ x ∈ schema.fields, Steady x.reader := by
  simp only [schema, layout, map_cons, map_nil, cons_append, nil_append, forall_mem_cons]
  exact ⟨steady_optional (steady_settled _), steady_list (steady_settled _), steady_list (steady_settled _),
    steady_list (steady_settled _), by simp⟩

theorem sound_read (hf : f.Spelled) (h : read f = .ok l) (hchildren : children f = .ok cs) :
    l.Sound ∧ ∀ c ∈ cs, c.Spelled := by
  have hkeeps : Keeps (fun r : Layer × List Fragment => r.1.Sound ∧ ∀ c ∈ r.2, c.Spelled)
      (Reader.record schema.readers) := by
    refine schema.keeps ?_
    simp only [schema, layout, map_cons, map_nil, cons_append, nil_append, forall_mem_cons]
    exact ⟨⟨_, keeps_encoding, fun _ ha => ha.1.encoding, fun _ _ ha hb => ⟨{ ha.1 with encoding := hb }, ha.2⟩⟩,
      ⟨_, keeps_params, fun _ ha => ha.1.params, fun _ _ ha hb => ⟨{ ha.1 with params := hb }, ha.2⟩⟩,
      ⟨_, keeps_transforms, fun _ ha => ha.1.transforms, fun _ _ ha hb => ⟨{ ha.1 with transforms := hb }, ha.2⟩⟩,
      ⟨_, keeps_list_settled fun f c hf hc => Except.ok.inj hc ▸ hf, fun _ ha => ha.2,
        fun _ _ ha hb => ⟨ha.1, hb⟩⟩, by simp⟩
  have hdefault : Sound {} := ⟨by simp, by simp, by simp, OthersSound.nil _ _⟩
  rw [read, readEntry_eq_ok] at h
  obtain ⟨l', others, hl', hothers, rfl⟩ := h
  cases f with
  | object ms blanks =>
    have hread := members_schema_iff.mpr ⟨hl', hchildren⟩
    obtain ⟨hsound, hcs⟩ := hkeeps _ ({}, []) (l', cs) hf ⟨hdefault, by simp⟩ hread
    exact ⟨{ hsound with others := OthersSound.of_read hf steady_fields hread hothers }, hcs⟩
  | null =>
    obtain rfl := (Reading.read.inj hl').1
    cases hothers
    cases hchildren
    exact ⟨hdefault, by simp⟩
  | _ => cases hothers

theorem spelled_fragment (h : l.Sound) (hcs : ∀ c ∈ cs, c.Spelled) : (l.fragment cs).Spelled := by
  have hwritten : ∀ x ∈ l.written cs, ∀ v ∈ x.2, v.Spelled := by
    simp only [written, forall_mem_cons]
    exact ⟨spelled_encoding h.encoding, spelled_params h.params, spelled_transforms h.transforms,
      by simpa using spelled_list hcs, by simp⟩
  refine spelled_record fun e he => ?_
  rcases mem_of_mem_putAll he with he | he
  · exact hwritten _ (mem_own.mp he) e.2 rfl
  · exact h.others.spelled e he

def bare (l : Layer) : Layer where
  encoding := l.encoding.map Encoding.bare
  params := l.params.map Param.bare
  transforms := l.transforms.map Transform.bare
  others := mapValues Fragment.bare l.others

theorem read_bare (f : Fragment) : read f.bare = (read f).map bare := by
  refine readEntry_bare (g := bare) (ownSchema.natural ?_) (by rfl) (by intros; rfl) f
  simp only [ownSchema, layout, forall_mem_cons]
  exact ⟨.of natural_encoding, .of natural_params, .of natural_transforms, by simp⟩

theorem childrenAmong_bare (ms : List (String × Fragment)) (cs : List Fragment) :
    childrenAmong (bareMembers ms) (bareAll cs) = (childrenAmong ms cs).map bareAll := by
  induction ms generalizing cs with
  | nil => rfl
  | cons m ms ih =>
    obtain ⟨k, v⟩ := m
    by_cases hk : foldName (unescape k) = foldName "layer"
    · cases v with
      | array items blanks =>
        rw [Fragment.bareMembers, Fragment.bare, childrenAmong, childrenAmong, if_pos hk, if_pos hk, ih]
      | null =>
        rw [Fragment.bareMembers, Fragment.bare, childrenAmong, childrenAmong, if_pos hk, if_pos hk]
        · exact ih []
        · intro _ _ h
          cases h
        · intro _ _ h
          cases h
      | _ => simp only [bareMembers, childrenAmong, if_pos hk]; rfl
    · cases v <;> simp only [bareMembers, childrenAmong, if_neg hk, ih]

theorem children_bare (f : Fragment) : children f.bare = (children f).map bareAll := by
  cases f with
  | object ms blanks => exact childrenAmong_bare ms []
  | _ => rfl

end Layer
/-! ## Views and concatenations -/

namespace View

mutual

/-- Every unit and every layer is sound; a unit has no member that would make it a layer or a concatenation. -/
def Sound : View → Prop
  | unit u => u.Sound ∧ has u.others "layer" = false ∧ has u.others "vconcat" = false
  | layer l children => l.Sound ∧ SoundAll children

def SoundAll : List View → Prop
  | [] => True
  | v :: vs => v.Sound ∧ SoundAll vs

end

mutual

def Clear : View → Prop
  | unit u => u.Clear
  | layer l children => l.Clear (toFragments children) ∧ ClearAll children

def ClearAll : List View → Prop
  | [] => True
  | v :: vs => v.Clear ∧ ClearAll vs

end

mutual

instance decidableClear : (v : View) → Decidable v.Clear
  | unit u => inferInstanceAs (Decidable u.Clear)
  | layer l children =>
    have := decidableClearAll children
    inferInstanceAs (Decidable (l.Clear (toFragments children) ∧ ClearAll children))

instance decidableClearAll : (vs : List View) → Decidable (ClearAll vs)
  | [] => isTrue trivial
  | v :: vs =>
    have := decidableClear v
    have := decidableClearAll vs
    inferInstanceAs (Decidable (v.Clear ∧ ClearAll vs))

end

mutual

def settle : View → View
  | unit u => unit u.settle
  | layer l children => layer l.settle (settleAll children)

def settleAll : List View → List View
  | [] => []
  | v :: vs => v.settle :: settleAll vs

end

mutual

def bare : View → View
  | unit u => unit u.bare
  | layer l children => layer l.bare (bareAll children)

def bareAll : List View → List View
  | [] => []
  | v :: vs => v.bare :: bareAll vs

end

theorem toFragment_layer (l : Layer) (children : List View) :
    (layer l children).toFragment = l.fragment (toFragments children) := by
  rw [toFragment]

end View

namespace Chart

variable {ms : Dict Fragment}

def concatSchema : Schema (Option (List (Option Unit))) where
  fields := [⟨"vconcat", id, fun b _ => b, unitList⟩]
  kept := fun _ => ()
  ext := by
    rintro a a' h _
    simpa using h

def Sound : Chart → Prop
  | view v => v.Sound
  | vconcat us others =>
    (∀ us' ∈ us, ∀ u ∈ us', u.Sound ∧ compositions.find? (has u.others) = none)
      ∧ OthersSound concatSchema ["vconcat"] others ∧ has others "layer" = false

def Clear : Chart → Prop
  | view v => v.Clear
  | vconcat us others => (∀ us' ∈ us, ∀ u ∈ us', u.Clear) ∧ Unambiguous (concatWritten us) others

instance : (c : Chart) → Decidable c.Clear
  | view v => inferInstanceAs (Decidable v.Clear)
  | vconcat us others =>
    inferInstanceAs (Decidable ((∀ us' ∈ us, ∀ u ∈ us', u.Clear) ∧ Unambiguous (concatWritten us) others))

def settle : Chart → Chart
  | view v => view v.settle
  | vconcat us others => vconcat (us.map (·.map Unit.settle)) others

def bare : Chart → Chart
  | view v => view v.bare
  | vconcat us others => vconcat (us.map (·.map Unit.bare)) (mapValues Fragment.bare others)

theorem ofFragment_eq (f : Fragment) :
    ofFragment f = (do
      let ms ← membersOf f
      if has ms "layer" then do
        let l ← Layer.read f
        let cs ← Layer.children f
        let views ← readChildren 0 cs
        return view (.layer l views)
      else if has ms "vconcat" then readConcat f
      else return view (.unit (← Unit.read f))) := by
  rw [ofFragment]
  cases membersOf f with
  | error e => rfl
  | ok ms =>
    show (if has ms "layer" then _ else _ : Except Error Chart) = if has ms "layer" then _ else _
    split
    · cases Layer.read f with
      | error e => rfl
      | ok l =>
        simp only [bind, Except.bind]
        split
        · next e he =>
          rw [he]
          rfl
        · next cs hcs => rw [hcs]
    · rfl

theorem ofFragment_eq_ok : ofFragment f = .ok c ↔ ∃ ms, membersOf f = .ok ms ∧
      ((has ms "layer" = true ∧ ∃ l cs vs, Layer.read f = .ok l ∧ Layer.children f = .ok cs
          ∧ readChildren 0 cs = .ok vs ∧ c = view (.layer l vs))
        ∨ (has ms "layer" = false ∧ has ms "vconcat" = true ∧ readConcat f = .ok c)
        ∨ (has ms "layer" = false ∧ has ms "vconcat" = false ∧ ∃ u, Unit.read f = .ok u ∧ c = view (.unit u))) := by
  rw [ofFragment_eq, bind_eq_ok]
  refine exists_congr fun ms => and_congr_right fun _ => ?_
  cases has ms "layer" with
  | true =>
    simp only [if_true, bind_eq_ok, true_and, Bool.true_eq_false, false_and, or_false]
    constructor
    · rintro ⟨l, hl, cs, hcs, vs, hvs, hc⟩
      exact ⟨l, cs, vs, hl, hcs, hvs, (Except.ok.inj hc).symm⟩
    · rintro ⟨l, cs, vs, hl, hcs, hvs, rfl⟩
      exact ⟨l, hl, cs, hcs, vs, hvs, rfl⟩
  | false =>
    cases has ms "vconcat" with
    | true => simp
    | false =>
      simp only [Bool.false_eq_true, if_false, bind_eq_ok, false_and, true_and, false_or, and_false]
      constructor
      · rintro ⟨u, hu, hc⟩
        exact ⟨u, hu, (Except.ok.inj hc).symm⟩
      · rintro ⟨u, hu, rfl⟩
        exact ⟨u, hu, rfl⟩

theorem readChildren_eq_ok {i : Nat} {vs : List View} :
    readChildren i cs = .ok vs ↔ List.Forall₂ (fun c v => ofFragment c = .ok (view v)) cs vs := by
  induction cs generalizing i vs with
  | nil =>
    rw [readChildren]
    constructor
    · intro h
      cases h
      exact .nil
    · rintro ⟨⟩
      rfl
  | cons c cs ih =>
    rw [readChildren]
    cases hc : ofFragment c with
    | error e =>
      constructor
      · intro h
        cases h
      · rintro (_ | ⟨hv, -⟩)
        cases hc.symm.trans hv
    | ok d =>
      cases d with
      | vconcat us others =>
        constructor
        · intro h
          cases h
        · rintro (_ | ⟨hv, -⟩)
          cases hc.symm.trans hv
      | view v =>
        constructor
        · intro h
          obtain ⟨vs', hvs', rfl⟩ := map_eq_ok.mp h
          exact .cons hc (ih.mp hvs')
        · rintro (_ | ⟨hv, hrest⟩)
          obtain rfl := Chart.view.inj (Except.ok.inj (hc.symm.trans hv))
          exact map_eq_ok.mpr ⟨_, ih.mpr hrest, rfl⟩

/-! ## Written charts -/

theorem checkUnits_map_some {us : List Unit} (h : ∀ u ∈ us, compositions.find? (has u.others) = none) (i : Nat) :
    checkUnits i (us.map some) = .ok us := by
  induction us generalizing i with
  | nil => rfl
  | cons u us ih =>
    obtain ⟨hu, hus⟩ := forall_mem_cons.mp h
    rw [map_cons, checkUnits, hu]
    show (checkUnits (i + 1) (us.map some)).map (u :: ·) = _
    rw [ih hus]
    rfl

theorem readConcat_eq (f : Fragment) :
    readConcat f = (do
      let us ← (Reader.record concatSchema.readers).run f none
      let others ← othersOf f ["vconcat"]
      match us with
      | none => return vconcat none others
      | some us => return vconcat (some (← checkUnits 0 us)) others) := by
  have hread : Reader.record concatSchema.readers = Reader.record [("vconcat", unitList)] := by
    have hfield : (concatSchema.readers : List (String × Reader _)) = [("vconcat", unitList)] := by
      refine congrArg (fun r => [("vconcat", r)]) ?_
      funext f a
      show unitList f a >>= (fun b => pure b) = unitList f a
      cases unitList f a with
      | refused e => rfl
      | read b clean => cases clean <;> rfl
    rw [hfield]
  rw [hread]
  rfl

theorem unit_toFragment_ne_null (u : Unit) : u.toFragment ≠ .null := by
  rw [Unit.toFragment, recordWith]
  intro h
  cases h

theorem readConcat_toFragment {us : Option (List Unit)} (h : (vconcat us others).Sound)
    (hclear : (vconcat us others).Clear) :
    readConcat (vconcat us others).toFragment = .ok (vconcat us others).settle := by
  obtain ⟨hus, hothers, -⟩ := h
  have hnames : Distinct ((concatWritten us).map (·.1)) := concatSchema.distinct
  have hrun : (Reader.record concatSchema.readers).run (vconcat us others).toFragment none
      = .ok (us.map fun us => us.map fun u => some u.settle) := by
    refine run_eq_ok.mpr (concatSchema.read_written hothers.sorted hclear.2 hothers.accepted
      (.cons ⟨rfl, ?_⟩ .nil) rfl)
    cases us with
    | none => exact Takes.restores (fun _ => rfl) _ _
    | some us =>
      refine Takes.restores (takes_list?_map fun u hu => ?_) _ _
      exact takes_optional (unit_toFragment_ne_null u)
        (takes_settled (Unit.read_toFragment (hus us rfl u hu).1 (hclear.1 us rfl u hu)))
  have hread : othersOf (vconcat us others).toFragment ["vconcat"] = .ok others :=
    othersOf_recordWith hothers.sorted hothers.foreign hnames (by simp [concatWritten])
  rw [readConcat_eq, hrun]
  show (do let others ← othersOf (vconcat us others).toFragment ["vconcat"]; _ : Except Error Chart) = _
  rw [hread]
  cases us with
  | none => rfl
  | some us =>
    have hcheck : checkUnits 0 (us.map fun u => some u.settle) = .ok (us.map Unit.settle) := by
      have hmap : us.map (fun u => some u.settle) = (us.map Unit.settle).map some := by rw [map_map]; rfl
      rw [hmap]
      refine checkUnits_map_some (fun u hu => ?_) 0
      obtain ⟨u', hu', rfl⟩ := mem_map.mp hu
      exact (hus us rfl u' hu').2
    show (do return vconcat (some (← checkUnits 0 (us.map fun u => some u.settle))) others : Except Error Chart) = _
    rw [hcheck]
    rfl

theorem merges_concat {us : Option (List Unit)} (h : (vconcat us others).Sound) :
    Merges (concatWritten us) others (written (concatWritten us) others) :=
  merges_written h.2.1.sorted concatSchema.distinct

theorem membersOf_concat (us : Option (List Unit)) (others : Dict Fragment) :
    membersOf (vconcat us others).toFragment = .ok (ofPairs (written (concatWritten us) others)) :=
  membersOf_recordWith _ _

theorem ofFragment_unit (h : (View.unit u).Sound) :
    ofFragment u.toFragment = (Unit.read u.toFragment).map fun u => view (.unit u) := by
  have hmerge := Unit.merges_written h.1
  rw [ofFragment_eq, Unit.membersOf_toFragment]
  show (if has _ "layer" = true then _ else if has _ "vconcat" = true then _ else _ : Except Error Chart) = _
  rw [hmerge.has_eq_false (by simp [Unit.written]) h.2.1, hmerge.has_eq_false (by simp [Unit.written]) h.2.2]
  rfl

theorem ofFragment_concat {us : Option (List Unit)} (h : (vconcat us others).Sound) :
    ofFragment (vconcat us others).toFragment = readConcat (vconcat us others).toFragment := by
  have hmerge := merges_concat h
  rw [ofFragment_eq, membersOf_concat]
  show (if has _ "layer" = true then _ else if has _ "vconcat" = true then _ else _ : Except Error Chart) = _
  rw [hmerge.has_eq_false (by simp [concatWritten]) h.2.2, hmerge.has_eq_true mem_cons_self]
  rfl

mutual

theorem ofFragment_toFragment_view : ∀ v : View, v.Sound → v.Clear → ofFragment v.toFragment = .ok (view v.settle)
  | .unit u, h, hclear => by
    rw [View.toFragment, ofFragment_unit h, Unit.read_toFragment h.1 hclear]
    rfl
  | .layer l children, h, hclear => by
    obtain ⟨hread, hchildren⟩ := Layer.read_fragment h.1 hclear.1
    have hmerge := Layer.merges_fragment h.1 (View.toFragments children)
    have hlayer : ("layer", some (.list (View.toFragments children))) ∈ l.written (View.toFragments children) := by
      simp [Layer.written]
    rw [View.toFragment_layer]
    exact ofFragment_eq_ok.mpr ⟨_, membersOf_record _, .inl ⟨hmerge.has_eq_true hlayer, _, _, _, hread,
      hchildren, readChildren_eq_ok.mpr (ofFragment_toFragments children h.2 hclear.2), rfl⟩⟩

theorem ofFragment_toFragments : ∀ vs : List View, View.SoundAll vs → View.ClearAll vs →
    List.Forall₂ (fun c v => ofFragment c = .ok (view v)) (View.toFragments vs) (View.settleAll vs)
  | [], _, _ => .nil
  | v :: vs, h, hclear =>
    .cons (ofFragment_toFragment_view v h.1 hclear.1) (ofFragment_toFragments vs h.2 hclear.2)

end

theorem ofFragment_toFragment (h : c.Sound) (hclear : c.Clear) : ofFragment c.toFragment = .ok c.settle := by
  cases c with
  | view v => exact ofFragment_toFragment_view v h hclear
  | vconcat us others =>
    rw [ofFragment_concat h]
    exact readConcat_toFragment h hclear

mutual

theorem spelled_toFragment_view : ∀ v : View, v.Sound → v.toFragment.Spelled
  | .unit u, h => Unit.spelled_toFragment h.1
  | .layer l children, h => by
    rw [View.toFragment_layer]
    exact Layer.spelled_fragment h.1 (spelled_toFragments children h.2)

theorem spelled_toFragments : ∀ vs : List View, View.SoundAll vs → ∀ f ∈ View.toFragments vs, f.Spelled
  | [], _ => fun _ hf => nomatch hf
  | v :: vs, h => forall_mem_cons.mpr ⟨spelled_toFragment_view v h.1, spelled_toFragments vs h.2⟩

end

theorem spelled_toFragment (h : c.Sound) : c.toFragment.Spelled := by
  cases c with
  | view v => exact spelled_toFragment_view v h
  | vconcat us others =>
    refine spelled_closed.recordWith (forall_mem_singleton.mpr ?_) h.2.1.spelled
    rintro _ ⟨⟩
    cases us with
    | none => trivial
    | some us => exact spelled_closed.mapped fun u hu => Unit.spelled_toFragment (h.1 us rfl u hu).1

/-! ## Charts of documents -/

theorem layer_induction {P : Fragment → Prop}
    (h : ∀ f, (∀ cs, Layer.children f = .ok cs → ∀ c ∈ cs, P c) → P f) (f : Fragment) : P f :=
  h f fun cs hcs c hc =>
    have : sizeOf c < sizeOf f := by
      have hlt := sizeOf_lt_of_mem hc
      have hle := Layer.sizeOf_children hcs
      omega
    layer_induction h c
termination_by sizeOf f

theorem checkUnits_eq_ok {os : List (Option Unit)} {us : List Unit} {i : Nat} (h : checkUnits i os = .ok us) :
    os = us.map some ∧ ∀ u ∈ us, compositions.find? (has u.others) = none := by
  induction os generalizing i us with
  | nil =>
    cases h
    exact ⟨rfl, fun _ hu => nomatch hu⟩
  | cons o os ih =>
    cases o with
    | none => cases h
    | some u =>
      rw [checkUnits] at h
      split at h
      · cases h
      · next hu =>
        obtain ⟨us', hus', rfl⟩ := map_eq_ok.mp h
        obtain ⟨rfl, hrest⟩ := ih hus'
        exact ⟨rfl, forall_mem_cons.mpr ⟨hu, hrest⟩⟩

theorem has_othersOf {names : List String} (hms : membersOf f = .ok ms) (h : othersOf f names = .ok others) {k : String}
    (hk : has ms k = false) : has others k = false := by
  rw [othersOf, hms] at h
  cases h
  rw [Bool.eq_false_iff, ne_eq, has_eq_true] at hk ⊢
  intro hmem
  obtain ⟨e, he, rfl⟩ := mem_map.mp hmem
  exact hk (mem_map.mpr ⟨e, (mem_filter.mp he).1, rfl⟩)

theorem othersOf_unit (h : Unit.read f = .ok u) : othersOf f Unit.names = .ok u.others := by
  rw [Unit.read, readEntry_eq_ok] at h
  obtain ⟨v, others, -, hothers, rfl⟩ := h
  exact hothers

theorem sound_readConcat (hf : f.Spelled) (hms : membersOf f = .ok ms) (hlayer : has ms "layer" = false)
    (h : readConcat f = .ok c) : c.Sound := by
  have hlist : Keeps (fun o => ∀ us ∈ o, ∀ u? ∈ us, ∀ u ∈ u?, Unit.Sound u) unitList :=
    keeps_list? (keeps_optional (keeps_settled fun _ _ => Unit.sound_read) Unit.sound_default) fun _ hu => nomatch hu
  have hkeeps : Keeps (fun o => ∀ us ∈ o, ∀ u? ∈ us, ∀ u ∈ u?, Unit.Sound u) (Reader.record concatSchema.readers) :=
    concatSchema.keeps (forall_mem_singleton.mpr ⟨_, hlist, fun _ ha => ha, fun _ _ _ hb => hb⟩)
  have hsteady : ∀ x ∈ concatSchema.fields, Steady x.reader :=
    forall_mem_singleton.mpr (steady_list? (steady_optional (steady_settled _)))
  rw [readConcat_eq] at h
  obtain ⟨o, ho, h⟩ := bind_eq_ok.mp h
  obtain ⟨others, hothers, h⟩ := bind_eq_ok.mp h
  have ho := run_eq_ok.mp ho
  have hsound := hkeeps f none o hf (by simp) ho
  have hrest := OthersSound.of_read hf hsteady ho hothers
  cases o with
  | none =>
    cases h
    exact ⟨fun _ hus => (nomatch hus), hrest, has_othersOf hms hothers hlayer⟩
  | some os =>
    obtain ⟨us, hus, hc⟩ := bind_eq_ok.mp h
    cases hc
    obtain ⟨rfl, hcheck⟩ := checkUnits_eq_ok hus
    refine ⟨?_, hrest, has_othersOf hms hothers hlayer⟩
    rintro _ ⟨⟩ u hu
    exact ⟨hsound _ rfl (some u) (mem_map_of_mem hu) u rfl, hcheck u hu⟩

theorem sound_ofFragment (f : Fragment) : ∀ c, f.Spelled → ofFragment f = .ok c → c.Sound := by
  induction f using layer_induction with
  | h f ih =>
    intro c hf h
    obtain ⟨ms, hms, ⟨-, l, cs, vs, hl, hcs, hvs, rfl⟩ | ⟨hlayer, -, hconcat⟩ | ⟨hlayer, hconcat, u, hu, rfl⟩⟩ :=
      ofFragment_eq_ok.mp h
    · obtain ⟨hsound, hspelled⟩ := Layer.sound_read hf hl hcs
      have ih := ih cs hcs
      refine ⟨hsound, ?_⟩
      clear hcs h
      replace hvs := readChildren_eq_ok.mp hvs
      induction hvs with
      | nil => trivial
      | cons hc _ ihvs =>
        obtain ⟨hspelled, hrest⟩ := forall_mem_cons.mp hspelled
        obtain ⟨ihc, ihrest⟩ := forall_mem_cons.mp ih
        exact ⟨ihc _ hspelled hc, ihvs hrest ihrest⟩
    · exact sound_readConcat hf hms hlayer hconcat
    · have hothers := othersOf_unit hu
      exact ⟨Unit.sound_read hf hu, has_othersOf hms hothers hlayer, has_othersOf hms hothers hconcat⟩

theorem readChildren_bare (h : ∀ c ∈ cs, ofFragment c.bare = (ofFragment c).map bare) (i : Nat) :
    readChildren i (Fragment.bareAll cs) = (readChildren i cs).map View.bareAll := by
  induction cs generalizing i with
  | nil =>
    rw [Fragment.bareAll, readChildren]
    rfl
  | cons c cs ih =>
    obtain ⟨hc, hcs⟩ := forall_mem_cons.mp h
    rw [Fragment.bareAll, readChildren, readChildren, hc, ih hcs]
    cases ofFragment c with
    | error e => rfl
    | ok d =>
      cases d with
      | vconcat us others => rfl
      | view v => cases readChildren (i + 1) cs <;> rfl

theorem checkUnits_bare (os : List (Option Unit)) (i : Nat) :
    checkUnits i (os.map (Option.map Unit.bare)) = (checkUnits i os).map (List.map Unit.bare) := by
  induction os generalizing i with
  | nil => rfl
  | cons o os ih =>
    cases o with
    | none => rfl
    | some u =>
      have hhas : has u.bare.others = has u.others :=
        funext fun k => has_mapValues Fragment.bare u.others k
      rw [map_cons, Option.map_some, checkUnits, checkUnits, hhas, ih]
      split
      · rfl
      · cases checkUnits (i + 1) os <;> rfl

theorem readConcat_bare (f : Fragment) : readConcat f.bare = (readConcat f).map bare := by
  have hlist : Natural (Option.map (List.map (Option.map Unit.bare))) unitList :=
    natural_list? (natural_optional (natural_settled Unit.read_bare) rfl) rfl
  have hnatural : Natural (Option.map (List.map (Option.map Unit.bare))) (Reader.record concatSchema.readers) :=
    concatSchema.natural (forall_mem_singleton.mpr (.of hlist))
  rw [readConcat_eq, readConcat_eq, run_bare hnatural f rfl, othersOf_bare]
  cases (Reader.record concatSchema.readers).run f none with
  | error e => rfl
  | ok o =>
    cases othersOf f ["vconcat"] with
    | error e => rfl
    | ok others =>
      cases o with
      | none => rfl
      | some os =>
        show (do
            let us ← checkUnits 0 (os.map (Option.map Unit.bare))
            return vconcat (some us) (mapValues Fragment.bare others) : Except Error Chart)
          = Except.map bare (do return vconcat (some (← checkUnits 0 os)) others)
        rw [checkUnits_bare]
        cases checkUnits 0 os <;> rfl

theorem ofFragment_bare (f : Fragment) : ofFragment f.bare = (ofFragment f).map bare := by
  induction f using layer_induction with
  | h f ih =>
    rw [ofFragment_eq, ofFragment_eq, membersOf_bare, Layer.read_bare, Layer.children_bare, readConcat_bare,
      Unit.read_bare]
    cases membersOf f with
    | error e => rfl
    | ok ms =>
      show (if has (mapValues Fragment.bare ms) "layer" then _ else
        if has (mapValues Fragment.bare ms) "vconcat" then _ else _ : Except Error Chart)
        = Except.map bare (if has ms "layer" then _ else if has ms "vconcat" then _ else _)
      rw [has_mapValues, has_mapValues]
      cases has ms "layer" with
      | true =>
        cases Layer.read f with
        | error e => rfl
        | ok l =>
          cases hcs : Layer.children f with
          | error e => rfl
          | ok cs =>
            show (do return view (.layer l.bare (← readChildren 0 (bareAll cs))) : Except Error Chart)
              = Except.map bare (do return view (.layer l (← readChildren 0 cs)))
            rw [readChildren_bare (ih cs hcs)]
            cases readChildren 0 cs <;> rfl
      | false =>
        cases has ms "vconcat" with
        | true => rfl
        | false => cases Unit.read f <;> rfl

theorem parse_eq_ok : parse doc = .ok c ↔ ∃ f, parse? doc = some f ∧ ofFragment f = .ok c := by
  unfold parse
  cases parse? doc with
  | none => simp [Except.mapError]
  | some f =>
    simp only [Option.some.injEq, exists_eq_left']
    cases ofFragment f <;> simp [Except.mapError]

theorem parse_unit (hf : parse? doc = some f) (hms : membersOf f = .ok ms)
    (hlayer : has ms "layer" = false) (hconcat : has ms "vconcat" = false) (hu : Unit.read f = .ok u) :
    parse doc = .ok (view (.unit u)) := by
  refine parse_eq_ok.mpr ⟨f, hf, ?_⟩
  rw [ofFragment_eq, hms]
  show (if has ms "layer" = true then _ else if has ms "vconcat" = true then _ else _ : Except Error Chart) = _
  rw [hlayer, hconcat, if_neg Bool.false_ne_true, if_neg Bool.false_ne_true, hu]
  rfl

theorem parse_render (h : c.Sound) (hdepth : c.toFragment.fits 0 = true) (hclear : c.Clear) :
    ∃ c', parse c.render = .ok c' ∧ c'.bare = c.settle.bare := by
  obtain ⟨f, hbare, hf⟩ := parse_pretty (spelled_toFragment h) hdepth
  have hread : (ofFragment f).map bare = .ok c.settle.bare := by
    rw [← ofFragment_bare, hbare, ofFragment_bare, ofFragment_toFragment h hclear]
    rfl
  obtain ⟨c', hc', hbare'⟩ := map_eq_ok.mp hread
  exact ⟨c', parse_eq_ok.mpr ⟨f, hf, hc'⟩, hbare'⟩

theorem sound_parse (h : parse doc = .ok c) : c.Sound := by
  obtain ⟨f, hf, hc⟩ := parse_eq_ok.mp h
  exact sound_ofFragment f c (parse_spelled hf) hc

end Chart
end AnimatedChart.Spec
