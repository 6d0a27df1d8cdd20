import AnimatedChart.Proofs.Animation.Base
import AnimatedChart.Proofs.Animation.Chains

/-!
# Scopes one after the other

Before a scope is animated its units read sources of the base graph (`Pending`). Afterwards each unit with filters draws
a chain of its own source, and this stays so to the end (`Covers`).
-/

open List

namespace AnimatedChart.Animation

open Json Spec

variable {base g g' : Graph} {s : Scope} {ss ss' : List Scope} {st st' : Stage} {compiler : BaseCompiler}
  {docs docs' : List String}
variable {c : Chart} {doc : String} {first u : ScopedUnit} {out : Graph} {rest : List ScopedUnit} {s t : Scope}

def Follows (base g : Graph) (s : Scope) (u : ScopedUnit) (k : Nat) : Prop :=
  ∃ root, IsRoot k root
    ∧ Has g (chain base s k (root ++ s.id.suffix) (unitComparisons s u))
    ∧ g.reads u.path = some (bindingFor s (sourceName k) (root ++ s.id.suffix) (unitComparisons s u)).target

theorem Joins.follows {i k : Nat} (h : Joins st u k) (hst : Chained base st i) :
    Follows base st.graph st.scope u k := by
  obtain ⟨root, hroot, hmem, hread⟩ := h
  obtain ⟨k', root', ps, hroot', hstem, hps, hfilter, hhas⟩ := hst.stems _ hmem
  obtain rfl : root = root' := String.append_left_inj _ |>.mp hstem
  obtain rfl := hroot.source_inj hroot'
  refine ⟨root, hroot, ?_, hread⟩
  rw [chain_congr (unitComparisons_ne_nil st.scope u) hps hfilter]
  exact hhas

theorem Follows.frame {k : Nat} (h : Follows base g s u k) {names paths : String → Prop} (hg : Frame names paths g g')
    (hnames : ∀ n, OwnData s n → ¬names n) (hpath : ¬paths u.path) : Follows base g' s u k := by
  obtain ⟨root, hroot, hhas, hread⟩ := h
  refine ⟨root, hroot, fun d hd => ?_, (hg.reads _ hpath).trans hread⟩
  obtain ⟨tail, htail, hname⟩ := name_chain hd
  exact (hg.data _ (hnames _ (hname ▸ .chain hroot htail))).trans (hhas d hd)

/-! ## Scopes -/

/-- Scopes with different names and different units. -/
structure ScopesApart (ss : List Scope) : Prop where
  ids : (ss.map (·.id)).Nodup
  isPath : ∀ s ∈ ss, s.id.IsPath
  paths : (ss.flatMap fun s => s.units.map (·.path)).Nodup

namespace ScopesApart

theorem left (h : ScopesApart (ss ++ ss')) : ScopesApart ss where
  ids := ((sublist_append_left ss ss').map _).nodup h.ids
  isPath := fun s hs => h.isPath s (mem_append_left _ hs)
  paths := by
    have hpaths := h.paths
    rw [flatMap_append] at hpaths
    exact (sublist_append_left _ _).nodup hpaths

theorem right (h : ScopesApart (ss ++ ss')) : ScopesApart ss' where
  ids := ((sublist_append_right ss ss').map _).nodup h.ids
  isPath := fun s hs => h.isPath s (mem_append_right _ hs)
  paths := by
    have hpaths := h.paths
    rw [flatMap_append] at hpaths
    exact (sublist_append_right _ _).nodup hpaths

theorem not_ownData (h : ScopesApart (ss ++ ss')) (hs : s ∈ ss) (ht : t ∈ ss') {n : String} (hn : OwnData s n) :
    ¬OwnData t n := by
  intro hn'
  have hid := OwnData.inj (h.isPath s (mem_append_left _ hs)) (h.isPath t (mem_append_right _ ht)) hn hn'
  have hids := h.ids
  rw [map_append, nodup_append] at hids
  exact hids.2.2 _ (mem_map_of_mem hs) _ (mem_map_of_mem ht) hid

theorem path_ne (h : ScopesApart (ss ++ ss')) (hs : s ∈ ss) (ht : t ∈ ss') {p q : String}
    (hp : p ∈ s.units.map (·.path)) (hq : q ∈ t.units.map (·.path)) : p ≠ q := by
  have hpaths := h.paths
  rw [flatMap_append, nodup_append] at hpaths
  exact hpaths.2.2 _ (mem_flatMap.mpr ⟨s, hs, hp⟩) _ (mem_flatMap.mpr ⟨t, ht, hq⟩)

theorem nodup_units (h : ScopesApart ss) (hs : s ∈ ss) : (s.units.map (·.path)).Nodup :=
  (nodup_flatMap.mp h.paths).1 s hs

end ScopesApart

/-- The graph before scopes are animated. -/
structure Pending (base g : Graph) (ss : List Scope) : Prop where
  distinct : g.Distinct
  sources : ∀ k, g.dataset? (sourceName k) = base.dataset? (sourceName k)
  reads : ∀ s ∈ ss, ∀ u ∈ s.units, ∃ k, g.reads u.path = some (sourceName k)

theorem Pending.left (h : Pending base g (ss ++ ss')) : Pending base g ss :=
  { h with reads := fun s hs => h.reads s (mem_append_left _ hs) }

theorem Pending.head (h : Pending base g (s :: ss)) : Pending base g [s] := @Pending.left base g [s] ss h

/-- The graph after scopes have been animated: only what they own and what their units draw has changed, and every unit
with filters follows a chain of the source that it has read. -/
structure Covers (base g : Graph) (ss : List Scope) (g' : Graph) : Prop where
  frame : Frame (fun n => ∃ s ∈ ss, OwnData s n) (fun p => ∃ s ∈ ss, p ∈ s.units.map (·.path)) g g'
  follows : ∀ s ∈ ss, ∀ u ∈ s.units, s.filtersOf u ≠ [] → ∀ k, g.reads u.path = some (sourceName k) →
    Follows base g' s u k
  steps : Steps (fun s u b => u ∈ s.units ∧ Tracks g' s u b) ss g g'

theorem Pending.advance (h : Pending base g (ss ++ ss')) (hapart : ScopesApart (ss ++ ss')) (hg : Covers base g ss g') :
    Pending base g' ss' where
  distinct := hg.frame.distinct
  sources := fun k => (hg.frame.data _ fun ⟨s, _, hs⟩ => not_ownData_sourceName s k hs).trans (h.sources k)
  reads := fun s hs u hu => by
    obtain ⟨k, hk⟩ := h.reads s (mem_append_right _ hs) u hu
    refine ⟨k, (hg.frame.reads _ ?_).trans hk⟩
    rintro ⟨t, ht, hp⟩
    exact hapart.path_ne ht hs hp (mem_map_of_mem hu) rfl

theorem Covers.nil (h : g.Distinct) : Covers base g [] g := ⟨.refl h, fun _ hs => (nomatch hs), .refl⟩

theorem Covers.trans {g₁ : Graph} (h₁ : Covers base g ss g₁) (h₂ : Covers base g₁ ss' g')
    (hapart : ScopesApart (ss ++ ss')) : Covers base g (ss ++ ss') g' where
  frame := by
    refine (h₁.frame.mono ?_ ?_).trans (h₂.frame.mono ?_ ?_)
    · exact fun _ ⟨s, hs, hn⟩ => ⟨s, mem_append_left _ hs, hn⟩
    · exact fun _ ⟨s, hs, hp⟩ => ⟨s, mem_append_left _ hs, hp⟩
    · exact fun _ ⟨s, hs, hn⟩ => ⟨s, mem_append_right _ hs, hn⟩
    · exact fun _ ⟨s, hs, hp⟩ => ⟨s, mem_append_right _ hs, hp⟩
  follows := by
    intro s hs u hu hfilters k hk
    rcases mem_append.mp hs with hs | hs
    · refine (h₁.follows s hs u hu hfilters k hk).frame h₂.frame ?_ ?_
      · rintro n hn ⟨t, ht, hn'⟩
        exact hapart.not_ownData hs ht hn hn'
      · rintro ⟨t, ht, hp⟩
        exact hapart.path_ne hs ht (mem_map_of_mem hu) hp rfl
    · refine h₂.follows s hs u hu hfilters k ((h₁.frame.reads _ ?_).trans hk)
      rintro ⟨t, ht, hp⟩
      exact hapart.path_ne ht hs hp (mem_map_of_mem hu) rfl
  steps := by
    refine .trans (h₁.steps.mono (fun s hs u b ⟨hu, htracks⟩ => ⟨hu, htracks.congr (h₂.frame.reads _ ?_)⟩) ?_)
      (h₂.steps.mono (fun _ _ _ _ => id) (subset_append_right _ _))
    · rintro ⟨t, ht, hp⟩
      exact hapart.path_ne hs ht (mem_map_of_mem hu) hp rfl
    · exact subset_append_left _ _

/-! ## One scope -/

theorem Pending.start (h : Pending base g [s]) (hs : s.units = first :: rest) :
    ∃ st, Stage.start g s first = .ok st := by
  obtain ⟨k, hk⟩ := h.reads s (mem_singleton_self s) first (hs ▸ mem_cons_self)
  obtain ⟨m, hm, hdata⟩ := Option.map_eq_some_iff.mp hk
  refine ⟨_, if_neg ?_⟩
  have hfirst : (s.units.findSome? fun u => g.unitMark? u.path) = some m := by rw [hs, findSome?_cons, hm]
  rw [hfirst, Option.map_some, Option.getD_some, hdata, Bool.and_eq_true]
  exact fun hempty => sourceName_ne k (String.isEmpty_iff.mp hempty.1)

theorem Pending.withClock (h : Pending base g [s]) (hstart : Stage.start g s first = .ok st) :
    st.withClock.scope = s ∧ Chained base st.withClock 0 ∧ Frame (OwnData s) (fun _ => False) g st.withClock.graph := by
  obtain rfl := start_eq hstart
  have hframe (data : String) : Frame (OwnData s) (fun _ => False) g
      ({ scope := s, graph := g, data } : Stage).withClock.graph :=
    (Frame.withClock { scope := s, graph := g, data } h.distinct).mono (fun _ => OwnData.word) fun _ => id
  refine ⟨rfl, ⟨(hframe _).distinct, fun k => ?_, fun _ he => (nomatch he), fun _ he => (nomatch he)⟩, hframe _⟩
  exact ((hframe _).data _ (not_ownData_sourceName s k)).trans (h.sources k)

theorem Pending.reads_withClock (h : Pending base g [s]) (hstart : Stage.start g s first = .ok st) :
    ∀ u ∈ s.units, ∃ k, st.withClock.graph.reads u.path = some (sourceName k) := by
  intro u hu
  obtain ⟨k, hk⟩ := h.reads s (mem_singleton_self s) u hu
  exact ⟨k, ((h.withClock hstart).2.2.reads _ id).trans hk⟩

theorem compileScope_nil (hs : s.units = []) : compileScope compiler g s = pure g := by
  unfold compileScope
  rw [hs]

theorem runs_compileScope (hs : s.units = first :: rest) (hstart : Stage.start g s first = .ok st) :
    Runs (compileScope compiler g s) docs g' docs'
      ↔ ∃ st', Runs (compileUnits compiler 0 s.units st.withClock) docs st' docs' ∧ st'.graph = g' := by
  unfold compileScope
  split
  · next h => exact nomatch hs.symm.trans h
  · next first' rest' h =>
    obtain ⟨rfl, rfl⟩ := List.cons.inj (hs.symm.trans h)
    rw [runs_inContext, runs_bind]
    constructor
    · rintro ⟨st₁, docs₁, hlift, hrun⟩
      obtain ⟨hst, rfl⟩ := runs_liftM.mp hlift
      obtain rfl := Except.ok.inj (hstart.symm.trans hst)
      obtain ⟨st', docs₂, hunits, hdone⟩ := runs_bind.mp hrun
      obtain ⟨rfl, rfl⟩ := runs_pure.mp hdone
      exact ⟨st', hunits, rfl⟩
    · rintro ⟨st', hunits, rfl⟩
      exact ⟨st, docs, runs_liftM.mpr ⟨hstart, rfl⟩, runs_bind.mpr ⟨st', docs', hunits, runs_pure.mpr ⟨rfl, rfl⟩⟩⟩

theorem Pending.covers_compileScope (h : Pending base g [s]) (hapart : ScopesApart [s])
    (hrun : Runs (compileScope compiler g s) docs g' docs') : Covers base g [s] g' := by
  have hs := mem_singleton_self s
  match hunits : s.units with
  | [] =>
    rw [compileScope_nil hunits] at hrun
    obtain ⟨rfl, -⟩ := runs_pure.mp hrun
    refine ⟨.refl h.distinct, forall_mem_singleton.mpr fun u hu => ?_, .refl⟩
    rw [hunits] at hu
    cases hu
  | first :: rest =>
    obtain ⟨st, hstart⟩ := h.start hunits
    obtain ⟨st', hanimated, rfl⟩ := (runs_compileScope hunits hstart).mp hrun
    obtain ⟨hscope, hchained, hclock⟩ := h.withClock hstart
    have hanimates := hchained.compileUnits (hscope ▸ hapart.isPath s hs) (hapart.nodup_units hs)
      (h.reads_withClock hstart) hanimated
    refine ⟨.trans (hclock.mono ?_ ?_) (hanimates.frame.mono ?_ ?_), forall_mem_singleton.mpr ?_, ?_⟩
    · exact fun n hn => ⟨s, hs, hn⟩
    · simp
    · exact fun n hn => ⟨s, hs, hscope ▸ hn⟩
    · exact fun p hp => ⟨s, hs, hp⟩
    · intro u hu hfilters k hk
      have hjoins := hanimates.joins u hu (hscope ▸ hfilters) k ((hclock.reads _ id).trans hk)
      have hfollows := hjoins.follows hanimates.chained
      rw [hanimates.scope, hscope] at hfollows
      exact hfollows
    · have hsteps := hanimates.steps
      rw [hscope] at hsteps
      obtain rfl := start_eq hstart
      exact (steps_withClock _ _).trans (hsteps.mono (forall_mem_singleton.mpr fun _ _ => id) (List.Subset.refl _))

theorem Pending.succeeds_compileScope (h : Pending base g [s]) (hapart : ScopesApart [s])
    (hlooks : ∀ u ∈ s.units, s.filtersOf u ≠ [] → ∀ st, Succeeds (enterExit compiler st u)) :
    Succeeds (compileScope compiler g s) := by
  intro docs
  have hs := mem_singleton_self s
  match hunits : s.units with
  | [] => exact ⟨g, docs, compileScope_nil hunits ▸ rfl⟩
  | first :: rest =>
    obtain ⟨st, hstart⟩ := h.start hunits
    obtain ⟨hscope, hchained, -⟩ := h.withClock hstart
    obtain ⟨st', docs', hrun⟩ := hchained.succeeds_compileUnits (hscope ▸ hapart.isPath s hs) (hapart.nodup_units hs)
      (h.reads_withClock hstart) (fun u hu hne => hlooks u hu (hscope ▸ hne)) docs
    exact ⟨st'.graph, docs', (runs_compileScope hunits hstart).mpr ⟨st', hrun, rfl⟩⟩

theorem Pending.covers_compileScopes (h : Pending base g ss) (hapart : ScopesApart ss)
    (hrun : Runs (compileScopes compiler ss g) docs g' docs') : Covers base g ss g' := by
  induction ss generalizing g docs with
  | nil =>
    obtain ⟨rfl, -⟩ := runs_pure.mp hrun
    exact .nil h.distinct
  | cons s ss ih =>
    have hapart' : ScopesApart ([s] ++ ss) := hapart
    obtain ⟨g₁, docs₁, hscope, hrun⟩ := runs_bind.mp hrun
    have hcovers := h.head.covers_compileScope hapart'.left hscope
    exact hcovers.trans (ih (h.advance hapart' hcovers) hapart'.right hrun) hapart'

theorem Pending.succeeds_compileScopes (h : Pending base g ss) (hapart : ScopesApart ss)
    (hlooks : ∀ s ∈ ss, ∀ u ∈ s.units, s.filtersOf u ≠ [] → ∀ st, Succeeds (enterExit compiler st u)) :
    Succeeds (compileScopes compiler ss g) := by
  induction ss generalizing g with
  | nil => exact .pure g
  | cons s ss ih =>
    have hapart' : ScopesApart ([s] ++ ss) := hapart
    obtain ⟨hlook, hlooks⟩ := forall_mem_cons.mp hlooks
    intro docs
    obtain ⟨g₁, docs₁, hscope⟩ := h.head.succeeds_compileScope hapart'.left hlook docs
    have hcovers := h.head.covers_compileScope hapart'.left hscope
    obtain ⟨g', docs', hrun⟩ := ih (h.advance hapart' hcovers) hapart'.right hlooks docs₁
    exact ⟨g', docs', runs_bind.mpr ⟨g₁, docs₁, hscope, hrun⟩⟩

theorem scopesApart_elaborate (c : Chart) : ScopesApart c.elaborate.scopes where
  ids := c.nodup_scopeIds
  isPath := fun _ => Chart.isPath_scopes
  paths := by
    have hpaths : (c.elaborate.scopes.flatMap fun s => s.units.map (·.path))
        = ((c.elaborate.scopes.flatMap Scope.units).map ScopedUnit.entry).map (·.1) := by
      rw [map_map, map_flatMap]
      rfl
    rw [hpaths, Chart.units_scopes, map_map]
    exact (filter_sublist.map _).nodup (Chart.nodup_paths c.elaborate)

theorem mem_markedPaths_of_scopes (hs : s ∈ c.scopes) (hu : u ∈ s.units) : u.path ∈ markedPaths c.placed := by
  have hentry : u.entry ∈ (c.placed.filter Placed.isAnimated).map Placed.entry := by
    rw [← Chart.units_scopes]
    exact mem_map_of_mem (mem_flatMap.mpr ⟨s, hs, hu⟩)
  obtain ⟨p, hp, heq⟩ := mem_map.mp hentry
  obtain ⟨hp, hanimated⟩ := mem_filter.mp hp
  exact mem_map.mpr ⟨p, mem_filter.mpr ⟨hp, (Bool.and_eq_true_iff.mp hanimated).1⟩, congrArg Prod.fst heq⟩

theorem pending_lowerStatic (h : c.Sound) (hg : Runs (lowerStatic Adapter.reference.base c) docs g docs') :
    Pending g g c.scopes := by
  obtain ⟨c', hc', groups, hgroups, hplots⟩ := plots_lowerStatic hg
  have hmarked := Chart.marked_reread h hc'
  have hunits := Lowering.nodup_markedPaths c'
  refine ⟨hplots.distinct hgroups hunits, fun _ => rfl, fun s hs u hu => ?_⟩
  exact hplots.reads hgroups hunits _ (hmarked (mem_markedPaths_of_scopes hs hu))

theorem pending_compileDocument (hout : compileDocument Adapter.reference.base doc = .ok out) :
    ∃ c g docs animated docs', Chart.parse doc = .ok c ∧ Runs (lowerStatic Adapter.reference.base c.elaborate) [] g docs
      ∧ Pending g g c.elaborate.scopes
      ∧ Runs (compileScopes Adapter.reference.base c.elaborate.scopes g) docs animated docs'
      ∧ out = { animated with marks := restoreOrder (g.marks.map (·.name)) animated.marks } := by
  obtain ⟨c, hparse, -⟩ := bind_eq_ok.mp hout
  obtain ⟨docs', hrun⟩ := runs_of_compileDocument hparse hout
  obtain ⟨g, docs, animated, hg, hanimated, rfl⟩ := runs_compileElaborated hrun
  have hpending := pending_lowerStatic (Chart.sound_elaborate (Chart.sound_parse hparse)) hg
  exact ⟨c, g, docs, animated, docs', hparse, hg, hpending, hanimated, rfl⟩

theorem covers_compileDocument (hout : compileDocument Adapter.reference.base doc = .ok out) :
    ∃ c g docs animated, Chart.parse doc = .ok c ∧ Runs (lowerStatic Adapter.reference.base c.elaborate) [] g docs
      ∧ Pending g g c.elaborate.scopes ∧ Covers g g c.elaborate.scopes animated
      ∧ out = { animated with marks := restoreOrder (g.marks.map (·.name)) animated.marks } := by
  obtain ⟨c, g, docs, animated, _, hparse, hg, hpending, hanimated, rfl⟩ := pending_compileDocument hout
  exact ⟨c, g, docs, animated, hparse, hg, hpending,
    hpending.covers_compileScopes (scopesApart_elaborate c) hanimated, rfl⟩

def Lowers (u : ScopedUnit) (e : Encoding) : Prop :=
  ∃ g docs, Runs (lowerStatic Adapter.reference.base (overrideChart u e)) [] g docs

theorem succeeds_blockFor {o : Option Encoding} (h : ∀ e ∈ o, Lowers u e) (st : Stage) (block : String) :
    Succeeds (blockFor Adapter.reference.base st u block o) := by
  cases o with
  | none => exact .pure []
  | some e =>
    obtain ⟨g, _, hg⟩ := h e rfl
    have hlower : Succeeds (lowerStatic Adapter.reference.base (overrideChart u e)) := fun _ =>
      ⟨g, _, runs_lowerStatic.mpr ⟨rfl, (runs_lowerStatic.mp hg).2⟩⟩
    refine .bind (.inContext (hlower.bind fun g => ?_)) fun _ => .pure _
    split
    · exact .pure _
    · exact .pure _

theorem succeeds_enterExit (henter : ∀ e ∈ u.unit.enter, Lowers u e) (hexit : ∀ e ∈ u.unit.exit, Lowers u e)
    (st : Stage) : Succeeds (enterExit Adapter.reference.base st u) := by
  refine .bind (succeeds_blockFor henter st "enter") fun _ => .bind (succeeds_blockFor hexit st "exit") fun _ => ?_
  split
  · exact .pure _
  · exact .pure _

theorem exists_compileDocument (hparse : Chart.parse doc = .ok c) (hfields : ∀ s ∈ c.elaborate.scopes, s.field ≠ "")
    (hg : Runs (lowerStatic Adapter.reference.base c.elaborate) [] g docs)
    (hlooks : ∀ s ∈ c.elaborate.scopes, ∀ u ∈ s.units, s.filtersOf u ≠ [] →
      (∀ e ∈ u.unit.enter, Lowers u e) ∧ ∀ e ∈ u.unit.exit, Lowers u e) :
    ∃ out, compileDocument Adapter.reference.base doc = .ok out := by
  have hpending := pending_lowerStatic (Chart.sound_elaborate (Chart.sound_parse hparse)) hg
  obtain ⟨animated, docs', hanimated⟩ := hpending.succeeds_compileScopes (scopesApart_elaborate c)
    (fun s hs u hu hfilters => succeeds_enterExit (hlooks s hs u hu hfilters).1 (hlooks s hs u hu hfilters).2) docs
  exact compileDocument_of_runs hparse hfields hg hanimated

theorem exists_compileDocument_unit {f : Fragment} (hc : unitOf? f = some c) (hlowered : (lowered? c.elaborate).isSome = true)
    (hscopes : ∀ s ∈ c.elaborate.scopes, s.field ≠ "" ∧ ∀ u ∈ s.units, u.unit.enter = none ∧ u.unit.exit = none) :
    ∃ out, compileDocument Adapter.reference.base f.pretty = .ok out := by
  obtain ⟨g, docs, hg⟩ := exists_lowerStatic hlowered
  refine exists_compileDocument (parse_of_unitOf hc) (fun s hs => (hscopes s hs).1) hg fun s hs u hu _ => ?_
  obtain ⟨henter, hexit⟩ := (hscopes s hs).2 u hu
  rw [henter, hexit]
  exact ⟨by simp, by simp⟩

end AnimatedChart.Animation
