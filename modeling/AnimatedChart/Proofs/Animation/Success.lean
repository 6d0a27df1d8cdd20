import AnimatedChart.Proofs.Animation.Following

/-!
# Animation finds its marks

Scopes and marks are told by paths that two traversals of the chart assign: one lists the scopes, the other lowers the
static part after it was written and read.
-/

open List

namespace AnimatedChart.Animation

open Json Spec

/-- A scope is about to be animated: the static part is lowered, and the scopes before it are animated. -/
def ReachesScope (compiler : BaseCompiler) (c : Chart) (s : Scope) (g : Graph) (docs : List String) : Prop :=
  ∃ g₀ docs₀ before after, Runs (lowerStatic compiler c) [] g₀ docs₀
    ∧ c.scopes = before ++ s :: after
    ∧ Runs (compileScopes compiler before g₀) docs₀ g docs

/-- A unit, given with its index, is about to be bound: its scope has begun, and the units before it are animated. -/
def ReachesUnit (compiler : BaseCompiler) (c : Chart) (u : ScopedUnit) (i : Nat) (st : Stage) : Prop :=
  ∃ s g docs st₀ docs' before after, ReachesScope compiler c s g docs
    ∧ (∃ first ∈ s.units.head?, Stage.start g s first = .ok st₀)
    ∧ s.units = before ++ u :: after ∧ i = before.length
    ∧ Runs (compileUnits compiler 0 before st₀.withClock) docs st docs'

variable {c : Chart} {s : Scope} {g : Graph} {docs : List String}

theorem ReachesScope.pending (h : ReachesScope Adapter.reference.base c.elaborate s g docs) (hc : c.elaborate.Sound) :
    ∃ base, Pending base g [s] ∧ ScopesApart [s] := by
  obtain ⟨base, docs₀, before, after, hbase, hscopes, hrun⟩ := h
  have hpending := pending_lowerStatic hc hbase
  have hapart := scopesApart_elaborate c
  rw [hscopes] at hpending hapart
  have hhead : ScopesApart ([s] ++ after) := hapart.right
  exact ⟨base, (hpending.advance hapart (hpending.left.covers_compileScopes hapart.left hrun)).head, hhead.left⟩

theorem ReachesUnit.bind {u : ScopedUnit} {i : Nat} {st : Stage}
    (h : ReachesUnit Adapter.reference.base c.elaborate u i st) (hc : c.elaborate.Sound) :
    ∃ st' b, bindKeyframes st i u = .ok (some (st', b)) := by
  obtain ⟨s, g, docs, st₀, docs', before, after, hscope, ⟨first, -, hstart⟩, hunits, rfl, hrun⟩ := h
  obtain ⟨base, hpending, hapart⟩ := hscope.pending hc
  obtain ⟨hs, hchained, -⟩ := hpending.withClock hstart
  have hid := hapart.isPath s (mem_singleton_self s)
  have hpaths := hapart.nodup_units (mem_singleton_self s)
  have hreads := hpending.reads_withClock hstart
  rw [hunits] at hpaths hreads
  rw [map_append, nodup_append] at hpaths
  have hanimates := hchained.compileUnits (hs ▸ hid) hpaths.1 (fun v hv => hreads v (mem_append_left _ hv)) hrun
  -- The unit still reads its source, since the units before it are at other paths.
  obtain ⟨k, hk⟩ := hreads u (mem_append_right _ mem_cons_self)
  have hread : st.graph.reads u.path = some (sourceName k) := by
    refine (hanimates.frame.reads _ fun hmem => ?_).trans hk
    exact hpaths.2.2 _ hmem _ (mem_map_of_mem mem_cons_self) rfl
  obtain ⟨st', b, hbind, -⟩ := hanimates.chained.bind (hanimates.scope ▸ hs ▸ hid) hread
  rw [Nat.zero_add] at hbind
  exact ⟨st', b, hbind⟩

/-- Whatever has been animated before, a scope with units finds a dataset to start from, and a unit finds its mark and
the dataset that it draws. So a document is compiled if all scopes have a field, its static part is lowered, and so are
the looks of entering and leaving rows. -/
theorem marks_found {doc : String} (hparse : Chart.parse doc = .ok c) :
    (∀ s g docs, ReachesScope Adapter.reference.base c.elaborate s g docs →
      ∀ first ∈ s.units.head?, ∃ st, Stage.start g s first = .ok st)
    ∧ (∀ u i st, ReachesUnit Adapter.reference.base c.elaborate u i st →
      ∃ st' b, bindKeyframes st i u = .ok (some (st', b)))
    ∧ ((∀ s ∈ c.elaborate.scopes, s.field ≠ "") →
      (∃ g docs, Runs (lowerStatic Adapter.reference.base c.elaborate) [] g docs) →
      (∀ s ∈ c.elaborate.scopes, ∀ u ∈ s.units, s.filtersOf u ≠ [] →
        (∀ e ∈ u.unit.enter, Lowers u e) ∧ ∀ e ∈ u.unit.exit, Lowers u e) →
      ∃ out, compileDocument Adapter.reference.base doc = .ok out) := by
  have hsound := Chart.sound_elaborate (Chart.sound_parse hparse)
  refine ⟨fun s g docs h first hfirst => ?_, fun u i st h => h.bind hsound, fun hfields ⟨g, docs, hg⟩ hlooks => ?_⟩
  · obtain ⟨rest, hunits⟩ := head?_eq_some_iff.mp hfirst
    obtain ⟨base, hpending, -⟩ := h.pending hsound
    exact hpending.start hunits
  · exact exists_compileDocument hparse hfields hg hlooks

def fadingPoints : Fragment :=
  .record [("data", .record [("values", .list [])]), ("mark", .text "point"),
    ("encoding", .record [("x", .record [("field", .text "a")]), ("time", .record [("field", .text "t")])]),
    ("enter", .record [("opacity", .record [("value", .number "0")])])]

theorem marks_found_fadingPoints :
    ∃ c, Chart.parse fadingPoints.pretty = .ok c
      ∧ (∃ s g docs, ReachesScope Adapter.reference.base c.elaborate s g docs
        ∧ ∃ first ∈ s.units.head?, first.unit.enter.isSome = true ∧ s.filtersOf first ≠ []
          ∧ ∃ st, Stage.start g s first = .ok st
            ∧ ReachesUnit Adapter.reference.base c.elaborate first 0 st.withClock
            ∧ ∃ st' b, bindKeyframes st.withClock 0 first = .ok (some (st', b)))
      ∧ ∃ out, compileDocument Adapter.reference.base fadingPoints.pretty = .ok out := by
  have hlowers : ∃ c ∈ unitOf? fadingPoints, (lowered? c.elaborate).isSome = true
      ∧ (∃ s ∈ c.elaborate.scopes.head?, ∃ first ∈ s.units.head?,
        first.unit.enter.isSome = true ∧ s.filtersOf first ≠ [])
      ∧ ∀ s ∈ c.elaborate.scopes, s.field ≠ "" ∧ ∀ u ∈ s.units,
        (∀ e ∈ u.unit.enter, (lowered? (overrideChart u e)).isSome = true)
        ∧ ∀ e ∈ u.unit.exit, (lowered? (overrideChart u e)).isSome = true := by
    decide +kernel
  obtain ⟨c, hc, hlowered, ⟨s, hs, first, hfirst, hfades⟩, hscopes⟩ := hlowers
  have hparse := parse_of_unitOf hc
  obtain ⟨hstart, hbind, hcompile⟩ := marks_found hparse
  obtain ⟨g, docs, hg⟩ := exists_lowerStatic hlowered
  obtain ⟨after, hsplit⟩ := head?_eq_some_iff.mp hs
  obtain ⟨rest, hunits⟩ := head?_eq_some_iff.mp hfirst
  have hscope : ReachesScope Adapter.reference.base c.elaborate s g docs := ⟨g, docs, [], after, hg, hsplit, rfl⟩
  obtain ⟨st, hst⟩ := hstart s g docs hscope first hfirst
  have hunit : ReachesUnit Adapter.reference.base c.elaborate first 0 st.withClock :=
    ⟨s, g, docs, st, docs, [], rest, hscope, ⟨first, hfirst, hst⟩, hunits, rfl, rfl⟩
  refine ⟨c, hparse, ⟨s, g, docs, hscope, first, hfirst, hfades.1, hfades.2, st, hst, hunit, hbind _ _ _ hunit⟩, ?_⟩
  refine hcompile (fun s hs => (hscopes s hs).1) ⟨g, docs, hg⟩ fun s hs u hu _ => ?_
  obtain ⟨henter, hexit⟩ := (hscopes s hs).2 u hu
  exact ⟨fun e he => exists_lowerStatic (henter e he), fun e he => exists_lowerStatic (hexit e he)⟩

end AnimatedChart.Animation
