import AnimatedChart.Animation.Bridge
import AnimatedChart.Animation.TimeScale
import AnimatedChart.Proofs.Scope.Owner

/-!
# Names of scopes do not collide

What a scope adds to a graph is named by a word and the suffix of the scope. The words of one scope are different, also
from the one that is made of its time field, whatever the field is.
-/

open List

namespace AnimatedChart.Spec

open Animation

variable {id : ScopeId} {s : Scope} {v w : String}

namespace Scope

/-! ## Words -/

def clockWords : List String :=
  ["anim_clock", "eased_anim_clock", "last_tick_at", "max_range_extent", "t_index", "anim_value", "anim_val_curr",
    "anim_val_next", "anim_tween", "min_extent", "max_extent"]

def holdWords : List String := ["is_playing_datum_pause", "datum_pause_duration", "last_datum_pause_at", "is_playing"]

def datasetWords : List String := ["time_keyframes", "time_keyframes_elapsed", "time_pause"]

def domainWord (s : Scope) : String := s.field ++ "_domain"

def signalNames (s : Scope) : List String := (clockWords ++ s.domainWord :: holdWords).map s.qualify

def datasetNames (s : Scope) : List String := datasetWords.map s.qualify

def words (s : Scope) : List String := clockWords ++ s.domainWord :: (holdWords ++ datasetWords)

theorem names_eq (s : Scope) : s.signalNames ++ s.datasetNames = s.words.map s.qualify := by
  rw [signalNames, datasetNames, ← map_append, append_assoc, cons_append, words]

theorem fixed_words : ∀ w ∈ clockWords ++ (holdWords ++ datasetWords),
    (∀ c ∈ w.toList.getLast?, c.isDigit = false) ∧ ¬"_domain".toList <:+ w.toList := by
  have hcheck : ∀ w ∈ clockWords ++ (holdWords ++ datasetWords),
      (w.toList.getLast?.all fun c => !c.isDigit) = true ∧ ¬"_domain".toList <:+ w.toList := by decide +kernel
  exact fun w hw => ⟨fun c hc => by simpa using (Option.all_eq_true _ _).mp (hcheck w hw).1 c hc, (hcheck w hw).2⟩

@[simp] theorem qualify_inj : s.qualify v = s.qualify w ↔ v = w := by
  refine ⟨fun h => ?_, congrArg s.qualify⟩
  have hlist := congrArg String.toList h
  simp only [qualify, ScopeId.name, String.toList_append] at hlist
  exact String.toList_inj.mp (append_cancel_right hlist)

theorem domainWord_ne (h : w ∈ clockWords ++ (holdWords ++ datasetWords)) : s.domainWord ≠ w := by
  rintro rfl
  exact (fixed_words _ h).2 ⟨s.field.toList, String.toList_append.symm⟩

theorem nodup_words (s : Scope) : s.words.Nodup := by
  rw [words, nodup_middle, nodup_cons]
  exact ⟨fun hmem => domainWord_ne hmem rfl, by decide⟩

theorem unnested_words (h : w ∈ s.words) : Unnested w := by
  refine unnested_of_getLast ?_
  rcases mem_cons.mp (perm_middle.mem_iff.mp h) with rfl | h
  · intro c hc
    rw [domainWord, String.toList_append, List.getLast?_append] at hc
    obtain rfl : 'n' = c := Option.some.inj hc
    decide
  · exact (fixed_words w h).1

theorem names_inj {t : Scope} (hs : s.id.IsPath) (ht : t.id.IsPath) (hv : v ∈ s.words) (hw : w ∈ t.words)
    (h : s.qualify v = t.qualify w) : v = w ∧ s.id = t.id :=
  ScopeId.name_inj hs ht (unnested_words hv) (unnested_words hw) h

theorem nodup_names (hs : s.id.IsPath) : (s.signalNames ++ s.datasetNames).Nodup := by
  rw [names_eq]
  exact s.nodup_words.map_on fun v hv w hw h => (names_inj hs hs hv hw h).1

/-! ## What scopes add -/

theorem signals_clock (s : Scope) : (Animation.clock s).signals.map (·.name) ⊆ s.signalNames := by
  simp [Animation.clock, signalNames, clockWords, clock, lastTick, eased]

theorem signals_timeScale (s : Scope) (data : String) :
    (Animation.timeScale s data).signals.map (·.name) ⊆ s.signalNames := by
  have hbase : ((if s.isLinear then linearTime s data else bandTime s data).signals).map (·.name) ⊆ s.signalNames := by
    split <;> simp [linearTime, bandTime, signalNames, clockWords, value, domain, domainWord, index, current]
  have hrange : (rangeEnd s).name = s.maxRange := by
    unfold rangeEnd
    split <;> rfl
  rw [Animation.timeScale, map_append]
  refine append_subset.mpr ⟨hbase, ?_⟩
  simp [hrange, signalNames, clockWords, maxRange, minExtent, maxExtent, next, tween]

theorem signals_pause (s : Scope) : (pause s).signals.map (·.name) ⊆ s.signalNames := by
  unfold pause
  split <;> simp [signalNames, holdWords, notHeld, holdDuration, heldSince]

theorem signals_slider (s : Scope) (a : Selection) (properties : Dict Json.Value) :
    (sliderSignals s a properties).map (·.name) ⊆ a.slider :: s.signalNames := by
  simp [sliderSignals, signalNames, holdWords, ScopeId.isPlaying, qualify]

theorem datasets_timeScale (s : Scope) (data : String) :
    (Animation.timeScale s data).data.map (·.name) ⊆ s.datasetNames := by
  show ((if s.isLinear then linearTime s data else bandTime s data).data).map (·.name) ⊆ s.datasetNames
  split <;> simp [linearTime, bandTime, datasetNames, datasetWords, keyframes, elapsedKeyframes]

theorem datasets_pause (s : Scope) : (pause s).data.map (·.name) ⊆ s.datasetNames := by
  unfold pause
  split <;> simp [datasetNames, datasetWords, holds]

end Scope

namespace ScopeId

theorem layerId_ne_zero (hid : id.IsPath) (h : id.isRoot = false) : id.layerId ≠ "0" := by
  intro hzero
  rw [layerId, h, if_neg Bool.false_ne_true] at hzero
  cases hid with
  | root => cases h
  | @child id kind _ _ i =>
    have hsuffix : "" ++ "_" ++ toString 0 = id.suffix ++ "_" ++ kind ++ "_" ++ toString i := by
      rw [← suffix_child, suffix, h, if_neg Bool.false_ne_true, hzero]
      rfl
    have hempty := (@numbered_inj "" (id.suffix ++ "_" ++ kind) 0 i hsuffix).1
    simpa using congrArg (fun w : String => w.toList.length) hempty

theorem defaultSelection_inj {id' : ScopeId} (hid : id.IsPath) (hid' : id'.IsPath)
    (h : id.defaultSelection = id'.defaultSelection) : id = id' := by
  have hlist := congrArg String.toList h
  simp only [defaultSelection, String.toList_append] at hlist
  have hlayer : id.layerId = id'.layerId := String.toList_inj.mp (append_cancel_left hlist)
  by_cases hroot : id.isRoot = true <;> by_cases hroot' : id'.isRoot = true
  · -- Only the root has the empty path.
    exact congrArg ScopeId.mk ((String.isEmpty_iff.mp hroot).trans (String.isEmpty_iff.mp hroot').symm)
  · refine absurd (hlayer.symm.trans ?_) (layerId_ne_zero hid' (Bool.not_eq_true _ ▸ hroot'))
    rw [layerId, if_pos hroot]
  · refine absurd (hlayer.trans ?_) (layerId_ne_zero hid (Bool.not_eq_true _ ▸ hroot))
    rw [layerId, if_pos hroot']
  · rw [layerId, if_neg hroot, layerId, if_neg hroot'] at hlayer
    exact congrArg ScopeId.mk hlayer

end ScopeId

theorem Chart.nodup_scopeIds (c : Chart) : (c.elaborate.scopes.map (·.id)).Nodup := by
  rw [scopes_elaborate, map_map]
  exact (nodup_siteIds c).sublist (filter_sublist.map Site.id)

/-- The scopes of an elaborated chart have different ids and different default selections. What the clock, the time
scale, the holds and the sliders of the scopes add to a graph is named by words and the suffix of the scope, and these
names are different, within a scope and between scopes, whatever the time fields are. -/
theorem Chart.nodup_scopeNames (c : Chart) :
    (c.elaborate.scopes.map (·.id)).Nodup
    ∧ (c.elaborate.scopes.map (·.id.defaultSelection)).Nodup
    ∧ (c.elaborate.scopes.flatMap fun s => s.signalNames ++ s.datasetNames).Nodup
    ∧ ∀ (s : Scope) (data : String) (a : Selection) (properties : Dict Json.Value),
      (Animation.clock s).signals.map (·.name) ⊆ s.signalNames
      ∧ (Animation.timeScale s data).signals.map (·.name) ⊆ s.signalNames
      ∧ (pause s).signals.map (·.name) ⊆ s.signalNames
      ∧ (sliderSignals s a properties).map (·.name) ⊆ a.slider :: s.signalNames
      ∧ ((Animation.timeScale s data).data ++ (pause s).data).map (·.name) ⊆ s.datasetNames := by
  have hids := c.nodup_scopeIds
  refine ⟨hids, ?_, ?_, fun s data a properties => ?_⟩
  · refine pairwise_map.mpr ((pairwise_map.mp hids).imp_of_mem fun hs ht hne h => hne ?_)
    exact ScopeId.defaultSelection_inj (isPath_scopes hs) (isPath_scopes ht) h
  · refine nodup_flatMap.mpr ⟨fun s hs => Scope.nodup_names (isPath_scopes hs), ?_⟩
    refine (pairwise_map.mp hids).imp_of_mem fun {s t} hs ht hne n hn hn' => hne ?_
    simp only [Scope.names_eq] at hn hn'
    obtain ⟨v, hv, rfl⟩ := mem_map.mp hn
    obtain ⟨w, hw, heq⟩ := mem_map.mp hn'
    exact (Scope.names_inj (isPath_scopes hs) (isPath_scopes ht) hv hw heq.symm).2
  · rw [map_append]
    exact ⟨s.signals_clock, s.signals_timeScale data, s.signals_pause, s.signals_slider a properties,
      append_subset.mpr ⟨s.datasets_timeScale data, s.datasets_pause⟩⟩

end AnimatedChart.Spec
