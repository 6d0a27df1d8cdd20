import AnimatedChart.Animation.Bridge
import AnimatedChart.Animation.TimeScale
import AnimatedChart.Proofs.Dependency.Literals
import AnimatedChart.Proofs.Dependency.Growth
import AnimatedChart.Proofs.Scope.Sites

/-!
# What a scope's clock mentions

The clock, the time scale, the holds and the selections of a scope mention each other in both directions, so each part
is taken by itself, over any set that has the names it needs, such as the signals of the clock (`ClockOperands`).
-/

open List

namespace AnimatedChart

open Json Spec Dependency

variable {data n : String} {id : ScopeId} {x : Signal}

/-! ## Names -/

theorem Animation.isIdentifier_append {a b : String} (ha : isIdentifier a = true)
    (hb : b.toList.all isIdentifierRest = true) : isIdentifier (a ++ b) = true := by
  rw [isIdentifier, String.toList_append]
  rw [isIdentifier] at ha
  cases ha' : a.toList with
  | nil => rw [ha'] at ha; cases ha
  | cons c cs =>
    rw [ha', spellsIdentifier, Bool.and_eq_true] at ha
    rw [cons_append, spellsIdentifier, all_append, ha.1, ha.2, hb]
    rfl

namespace Spec

open Animation

def ScopeId.IsSpelled (id : ScopeId) : Prop := id.path.toList.all isIdentifierRest = true

theorem ScopeId.IsSpelled.suffix (h : id.IsSpelled) : id.suffix.toList.all isIdentifierRest = true := by
  unfold ScopeId.suffix
  split
  · rfl
  · rw [String.toList_append, all_append, show id.path.toList.all isIdentifierRest = true from h]
    rfl

theorem ScopeId.IsSpelled.name (h : id.IsSpelled) {base : String} (hbase : isIdentifier base = true) :
    isIdentifier (id.name base) = true := isIdentifier_append hbase h.suffix

theorem ScopeId.isSpelled_root : root.IsSpelled := rfl

theorem ScopeId.IsSpelled.child {id : ScopeId} (h : id.IsSpelled) {kind : String}
    (hkind : kind.toList.all isIdentifierRest = true) (i : Nat) : (id.child kind i).IsSpelled := by
  have hdigits : (Nat.toDigits 10 i).all isIdentifierRest = true := by
    rw [all_eq_true]
    intro c hc
    rw [isIdentifierRest, Nat.isDigit_of_mem_toDigits (by decide) (by decide) hc, Bool.or_true]
  have hunderscore : "_".toList.all isIdentifierRest = true := by decide
  have hname : (kind ++ "_" ++ toString (i : Int)).toList.all isIdentifierRest = true := by
    rw [show toString (i : Int) = i.repr from rfl]
    simp only [String.toList_append, Nat.toList_repr, all_append, hkind, hunderscore, hdigits, Bool.and_self]
  unfold ScopeId.child
  split
  · exact hname
  · rw [ScopeId.IsSpelled, String.toList_append, String.toList_append, all_append, all_append, hname,
      show id.path.toList.all isIdentifierRest = true from h, hunderscore]
    rfl

theorem ScopeId.IsPath.isSpelled (h : id.IsPath) : id.IsSpelled := by
  induction h with
  | root => exact isSpelled_root
  | child _ hkind i ih => exact ih.child (by rcases hkind with rfl | rfl <;> decide) i

theorem Chart.isSpelled_scopes {c : Chart} {s : Scope} (h : s ∈ c.scopes) : s.id.IsSpelled :=
  (Chart.isPath_scopes h).isSpelled

/-- What of a scope stands in expressions as it is can stand there. -/
structure Scope.Writable (s : Scope) : Prop where
  field : isIdentifier s.field = true
  selections : ∀ a ∈ s.selections, isIdentifier a.name = true
  filters : ∀ f ∈ clockFilters s, isIdentifier f = true
  easing : ∀ n, s.driver?.bind (·.select.easing) = some (.named n) → n ≠ "" → isIdentifier n = true
  domain : ∀ v ∈ s.explicitDomain, isScalar v = true
  range : ∀ vs, s.timeRange? = some (.values vs) → ∀ v ∈ vs, isScalar v = true

theorem Scope.writable_iff (s : Scope) :
    s.Writable ↔ isIdentifier s.field = true ∧ (∀ a ∈ s.selections, isIdentifier a.name = true)
      ∧ (∀ f ∈ clockFilters s, isIdentifier f = true)
      ∧ (match s.driver?.bind (·.select.easing) with
        | some (.named n) => n == "" || isIdentifier n
        | _ => true) = true
      ∧ (∀ v ∈ s.explicitDomain, isScalar v = true)
      ∧ (match s.timeRange? with
        | some (.values vs) => vs.all isScalar
        | _ => true) = true := by
  constructor
  · intro h
    refine ⟨h.field, h.selections, h.filters, ?_, h.domain, ?_⟩
    · split
      · next n hn => by_cases hne : n = "" <;> simp [hne, h.easing n hn]
      · rfl
    · split
      · next vs hvs => exact all_eq_true.mpr (h.range vs hvs)
      · rfl
  · rintro ⟨hfield, hselections, hfilters, heasing, hdomain, hrange⟩
    refine ⟨hfield, hselections, hfilters, fun n hn hne => ?_, hdomain, fun vs hvs => ?_⟩
    · simpa [hn, hne] using heasing
    · simpa [hvs] using hrange

instance (s : Scope) : Decidable s.Writable := decidable_of_iff' _ s.writable_iff

/-- The id of the scope can stand in names, and the points of its easing are numbers. -/
structure Scope.Legible (s : Scope) : Prop where
  id : s.id.IsSpelled
  curve : ∀ ps, s.driver?.bind (·.select.easing) = some (.curve ps) → ∀ p ∈ ps, Decimal.IsFinite p

end Spec

namespace Animation

/-- The signals of a scope's clock whose names do not depend on its field are operands. -/
structure FixedOperands (S : Ref → Prop) (s : Scope) : Prop where
  clock : Operand S s.clock
  lastTick : Operand S s.lastTick
  eased : Operand S s.eased
  maxRange : Operand S s.maxRange
  index : Operand S s.index
  value : Operand S s.value
  current : Operand S s.current
  next : Operand S s.next
  tween : Operand S s.tween
  minExtent : Operand S s.minExtent
  maxExtent : Operand S s.maxExtent
  notHeld : Operand S s.notHeld

structure ClockOperands (S : Ref → Prop) (s : Scope) : Prop extends FixedOperands S s where
  domain : Operand S s.domain

def clockSignals (s : Scope) : List String :=
  [s.clock, s.lastTick, s.eased, s.maxRange, s.index, s.value, s.current, s.next, s.tween, s.minExtent, s.maxExtent,
    s.domain, s.notHeld]

variable {S : Ref → Prop} {s : Scope}

theorem isIdentifier_domain (hs : s.id.IsSpelled) (hfield : isIdentifier s.field = true) :
    isIdentifier s.domain = true := hs.name (isIdentifier_append hfield (by decide))

theorem FixedOperands.of_signals (hs : s.id.IsSpelled) (h : ∀ n ∈ clockSignals s, S ⟨.signal, n⟩) :
    FixedOperands S s := by
  have name {base : String} (hn : s.qualify base ∈ clockSignals s) (hbase : isIdentifier base = true) :
      Operand S (s.qualify base) := .name (hs.name hbase) fun _ => h _ hn
  constructor
  all_goals exact name (by simp [clockSignals, Scope.clock, Scope.lastTick, Scope.eased, Scope.maxRange, Scope.index,
    Scope.value, Scope.current, Scope.next, Scope.tween, Scope.minExtent, Scope.maxExtent, Scope.notHeld]) (by decide)

theorem ClockOperands.of_signals (hs : s.id.IsSpelled) (hfield : isIdentifier s.field = true)
    (h : ∀ n ∈ clockSignals s, S ⟨.signal, n⟩) : ClockOperands S s where
  toFixedOperands := .of_signals hs h
  domain := .name (isIdentifier_domain hs hfield) fun _ => h _ (by simp [clockSignals])

/-! ## The clock -/

theorem only_timer : Only S (valueRefs timer) := only_ofPairs (by simp [keyRefs, valueRefs])

theorem operand_clockCondition (v : ClockOperands S s) (hf : ∀ f ∈ clockFilters s, Operand S f) :
    Operand S (clockCondition s) := by
  refine .intercalate .fixed (by simp) fun e he => ?_
  rcases mem_append.mp he with he | he
  · exact hf e he
  · rw [mem_singleton.mp he]
    exact v.notHeld

theorem operand_easing (v : ClockOperands S s) (hclock : isIdentifier s.clock = true) (hS : S ⟨.signal, s.clock⟩)
    {f : String} (hf : isIdentifier f = true) : Operand S (call f [s!"{s.clock} / {s.maxRange}"]) := by
  have htext : call f [s!"{s.clock} / {s.maxRange}"] = f ++ "(" ++ s.clock ++ " / " ++ s.maxRange ++ ")" := by
    rw [call, commaList, String.intercalate_singleton]
    simp only [String.append_assoc]
    rfl
  rw [htext]
  exact (((Operand.applied hf hclock hS).joint .fixed).operand v.maxRange).close.toOperand

theorem operand_easingExpr (v : ClockOperands S s) (hw : s.Writable) (hl : s.Legible) (hS : S ⟨.signal, s.clock⟩) :
    Operand S (easingExpr s.driver? s!"{s.clock} / {s.maxRange}") := by
  have hclock : isIdentifier s.clock = true := hl.id.name (by decide)
  have hdefault : Operand S (call Easing.byDefault.name [s!"{s.clock} / {s.maxRange}"]) :=
    operand_easing v hclock hS (by decide)
  unfold easingExpr
  split
  · next p ps h =>
    have hplain : (Value.array ((p :: ps).map .number)).Plain := by
      refine Value.plainAll_iff.mpr fun w hw => ?_
      obtain ⟨x, hx, rfl⟩ := mem_map.mp hw
      exact hl.curve _ h x hx
    refine (Opening.call (by simp) ?_).toOperand
    simp only [forall_mem_cons]
    exact ⟨.valueLiteral hplain, (v.clock.joint .fixed).operand v.maxRange, by simp⟩
  · next n h =>
    cases hn : n.isEmpty with
    | true =>
      rw [if_pos rfl]
      exact hdefault
    | false =>
      rw [if_neg (by decide)]
      exact operand_easing v hclock hS (hw.easing n h (by simpa using hn))
  · exact hdefault

/-- What the clock needs beside its own signals: its gates, the slider of its driver and its time scale. -/
structure ClockReads (S : Ref → Prop) (s : Scope) : Prop extends ClockOperands S s where
  own : S ⟨.signal, s.clock⟩
  filters : ∀ f ∈ clockFilters s, Operand S f
  slider : ∀ d ∈ s.driver?, d.isSlider = true → Operand S d.slider
  scale : S ⟨.scale, s.timeScale⟩

theorem only_clock (v : ClockReads S s) (hw : s.Writable) (hl : s.Legible) : Only S (mentioned (clock s)) := by
  have hadvanced : Opening S s!"{s.clock} + (now() - {s.lastTick})" :=
    ((v.clock.joint .fixed).operand v.lastTick).joint .fixed
  have hcondition := operand_clockCondition v.toClockOperands v.filters
  rw [only_mentioned]
  simp only [clock, forall_mem_cons, not_mem_nil, false_implies, implies_true, and_true, true_and,
    only_signalRefs, only_references_empty]
  refine ⟨⟨only_fixed, ⟨only_timer, Operand.only ?_⟩, ?_⟩, ⟨only_fixed, ?_, only_fixed⟩, ?_⟩
  · exact ((((((((hcondition.joint .fixed).opening hadvanced).toOperand.joint .fixed).operand v.maxRange).joint
      .fixed).opening hadvanced).toOperand.joint .fixed).operand v.clock)
  · intro h hh
    obtain ⟨d, hd, rfl⟩ := mem_map.mp hh
    obtain ⟨hd, hslider⟩ := Option.filter_eq_some_iff.mp (Option.mem_toList.mp hd)
    have hname := v.slider d hd hslider
    exact ⟨only_signalRef hname, (Opening.scaleCall v.scale hname).toOperand.only⟩
  · refine only_signalEvents fun n hn => ?_
    simp only [mem_append, mem_singleton, mem_filter] at hn
    rcases hn with (rfl | hn) | rfl
    · exact v.clock
    · exact v.filters n hn.1
    · exact v.notHeld
  · exact (((operand_easingExpr v.toClockOperands hw hl v.own).joint .fixed).operand v.maxRange).only

/-! ## The time scale -/

theorem only_timeDomain (hw : s.Writable) (hdata : S ⟨.data, data⟩) (sorted : Bool) :
    Only S (valueRefs (timeDomain s data sorted)) := by
  unfold timeDomain
  split
  · refine only_ofPairs ?_
    cases sorted <;> simpa [keyRefs, valueRefs] using hdata
  · exact only_scalars hw.domain

theorem only_range (hw : s.Writable) {v : Value} (h : v = .null ∨ (∃ ms, v = .ofPairs [("step", .number ms)])
    ∨ ∃ vs, s.timeRange? = some (.values vs) ∧ v = .array vs) : Only S (valueRefs v) := by
  rcases h with rfl | ⟨ms, rfl⟩ | ⟨vs, hvs, rfl⟩
  · exact only_nil
  · exact only_ofPairs (by simp [keyRefs, valueRefs])
  · exact only_scalars (hw.range vs hvs)

theorem only_updated {name update : String} (h : Operand S update) : Only S (signalRefs { name, update }) := by
  simpa using h.only

theorem only_signals_bandTime (v : FixedOperands S s) (hscale : S ⟨.scale, s.timeScale⟩)
    (hx : x ∈ (bandTime s data).signals) (hdomain : x.name ∈ [s.index, s.value] → Operand S s.domain) :
    Only S (signalRefs x) := by
  simp only [bandTime, mem_cons, not_mem_nil, or_false] at hx
  rcases hx with rfl | rfl | rfl | rfl
  · exact only_updated (Opening.callOn hscale (by simp)).toOperand
  · have hdomain := hdomain (by simp)
    simp only [only_signalRefs, forall_mem_cons, not_mem_nil, false_implies, implies_true, and_true,
      only_references_empty, true_and]
    refine ⟨only_fixed, only_signalRef v.eased, Operand.only ?_⟩
    exact ((((((Opening.fixed).operand hdomain).argument hscale).toOperand.joint .fixed).operand v.eased).joint
      .fixed).toOperand
  · exact only_updated ((((hdomain (by simp)).joint .fixed).operand v.index).joint .fixed).toOperand
  · exact only_updated v.value

theorem only_bandTime (v : ClockOperands S s) (hw : s.Writable) (hscale : S ⟨.scale, s.timeScale⟩)
    (hdata : S ⟨.data, data⟩) : Only S (mentioned (bandTime s data)) := by
  rw [only_mentioned]
  refine ⟨nofun, fun x hx => only_signals_bandTime v.toFixedOperands hscale hx fun _ => v.domain, ?_, nofun, nofun⟩
  simp only [bandTime, forall_mem_cons, not_mem_nil, false_implies, implies_true, and_true, only_scaleRefs]
  refine ⟨only_timeDomain hw hdata true, only_nil, only_range hw ?_⟩
  split
  · exact .inr (.inl ⟨_, rfl⟩)
  · next vs h => exact .inr (.inr ⟨vs, h, rfl⟩)
  · exact .inl rfl

theorem only_signals_linearTime (v : FixedOperands S s) (hscale : S ⟨.scale, s.timeScale⟩)
    (hkeyframes : S ⟨.data, s.keyframes⟩) (helapsed : S ⟨.data, s.elapsedKeyframes⟩)
    (hx : x ∈ (linearTime s data).signals) (hdomain : x.name = s.current → Operand S s.domain) :
    Only S (signalRefs x) := by
  simp only [linearTime, mem_cons, not_mem_nil, or_false] at hx
  rcases hx with rfl | rfl | rfl | rfl
  · exact only_updated ((((Opening.argument hscale).toOperand.joint .fixed).operand v.eased).joint .fixed).toOperand
  · exact only_updated ((((Opening.argument hkeyframes).toOperand.joint .fixed).opening
      (.stringLiteral S s.field)).toOperand.joint .fixed).toOperand
  · exact only_updated ((Opening.argument helapsed).toOperand.joint .fixed).toOperand
  · exact only_updated ((((hdomain rfl).joint .fixed).operand v.index).joint .fixed).toOperand

theorem only_data_linearTime (v : FixedOperands S s) (hdata : S ⟨.data, data⟩) (hkeyframes : S ⟨.data, s.keyframes⟩) :
    ∀ d ∈ (linearTime s data).data, Only S (datasetRefs d) := by
  simp only [linearTime, forall_mem_cons]
  refine ⟨only_derived hdata ?_, only_derived hkeyframes ?_, by simp⟩
  · simp only [forall_mem_cons]
    refine ⟨only_ofPairs ?_, only_ofPairs ?_, by simp⟩
    · simp [keyRefs, valueRefs, itemRefs]
    · simp only [forall_mem_cons]
      exact ⟨by simp [keyRefs], only_keyRefs_ofPairs (by simp [keyRefs]), by simp⟩
  · simpa using only_filterBy ((((Operand.access S s.field).joint .fixed).operand v.value).only)

theorem only_linearTime (v : ClockOperands S s) (hw : s.Writable) (hscale : S ⟨.scale, s.timeScale⟩)
    (hdata : S ⟨.data, data⟩) (hkeyframes : S ⟨.data, s.keyframes⟩) (helapsed : S ⟨.data, s.elapsedKeyframes⟩) :
    Only S (mentioned (linearTime s data)) := by
  rw [only_mentioned]
  refine ⟨only_data_linearTime v.toFixedOperands hdata hkeyframes, fun x hx =>
    only_signals_linearTime v.toFixedOperands hscale hkeyframes helapsed hx fun _ => v.domain, ?_, nofun, nofun⟩
  simp only [linearTime, forall_mem_cons, not_mem_nil, false_implies, implies_true, and_true, only_scaleRefs]
  refine ⟨only_timeDomain hw hdata false, only_nil, only_range hw ?_⟩
  split
  · next vs h => exact .inr (.inr ⟨vs, h, rfl⟩)
  · exact .inl rfl

theorem only_rangeEnd (hscale : S ⟨.scale, s.timeScale⟩) : Only S (signalRefs (rangeEnd s)) := by
  unfold rangeEnd
  split
  · simp
  · simp only [only_signalRefs, only_references_empty, not_mem_nil, false_implies, implies_true, and_true, true_and]
    exact ((Opening.argument hscale).toOperand.joint .fixed).toOperand.only

theorem operand_tweenExpr (v : FixedOperands S s) (hscale : S ⟨.scale, s.timeScale⟩) : Operand S (tweenExpr s) := by
  have hat {e : String} (he : Operand S e) : Opening S s!"scale({stringLiteral s.timeScale}, {e})" :=
    (((Opening.argument hscale).toOperand.joint .fixed).operand he).joint .fixed
  have hspan {c n : String} (hc : Opening S c) (hn : Opening S n) :
      Opening S s!"(({n} > {c} ? {n} : {s.maxRange}) - {c})" :=
    ((((((((((Opening.fixed).opening hn).toOperand.joint .fixed).opening hc).toOperand.joint .fixed).opening
      hn).toOperand.joint .fixed).operand v.maxRange).joint .fixed).opening hc).toOperand.joint .fixed
  have hcurr := hat v.current
  unfold tweenExpr
  dsimp only
  split
  · have hspan := hspan hcurr (hat v.next)
    exact ((((((((Opening.fixed).opening hspan).toOperand.joint .fixed).operand v.eased).joint .fixed).opening
      hcurr).toOperand.joint .fixed).opening hspan).toOperand.joint .fixed |>.toOperand
  · exact ((((((Opening.fixed).operand v.eased).joint .fixed).opening hcurr).toOperand.argument hscale).toOperand.joint
      .fixed).toOperand

/-- What the time scale needs beside the signals of the clock. -/
structure TimeReads (S : Ref → Prop) (s : Scope) (data : String) : Prop extends ClockOperands S s where
  data : S ⟨.data, data⟩
  scale : S ⟨.scale, s.timeScale⟩
  keyframes : s.isLinear = true → S ⟨.data, s.keyframes⟩ ∧ S ⟨.data, s.elapsedKeyframes⟩

/-- The signals of the time scale whose expressions hold the name of the time values. -/
def domainReaders (s : Scope) : List String :=
  (if s.isLinear then [s.current] else [s.index, s.value]) ++ [s.minExtent, s.maxExtent, s.next]

theorem only_signals_timeScale (v : FixedOperands S s) (hscale : S ⟨.scale, s.timeScale⟩)
    (hkeyframes : s.isLinear = true → S ⟨.data, s.keyframes⟩ ∧ S ⟨.data, s.elapsedKeyframes⟩)
    (hx : x ∈ (timeScale s data).signals) (hdomain : x.name ∈ domainReaders s → Operand S s.domain) :
    Only S (signalRefs x) := by
  rw [timeScale, mem_append] at hx
  rcases hx with hx | hx
  · split at hx
    · next h =>
      refine only_signals_linearTime v hscale (hkeyframes h).1 (hkeyframes h).2 hx fun hname => hdomain ?_
      simp [domainReaders, h, hname]
    · next h =>
      refine only_signals_bandTime v hscale hx fun hname => hdomain ?_
      rw [domainReaders, if_neg h]
      exact mem_append_left _ hname
  · simp only [mem_cons, not_mem_nil, or_false] at hx
    rcases hx with rfl | rfl | rfl | rfl | rfl
    · exact only_rangeEnd hscale
    · exact only_updated (((Opening.fixed).operand (hdomain (by simp [domainReaders]))).joint .fixed).toOperand
    · exact only_updated (((Opening.fixed).operand (hdomain (by simp [domainReaders]))).joint .fixed).toOperand
    · have hdomain := hdomain (by simp [domainReaders])
      have hlast : Operand S (if s.time.loops then s.minExtent else s.maxExtent) := by
        split
        · exact v.minExtent
        · exact v.maxExtent
      exact only_updated ((((((((v.index.joint .fixed).operand hdomain).joint .fixed).operand hdomain).joint
        .fixed).operand v.index).joint .fixed).operand hlast)
    · exact only_updated (operand_tweenExpr v hscale)

theorem only_timeScale (v : TimeReads S s data) (hw : s.Writable) : Only S (mentioned (timeScale s data)) := by
  have hbase : Only S (mentioned (if s.isLinear then linearTime s data else bandTime s data)) := by
    split
    · next h => exact only_linearTime v.toClockOperands hw v.scale v.data (v.keyframes h).1 (v.keyframes h).2
    · exact only_bandTime v.toClockOperands hw v.scale v.data
  rw [only_mentioned] at hbase ⊢
  refine ⟨hbase.1, fun x hx => ?_, hbase.2.2⟩
  exact only_signals_timeScale v.toFixedOperands v.scale v.keyframes hx fun _ => v.domain

/-- What the holds of a scope need beside the signals of the clock. -/
structure HoldReads (S : Ref → Prop) (s : Scope) : Prop extends ClockOperands S s where
  holds : S ⟨.data, s.holds⟩
  holdDuration : Operand S s.holdDuration
  heldSince : Operand S s.heldSince

theorem only_pause (h : (s.driver?.map (·.select.pauses)).getD [] ≠ [] → HoldReads S s) :
    Only S (mentioned (pause s)) := by
  unfold pause
  split
  · rw [only_mentioned]
    simp
  · next pauses hne =>
    have v := h (by rintro heq; exact hne heq)
    have hdata : Opening S ("length(data(" ++ stringLiteral s.holds) := .argument v.holds
    rw [only_mentioned]
    simp only [forall_mem_cons, not_mem_nil, false_implies, implies_true, and_true, true_and,
      only_signalRefs, only_references_empty]
    refine ⟨only_given ?_, ?_, ⟨only_fixed, only_signalEvents ?_, only_fixed⟩, only_timer, ?_⟩
    · simpa using only_filterBy ((Opening.fixed : Opening S "datum.value == ").operand v.current).only
    · exact ((hdata.toOperand.argument v.holds).toOperand.ending (b := ")[0].duration : ") (n := "null")).only
    · simpa using ⟨v.holdDuration, v.current⟩
    · exact ((((v.holdDuration.joint .fixed).operand v.heldSince).joint .fixed).operand v.holdDuration).ending
        (b := ") : ") (n := "true") |>.only

theorem mem_names_timeScale (s : Scope) (data : String)
    (h : n ∈ [s.domain, s.index, s.value, s.current, s.maxRange, s.minExtent, s.maxExtent, s.next, s.tween]) :
    n ∈ (timeScale s data).signals.map (·.name) := by
  have hend : (rangeEnd s).name = s.maxRange := by
    unfold rangeEnd
    split <;> rfl
  unfold timeScale
  dsimp only
  split <;> simp [linearTime, bandTime, hend] at h ⊢ <;> tauto

theorem mem_names_pause (s : Scope) : s.notHeld ∈ (pause s).signals.map (·.name) := by
  unfold pause
  split <;> simp

theorem mem_names_clockSignals (data : String) (h : n ∈ clockSignals s) :
    n ∈ (clock s).signals.map (·.name) ∨ n ∈ (timeScale s data).signals.map (·.name)
      ∨ n ∈ (pause s).signals.map (·.name) := by
  by_cases hclock : n ∈ [s.clock, s.lastTick, s.eased]
  · exact .inl hclock
  · by_cases hheld : n = s.notHeld
    · rw [hheld]
      exact .inr (.inr (mem_names_pause s))
    · refine .inr (.inl (mem_names_timeScale s data ?_))
      simp only [clockSignals, mem_cons, not_mem_nil, or_false] at h hclock ⊢
      tauto

end Animation
end AnimatedChart
