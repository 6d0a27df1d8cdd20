import AnimatedChart.Proofs.Animation.Tween
import AnimatedChart.Proofs.Graph.Outline

/-!
# Interpolated channels

Interpolation changes the update block of one mark, and in it only channels that are drawn from a field, unscaled or
through a scale of the graph with something between its values (`interpolate_confined`).
-/

open AnimatedChart.Dict

namespace AnimatedChart.Animation

open Json Spec

variable {st : Stage} {b : Binding} {key : String} {r : FieldRef} {v w : Value} {rule new : Dict Value}
  {field : String} {scale : Option Scale}

/-- The scale of a rule is one of the graph that is not discrete, or there is none. -/
inductive Through (g : Graph) (rule : Dict Value) : Option Scale → Prop
  | unscaled (h : ∀ s, get? rule "scale" = some s → s = .null ∨ s = .string "") : Through g rule none
  | scaled {n : String} {c : Scale} (hn : get? rule "scale" = some (.string n)) (hne : n ≠ "")
      (hc : g.scale? n = some c) (hrange : c.hasDiscreteRange = false) : Through g rule (some c)

def Computed (rule : Dict Value) : Prop := ∃ s, get? rule "scale" = some s ∧ s ≠ .null ∧ s.text? = none

/-- The channel's last rule is drawn from a field, without a scale or through one with values in between. -/
def Tweenable (g : Graph) (v : Value) : Prop :=
  ∃ rule field scale, ruleOf? v = some (.object rule) ∧ FieldBound rule field ∧ Through g rule scale

/-- The channel's last rule is drawn from a field through a computed scale. -/
def TweenedBare (v : Value) : Prop :=
  ∃ rule field, ruleOf? v = some (.object rule) ∧ FieldBound rule field ∧ Computed rule

/-! ## What it becomes -/

def scaled : Option Scale → String → String
  | none, e => e
  | some c, e => scaleCall c.name e

/-- How a channel runs from a row to its match. -/
inductive Path (st : Stage) (b : Binding) (key field : String) : Option Scale → String → Prop
  /-- Through the field's value at every keyframe of the row's key, at the position of the eased clock. -/
  | spline {scale : Option Scale} (h : b.spans = true) : Path st b key field scale (scaled scale
      (call "interpolateCatmullRom" [call "fieldvaluesforkey" [stringLiteral b.continuity, stringLiteral field,
        stringLiteral key, access "datum" key], s!"{st.scope.eased} / {st.scope.maxRange}"]))
  | unscaled (h : b.spans = false) : Path st b key field none
      (lerp (access "datum" field) (access "datum.next" field) st.scope.tween)
  /-- Colours are looked up between the rows, and not mixed. -/
  | color {c : Scale} (h : b.spans = false) (hc : c.isColor = true) : Path st b key field (some c)
      (scaleCall c.name (lerp (access "datum" field) (access "datum.next" field) st.scope.tween))
  | rescaled {c : Scale} (h : b.spans = false) (hc : c.isColor = false) (htime : st.scope.time.rescales = true)
      (hscale : isRescalable c b = true) : Path st b key field (some c) (lerp (scaleCall c.name (access "datum" field))
        (scaleCall (twinName c.name) (access "datum.next" field)) st.scope.tween)
  | fixed {c : Scale} (h : b.spans = false) (hc : c.isColor = false)
      (hscale : st.scope.time.rescales = false ∨ isRescalable c b = false) : Path st b key field (some c)
        (lerp (scaleCall c.name (access "datum" field)) (scaleCall c.name (access "datum.next" field)) st.scope.tween)

def bandOf (rule : Dict Value) (scale : Option Scale) : Option Value :=
  if scale.map (·.type) = some "band" then (get? rule "band").filter Value.isSome else none

def matchedOr (path own : String) : String := s!"isValid(datum.next) ? {path} : {own}"

def withinBand (c : Scale) (band : Value) (expr : String) : String :=
  s!"({expr}) + bandwidth({stringLiteral c.name}) * {valueLiteral band}"

/-- The expression of an interpolated rule. -/
inductive Expression (st : Stage) (b : Binding) (key : String) (rule : Dict Value) (field : String) (scale : Option Scale) :
    String → Prop
  | plain {path : String} (hpath : Path st b key field scale path) (hband : bandOf rule scale = none) :
      Expression st b key rule field scale (matchedOr path (scaled scale (access "datum" field)))
  | banded {path : String} {c : Scale} {band : Value} (hpath : Path st b key field scale path) (hc : scale = some c)
      (hband : bandOf rule scale = some band) :
      Expression st b key rule field scale (withinBand c band (matchedOr path (scaled scale (access "datum" field))))

/-- The second rule takes the place of the first one. -/
structure Interpolates (st : Stage) (b : Binding) (key : String) (rule new : Dict Value) : Prop where
  signal : ∃ field scale expr, FieldBound rule field ∧ (Through st.graph rule scale ∨ Computed rule ∧ scale = none)
    ∧ Expression st b key rule field scale expr ∧ get? new "signal" = some (.string expr)
  offset : get? new "offset" = (get? rule "offset").filter Value.isSome
  only : ∀ k, k ≠ "signal" → k ≠ "offset" → get? new k = none

/-- The last rule of a channel is replaced, and the rules before it are kept. -/
inductive Tweened (st : Stage) (b : Binding) (key : String) : Value → Value → Prop
  | value {rule new : Dict Value} (h : Interpolates st b key rule new) : Tweened st b key (.object rule) (.object new)
  | rules {rules : List Value} {rule new : Dict Value} (h : Interpolates st b key rule new) :
      Tweened st b key (.array (rules ++ [.object rule])) (.array (rules ++ [.object new]))

/-- A channel of an update block before and after. -/
structure Interpolated (st : Stage) (b : Binding) (key : String) (e e' : String × Value) : Prop where
  name : e'.1 = e.1
  rewritten : e'.2 ≠ e.2 ↔ Tweenable st.graph e.2 ∨ TweenedBare e.2
  tweened : e'.2 ≠ e.2 → Tweened st b key e.2 e'.2

/-! ## Rules -/

theorem path_tweenExprs (hname : ∀ c, scale = some c → c.name = r.scale) :
    Path st b key r.field scale (tweenExprs st b key r scale).1 := by
  unfold tweenExprs
  dsimp only
  cases hspans : b.spans with
  | true =>
    cases scale with
    | none => exact .spline hspans
    | some c => exact hname c rfl ▸ .spline hspans
  | false =>
    cases scale with
    | none => exact .unscaled hspans
    | some c =>
      rw [← hname c rfl, if_neg Bool.false_ne_true]
      dsimp only
      split
      · next hcolor => exact .color hspans hcolor
      · next hcolor =>
        rw [Bool.not_eq_true] at hcolor
        split
        · next hscale =>
          obtain ⟨htime, hscale⟩ := Bool.and_eq_true_iff.mp hscale
          exact .rescaled hspans hcolor htime hscale
        · next hscale => exact .fixed hspans hcolor (Bool.and_eq_false_iff.mp (Bool.not_eq_true _ ▸ hscale))

theorem fallback_tweenExprs (hname : ∀ c, scale = some c → c.name = r.scale) :
    (tweenExprs st b key r scale).2 = scaled scale (access "datum" r.field) := by
  cases scale with
  | none => rfl
  | some c =>
    rw [scaled, hname c rfl]
    rfl

theorem scaleFor?_rule {g : Graph} : scaleFor? g (((get? rule "scale").bind Value.text?).getD "") = some scale ↔
    Through g rule scale ∨ Computed rule ∧ none = scale := by
  rw [scaleFor?_eq_some]
  constructor
  · rintro (⟨hempty, rfl⟩ | ⟨hne, c, hc, hrange, rfl⟩)
    · by_cases hcomputed : Computed rule
      · exact .inr ⟨hcomputed, rfl⟩
      · refine .inl (.unscaled fun s hs => ?_)
        rw [hs, Option.bind_some] at hempty
        cases s with
        | null => exact .inl rfl
        | string n => exact .inr (congrArg Value.string hempty)
        | _ => exact absurd ⟨_, hs, by simp, rfl⟩ hcomputed
    · cases hs : get? rule "scale" with
      | none =>
        rw [hs] at hne
        exact absurd rfl hne
      | some s =>
        rw [hs] at hne hc
        cases s with
        | string n => exact .inl (.scaled hs hne hc hrange)
        | _ => exact absurd rfl hne
  · rintro ((⟨h⟩ | ⟨hn, hne, hc, hrange⟩) | ⟨⟨s, hs, -, htext⟩, rfl⟩)
    · refine .inl ⟨?_, rfl⟩
      cases hs : get? rule "scale" with
      | none => rfl
      | some s => obtain rfl | rfl := h s hs <;> rfl
    · rw [hn]
      exact .inr ⟨hne, _, hc, hrange, rfl⟩
    · rw [hs, Option.bind_some, htext]
      exact .inl ⟨rfl, rfl⟩

theorem filter_isSome_eq (o : Option Value) :
    o.filter Value.isSome = if (o.getD .null).isSome then some (o.getD .null) else none := by
  cases o with
  | none => rfl
  | some x => exact Option.filter_some

theorem expression_ruleExpr (hname : ∀ c, scale = some c → c.name = r.scale)
    (hband : r.band = (get? rule "band").getD .null) :
    Expression st b key rule r.field scale (ruleExpr st b key r scale) := by
  have hpath : Path st b key r.field scale _ := path_tweenExprs hname
  have hbandOf : bandOf rule scale = if scale.map (·.type) == some "band" && r.band.isSome then some r.band else none := by
    rw [bandOf, filter_isSome_eq, ← hband]
    by_cases htype : scale.map (·.type) = some "band" <;> simp [htype]
  rw [ruleExpr, show channelExpr st b key r scale = matchedOr _ _ from rfl, fallback_tweenExprs hname]
  split
  · next h =>
    rw [if_pos h] at hbandOf
    cases scale with
    | none => cases h
    | some c =>
      rw [← hname c rfl]
      exact .banded hpath rfl hbandOf
  · next h =>
    rw [if_neg h] at hbandOf
    exact .plain hpath hbandOf

theorem get?_tweenRule (expr : String) (offset : Value) : ∃ new, tweenRule expr offset = .object new
    ∧ get? new "signal" = some (.string expr) ∧ (get? new "offset" = if offset.isSome then some offset else none)
    ∧ ∀ k, k ≠ "signal" → k ≠ "offset" → get? new k = none := by
  have hnil (k : String) : get? ([] : Dict Value) k = none := rfl
  refine ⟨_, rfl, ?_⟩
  split <;> simp +contextual [ofPairs, putAll, get?_put, hnil]

theorem interpolates_tweenRule (b : Binding) (key : String) (hr : refOf? (.object rule) = some r)
    (hscale : scaleFor? st.graph r.scale = some scale) :
    ∃ new, tweenRule (ruleExpr st b key r scale) r.offset = .object new ∧ Interpolates st b key rule new := by
  obtain ⟨_, ⟨⟩, hfield, hname, hband, hoffset⟩ := refOf?_eq_some.mp hr
  have hscaled (c : Scale) (hc : scale = some c) : c.name = r.scale := by
    obtain ⟨-, rfl⟩ | ⟨-, c', hc', -, rfl⟩ := scaleFor?_eq_some.mp hscale
    · cases hc
    · exact Option.some.inj hc ▸ name_of_scale? hc'
  obtain ⟨new, hnew, hsignal, hset, honly⟩ := get?_tweenRule (ruleExpr st b key r scale) r.offset
  rw [hname] at hscale
  refine ⟨new, hnew, ⟨_, _, _, hfield, ?_, expression_ruleExpr hscaled hband, hsignal⟩, ?_, honly⟩
  · exact (scaleFor?_rule.mp hscale).imp_right (And.imp_right Eq.symm)
  · rw [hset, filter_isSome_eq, hoffset]

/-! ## Channels -/

theorem tweened_of_tweenChannel? (h : tweenChannel? st b key v = some w) : Tweened st b key v w := by
  obtain ⟨r, scale, hr, hscale, rfl⟩ := tweenChannel?_eq_some.mp h
  obtain ⟨rule, hrule, hv⟩ := replaceDefault_cases hr (tweenRule (ruleExpr st b key r scale) r.offset)
  obtain ⟨new, hnew, hinterpolates⟩ := interpolates_tweenRule b key hrule hscale
  obtain ⟨rfl, hw⟩ | ⟨rules, rfl, hw⟩ := hv
  · rw [hw, hnew]
    exact .value hinterpolates
  · rw [hw, hnew]
    exact .rules hinterpolates

theorem exists_tweenChannel? (st : Stage) (b : Binding) (key : String) (v : Value) :
    (∃ w, tweenChannel? st b key v = some w) ↔ Tweenable st.graph v ∨ TweenedBare v := by
  have hchosen {rule : Dict Value} {field : String} {scale : Option Scale} (hrule : ruleOf? v = some (.object rule))
      (hfield : FieldBound rule field) (h : Through st.graph rule scale ∨ Computed rule ∧ none = scale) :
      ∃ w, tweenChannel? st b key v = some w := by
    have hr : FieldRef.ofValue? v = some ⟨field, ((get? rule "scale").bind Value.text?).getD "",
        (get? rule "band").getD .null, (get? rule "offset").getD .null⟩ := by
      rw [ofValue?_eq, hrule]
      exact refOf?_eq_some.mpr ⟨rule, rfl, hfield, rfl, rfl, rfl⟩
    exact ⟨_, tweenChannel?_eq_some.mpr ⟨_, scale, hr, scaleFor?_rule.mpr h, rfl⟩⟩
  constructor
  · rintro ⟨w, h⟩
    obtain ⟨r, scale, hr, hscale, -⟩ := tweenChannel?_eq_some.mp h
    rw [ofValue?_eq] at hr
    obtain ⟨_, hrule, hr⟩ := Option.bind_eq_some_iff.mp hr
    obtain ⟨rule, rfl, hfield, hname, -⟩ := refOf?_eq_some.mp hr
    rw [hname] at hscale
    exact (scaleFor?_rule.mp hscale).imp (⟨rule, _, scale, hrule, hfield, ·⟩) (⟨rule, _, hrule, hfield, ·.1⟩)
  · rintro (⟨rule, field, scale, hrule, hfield, h⟩ | ⟨rule, field, hrule, hfield, h⟩)
    · exact hchosen hrule hfield (.inl h)
    · exact hchosen hrule hfield (.inr ⟨h, rfl⟩)

theorem ne_of_tweened (h : Tweened st b key v w) : w ≠ v := by
  have hfield {rule new : Dict Value} (h : Interpolates st b key rule new) : new ≠ rule := by
    rintro rfl
    obtain ⟨field, scale, expr, ⟨hfield, -⟩, -⟩ := h.signal
    have hnone := h.only "field" (by decide) (by decide)
    rw [hfield] at hnone
    cases hnone
  cases h with
  | value h => exact fun heq => hfield h (Value.object.inj heq)
  | rules h =>
    intro heq
    have hlast := List.append_cancel_left (Value.array.inj heq)
    exact hfield h (Value.object.inj (List.singleton_inj.mp hlast))

theorem interpolated_channel (st : Stage) (b : Binding) (key : String) (e : String × Value) :
    Interpolated st b key e (e.1, (tweenChannel? st b key e.2).getD e.2) := by
  have hchosen := exists_tweenChannel? st b key e.2
  cases htween : tweenChannel? st b key e.2 with
  | none =>
    rw [htween] at hchosen
    have hnot : ¬(Tweenable st.graph e.2 ∨ TweenedBare e.2) := by
      rw [← hchosen]
      simp
    exact ⟨rfl, iff_of_false (fun h => h rfl) hnot, fun h => absurd rfl h⟩
  | some w =>
    have htweened := tweened_of_tweenChannel? htween
    exact ⟨rfl, iff_of_true (ne_of_tweened htweened) (hchosen.mp ⟨w, htween⟩), fun _ => htweened⟩

theorem interpolated_tweenBlock (st : Stage) (b : Binding) (key : String) (block : Dict Value) :
    List.Forall₂ (Interpolated st b key) block (tweenBlock st b key block) :=
  List.forall₂_map_right_iff.mpr (List.forall₂_same.mpr fun e _ => interpolated_channel st b key e)

/-- For a unit with a key, one mark changes, and in it the channels of the update block that are drawn from a field,
unscaled or through a scale with values in between, and those through a computed scale. -/
theorem interpolate_confined (st : Stage) (u : ScopedUnit) (b : Binding) (key : String) (hkey : b.key = some key) :
    (st.graph.unitMark? u.path = none → interpolate st u b = {})
      ∧ ∀ m, st.graph.unitMark? u.path = some m → ∃ x x' block, x ∈ st.graph.marks
          ∧ interpolate st u b = { marks := [x'] }
          ∧ Mark.Replaces m.primary (m.primary.withBlock "update" block) x x'
          ∧ List.Forall₂ (Interpolated st b key) (m.primary.block "update") block := by
  rw [interpolate, hkey]
  dsimp only
  obtain ⟨hnone, hpart⟩ | ⟨m', x, x', hm', hx, hreplaces, hpart⟩ := st.graph.editUnitMark_cases u.path
    (Mark.mapPrimary fun p => p.withBlock "update" (tweenBlock st b key (p.block "update")))
  · refine ⟨fun _ => hpart, fun m hm => ?_⟩
    rw [hnone] at hm
    cases hm
  · refine ⟨fun hnone => ?_, fun m hm => ?_⟩
    · rw [hnone] at hm'
      cases hm'
    · obtain rfl := Option.some.inj (hm'.symm.trans hm)
      exact ⟨x, x', tweenBlock st b key (m'.primary.block "update"), hx, hpart,
        hreplaces.trans (Mark.replaces_mapPrimary
          (fun p => p.withBlock "update" (tweenBlock st b key (p.block "update"))) m'),
        interpolated_tweenBlock st b key _⟩

/-- Bars with a colour for each kind, a position within a band unless they are hidden, and a height through whichever
scale a signal names. -/
def yearlyBars (fill x y : Value) : Mark :=
  ⟨"marks", "rect", none, .null, [("update", .object [("fill", fill), ("x", x), ("y", y)])], [], [], [], [], []⟩

def kindColor : Value := .object [("field", .string "kind"), ("scale", .string "color")]

def bandStart : Value := .array [.object [("signal", .string "0"), ("test", .string "datum.hidden")],
  .object [("band", .bool true), ("field", .string "a"), ("scale", .string "x")]]

def signalledHeight : Value := .object [("field", .string "b"), ("scale", .object [("signal", .string "axis")])]

def yearlyStage : Stage where
  scope := { id := .root, time := { field := "year" }, selections := [], units := [] }
  graph := { scales := [{ name := "x", type := "band" }, { name := "color", type := "ordinal" }],
             marks := [yearlyBars kindColor bandStart signalledHeight] }
  data := "rows"

def rowsById : Binding := { source := "rows", stem := "rows", key := some "id", spans := false }

/-- The colour is left as it is, and the height is tweened although its scale has no name. -/
theorem interpolate_yearlyBars : ∃ bars x y, interpolate yearlyStage default rowsById = { marks := [bars] }
    ∧ (yearlyBars kindColor bandStart signalledHeight).Replaces (yearlyBars kindColor x y)
        (yearlyBars kindColor bandStart signalledHeight) bars
    ∧ Tweened yearlyStage rowsById "id" bandStart x ∧ Tweened yearlyStage rowsById "id" signalledHeight y := by
  obtain ⟨-, hmark⟩ := interpolate_confined yearlyStage default rowsById "id" rfl
  obtain ⟨bars, bars', block, hbars, hpart, hreplaces, hblock⟩ := hmark _ rfl
  obtain rfl := List.mem_singleton.mp hbars
  cases hblock with | @cons _ fill _ _ hfill hblock =>
  cases hblock with | @cons _ x _ _ hx hblock =>
  cases hblock with | @cons _ y _ _ hy hblock =>
  cases hblock
  obtain ⟨_, fill⟩ := fill
  obtain ⟨_, x⟩ := x
  obtain ⟨_, y⟩ := y
  obtain ⟨rfl, hfill, -⟩ := hfill
  obtain ⟨rfl, hx, htweened⟩ := hx
  obtain ⟨rfl, hy, htweened'⟩ := hy
  have hdiscrete : ¬(Tweenable yearlyStage.graph kindColor ∨ TweenedBare kindColor) := by
    rintro (⟨_, _, _, ⟨⟩, -, ⟨h⟩ | ⟨⟨⟩, -, ⟨⟩, hrange⟩⟩ | ⟨_, _, ⟨⟩, -, _, ⟨⟩, -, htext⟩)
    · simpa using h _ rfl
    · cases hrange
    · cases htext
  obtain rfl : fill = kindColor := Classical.not_not.mp (mt hfill.mp hdiscrete)
  have hband : Tweenable yearlyStage.graph bandStart :=
    ⟨_, "a", _, rfl, ⟨rfl, by decide⟩, .scaled rfl (by decide) rfl rfl⟩
  have hcomputed : TweenedBare signalledHeight := ⟨_, "b", rfl, ⟨rfl, by decide⟩, _, rfl, by simp, rfl⟩
  exact ⟨bars', x, y, hpart, hreplaces, htweened (hx.mpr (.inl hband)), htweened' (hy.mpr (.inr hcomputed))⟩

end AnimatedChart.Animation
