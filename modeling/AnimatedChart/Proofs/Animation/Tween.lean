import AnimatedChart.Proofs.Animation.Rescale

/-!
# Tweened marks

The expression of a tweened channel refers to the clock, to the channel's scale, to the scale's twin if the scale is
rescaled, and to the continuity dataset if comparisons span keyframes.
-/

open List

namespace AnimatedChart.Animation

open Json Spec Dependency

variable {S allowed : Ref → Prop} {st : Stage} {b : Binding} {u : ScopedUnit} {key : String} {r : FieldRef}
  {v w : Value}
variable {c : String × Value} {expr name : String} {g : Graph} {m : Mark} {scale : Option Scale}

theorem Opening.lerp {x y t : String} (hx : Operand S x) (hy : Operand S y) (ht : Operand S t) :
    Opening S (lerp x y t) :=
  .call (by simp) (by simpa using ⟨(Opening.listExpr (by simp) (by simpa using ⟨hx, hy⟩)).toOperand, ht⟩)

structure ChannelReads (S : Ref → Prop) (st : Stage) (b : Binding) (r : FieldRef) (scale : Option Scale) : Prop
    extends ClockOperands S st.scope where
  own : ∀ c, scale = some c → S ⟨.scale, r.scale⟩
  twin : ∀ c, scale = some c → st.scope.time.rescales = true → isRescalable c b = true → S ⟨.scale, twinName r.scale⟩
  continuity : b.spans = true → S ⟨.data, b.continuity⟩

theorem operand_tweenExprs (v : ChannelReads S st b r scale) (key : String) :
    Operand S (tweenExprs st b key r scale).1 ∧ Operand S (tweenExprs st b key r scale).2 := by
  have hown := Operand.access S r.field
  have hmatched := Operand.accessNext S r.field
  have hthrough {e : String} (he : Operand S e) : Operand S (if scale.isSome then scaleCall r.scale e else e) := by
    split
    · next h =>
      obtain ⟨c, hc⟩ := Option.isSome_iff_exists.mp h
      exact (Opening.scaleCall (v.own c hc) he).toOperand
    · exact he
  unfold tweenExprs
  dsimp only
  refine ⟨?_, hthrough hown⟩
  split
  · next hspans =>
    have hvalues : Opening S (call "fieldvaluesforkey"
        [stringLiteral b.continuity, stringLiteral r.field, stringLiteral key, access "datum" key]) := by
      refine .callOn (k := .data) (v.continuity hspans) ?_
      simpa using ⟨(Opening.stringLiteral S r.field).toOperand, (Opening.stringLiteral S key).toOperand,
        Operand.access S key⟩
    have hpart : Operand S (st.scope.eased ++ " / " ++ st.scope.maxRange) :=
      (v.eased.joint .fixed).operand v.maxRange
    exact hthrough (Opening.call (by simp) (by simpa using ⟨hvalues.toOperand, hpart⟩)).toOperand
  · cases hscale : scale with
    | none => exact (Opening.lerp hown hmatched v.tween).toOperand
    | some c =>
      have hown' := (Opening.scaleCall (v.own c hscale) hown).toOperand
      dsimp only
      split
      · exact (Opening.scaleCall (v.own c hscale) (Opening.lerp hown hmatched v.tween).toOperand).toOperand
      · split
        · next htwin =>
          rw [Bool.and_eq_true] at htwin
          have hdestination := Opening.scaleCall (v.twin c hscale htwin.1 htwin.2) hmatched
          exact (Opening.lerp hown' hdestination.toOperand v.tween).toOperand
        · exact (Opening.lerp hown' (Opening.scaleCall (v.own c hscale) hmatched).toOperand v.tween).toOperand

def channelExpr (st : Stage) (b : Binding) (key : String) (r : FieldRef) (scale : Option Scale) : String :=
  s!"isValid(datum.next) ? {(tweenExprs st b key r scale).1} : {(tweenExprs st b key r scale).2}"

theorem operand_channelExpr (v : ChannelReads S st b r scale) (key : String) :
    Operand S (channelExpr st b key r scale) := by
  obtain ⟨htweened, hown⟩ := operand_tweenExprs v key
  exact (((Opening.fixed).operand htweened).joint .fixed).operand hown

/-! ## Channels -/

def ruleOf? : Value → Option Value
  | .array rules => rules.getLast?
  | v => some v

def refOf? (rule : Value) : Option FieldRef := do
  let members ← rule.members?
  let field ← (Dict.get? members "field").bind Value.text?
  if field.isEmpty then none
  else some {
    field
    scale := ((Dict.get? members "scale").bind Value.text?).getD ""
    band := (Dict.get? members "band").getD .null
    offset := (Dict.get? members "offset").getD .null }

theorem ofValue?_eq (v : Value) : FieldRef.ofValue? v = (ruleOf? v).bind refOf? := by cases v <;> rfl

def FieldBound (rule : Dict Value) (field : String) : Prop :=
  Dict.get? rule "field" = some (.string field) ∧ field ≠ ""

theorem refOf?_eq_some {rule : Value} : refOf? rule = some r ↔ ∃ ms, rule = .object ms ∧ FieldBound ms r.field
    ∧ r.scale = ((Dict.get? ms "scale").bind Value.text?).getD "" ∧ r.band = (Dict.get? ms "band").getD .null
    ∧ r.offset = (Dict.get? ms "offset").getD .null := by
  have htext {x : Option Value} {n : String} : x.bind Value.text? = some n ↔ x = some (.string n) := by
    rcases x with _ | v
    · simp
    · cases v <;> simp [Value.text?]
  obtain ⟨field, scale, band, offset⟩ := r
  cases rule with
  | object ms =>
    simp only [refOf?, Value.members?, Option.bind_eq_bind, Option.bind_some, Option.bind_eq_some_iff, htext]
    constructor
    · rintro ⟨_, hfield, h⟩
      split at h
      · cases h
      · next hne =>
        obtain ⟨⟩ := Option.some.inj h
        exact ⟨ms, rfl, ⟨hfield, by simpa using hne⟩, rfl, rfl, rfl⟩
    · rintro ⟨_, ⟨⟩, ⟨hfield, hne⟩, rfl, rfl, rfl⟩
      exact ⟨field, hfield, if_neg (by simpa using hne)⟩
  | _ => simp [refOf?, Value.members?]

def tweenRule (expr : String) (offset : Value) : Value :=
  .ofPairs ([("signal", .string expr)] ++ if offset.isSome then [("offset", offset)] else [])

/-- What a channel is drawn through by the name of its scale: nothing, or a scale with values in between. -/
def scaleFor? (g : Graph) (n : String) : Option (Option Scale) :=
  if n.isEmpty then some none else ((g.scale? n).filter fun c => !c.hasDiscreteRange).map some

theorem scaleFor?_eq_some {n : String} : scaleFor? g n = some scale ↔
    n = "" ∧ none = scale ∨ n ≠ "" ∧ ∃ c, g.scale? n = some c ∧ c.hasDiscreteRange = false ∧ some c = scale := by
  unfold scaleFor?
  split
  · next h =>
    obtain rfl : n = "" := by simpa using h
    simp
  · next h =>
    have hn : n ≠ "" := by simpa using h
    simp [hn, Option.filter_eq_some_iff, and_assoc]

/-- The expression of a channel, moved into the band that the rule asks for. -/
def ruleExpr (st : Stage) (b : Binding) (key : String) (r : FieldRef) (scale : Option Scale) : String :=
  if scale.map (·.type) == some "band" && r.band.isSome then
    s!"({channelExpr st b key r scale}) + bandwidth({stringLiteral r.scale}) * {valueLiteral r.band}"
  else channelExpr st b key r scale

theorem tweenChannel?_eq_some : tweenChannel? st b key v = some w ↔ ∃ r scale, FieldRef.ofValue? v = some r
    ∧ scaleFor? st.graph r.scale = some scale
    ∧ replaceDefault v (tweenRule (ruleExpr st b key r scale) r.offset) = w := by
  have heq : tweenChannel? st b key v = (FieldRef.ofValue? v).bind fun r => (scaleFor? st.graph r.scale).bind fun scale =>
      some (replaceDefault v (tweenRule (ruleExpr st b key r scale) r.offset)) := by
    cases hr : FieldRef.ofValue? v with
    | none => simp only [tweenChannel?, hr, Option.bind_eq_bind, Option.bind_none]
    | some r =>
      simp only [tweenChannel?, hr, scaleFor?, Option.bind_eq_bind, Option.bind_some]
      split <;> rfl
  simp only [heq, Option.bind_eq_some_iff, Option.some.injEq, exists_and_left]

theorem get?_field_tweenRule (expr : String) (offset : Value) : refOf? (tweenRule expr offset) = none := by
  have hfield : Dict.get? (Dict.ofPairs
      ([("signal", Value.string expr)] ++ if offset.isSome then [("offset", offset)] else [])) "field" = none := by
    split <;> simp [Dict.ofPairs, Dict.putAll, Dict.get?_put] <;> rfl
  rw [refOf?, tweenRule, Value.ofPairs, Value.members?]
  simp only [Option.bind_eq_bind, Option.bind_some, hfield, Option.bind_none]

theorem replaceDefault_cases (h : FieldRef.ofValue? v = some r) (new : Value) : ∃ ms, refOf? (.object ms) = some r ∧
      (v = .object ms ∧ replaceDefault v new = new ∨
        ∃ rules, v = .array (rules ++ [.object ms]) ∧ replaceDefault v new = .array (rules ++ [new])) := by
  rw [ofValue?_eq] at h
  obtain ⟨rule, hrule, h⟩ := Option.bind_eq_some_iff.mp h
  obtain ⟨ms, rfl, -⟩ := refOf?_eq_some.mp h
  refine ⟨ms, h, ?_⟩
  cases v with
  | array rules =>
    obtain ⟨rules, rfl⟩ := getLast?_eq_some_iff.mp hrule
    refine .inr ⟨rules, rfl, ?_⟩
    cases rules with
    | nil => rfl
    | cons rule rules =>
      show Value.array ((rule :: rules ++ [Value.object ms]).dropLast ++ [new]) = _
      rw [dropLast_concat]
  | object ms' => exact .inl ⟨Option.some.inj hrule, rfl⟩
  | _ => cases Option.some.inj hrule

theorem ofValue?_tweened (h : FieldRef.ofValue? v = some r) (expr : String) :
    FieldRef.ofValue? (replaceDefault v (tweenRule expr r.offset)) = none := by
  rw [ofValue?_eq]
  obtain ⟨ms, -, ⟨-, hnew⟩ | ⟨rules, -, hnew⟩⟩ := replaceDefault_cases h (tweenRule expr r.offset)
  · rw [hnew]
    exact get?_field_tweenRule expr r.offset
  · rw [hnew, ruleOf?, getLast?_concat]
    exact get?_field_tweenRule expr r.offset

theorem mem_valueRefs_tweenRule {ms : Dict Value} (h : refOf? (.object ms) = some r) {x : Ref}
    (hx : x ∈ valueRefs (tweenRule expr r.offset)) : x ∈ memberRefs ms ∨ x ∈ references expr := by
  obtain ⟨_, ⟨⟩, -, -, -, hoffset⟩ := refOf?_eq_some.mp h
  obtain ⟨p, hp, hx⟩ := mem_valueRefs_ofPairs hx
  rcases mem_append.mp hp with hp | hp
  · obtain rfl := mem_singleton.mp hp
    exact .inr hx
  · split at hp
    · next hsome =>
      obtain rfl := mem_singleton.mp hp
      cases hget : Dict.get? ms "offset" with
      | none =>
        rw [hoffset, hget] at hsome
        cases hsome
      | some o =>
        rw [hoffset, hget] at hx
        exact .inl (mem_memberRefs.mpr ⟨_, Dict.mem_of_get? hget, hx⟩)
    · cases hp

theorem mem_keyRefs_tweened (h : FieldRef.ofValue? v = some r) {k : String} {x : Ref}
    (hx : x ∈ keyRefs k (replaceDefault v (tweenRule expr r.offset))) : x ∈ keyRefs k v ∨ x ∈ references expr := by
  have hobject (ms : Dict Value) : keyRefs k (.object ms) = if k = "values" then [] else memberRefs ms := rfl
  have harray (vs : List Value) : keyRefs k (.array vs) = if k = "values" then [] else itemRefs vs := rfl
  obtain ⟨ms, hr, ⟨rfl, hnew⟩ | ⟨rules, rfl, hnew⟩⟩ := replaceDefault_cases h (tweenRule expr r.offset)
  · rw [hnew, tweenRule, Value.ofPairs, hobject] at hx
    rw [hobject]
    split at hx
    · cases hx
    · next hk =>
      rw [if_neg hk]
      exact mem_valueRefs_tweenRule hr hx
  · rw [hnew, harray] at hx
    rw [harray]
    split at hx
    · cases hx
    · next hk =>
      rw [if_neg hk]
      obtain ⟨y, hy, hx⟩ := mem_itemRefs.mp hx
      rcases mem_append.mp hy with hy | hy
      · exact .inl (mem_itemRefs.mpr ⟨y, mem_append_left _ hy, hx⟩)
      · obtain rfl := mem_singleton.mp hy
        exact (mem_valueRefs_tweenRule hr hx).imp_left fun hx =>
          mem_itemRefs.mpr ⟨.object ms, mem_append_right _ (mem_singleton.mpr rfl), hx⟩

/-! ## Marks -/

theorem block_withBlock (name : String) (members : Dict Value) (m : Mark) :
    (m.withBlock name members).block name = members := by
  rw [Mark.block, Mark.withBlock, Dict.get?_put, if_pos rfl]
  rfl

theorem memberRefs_block {x : Ref} (h : x ∈ memberRefs (m.block name)) : ∃ e ∈ m.encode, x ∈ valueRefs e.2 := by
  unfold Mark.block at h
  cases hget : Dict.get? m.encode name with
  | none => simp [hget, memberRefs] at h
  | some block =>
    rw [hget] at h
    cases block with
    | object ms => exact ⟨_, Dict.mem_of_get? hget, h⟩
    | _ => cases h

theorem edited_withBlock {members : Dict Value} (h : ∀ x ∈ memberRefs members, x ∈ memberRefs (m.block name) ∨ S x) :
    Edited S m (m.withBlock name members) := by
  have hblock {x : Ref} (hx : x ∈ (m.withBlock name members).encode.flatMap fun e => valueRefs e.2) :
      x ∈ m.encode.flatMap (fun e => valueRefs e.2) ∨ S x := by
    obtain ⟨e, he, hx⟩ := mem_flatMap.mp hx
    rcases Dict.mem_of_mem_put he with rfl | he
    · exact (h x hx).imp_left fun hx => mem_flatMap.mpr (memberRefs_block hx)
    · exact .inl (mem_flatMap.mpr ⟨e, he, hx⟩)
  obtain ⟨mname, type, source, clip, encode, data, signals, scales, marks, others⟩ := m
  refine ⟨rfl, fun _ hr => hr, fun x hx => ?_⟩
  simp only [Mark.withBlock, markRefs, mem_append] at hx hblock ⊢
  rcases hx with ((hx | hx | hx) | hx) | hx
  · exact .inl (.inl (.inl (.inl hx)))
  · exact (hblock hx).imp_left fun hx => .inl (.inl (.inr (.inl hx)))
  · exact .inl (.inl (.inl (.inr (.inr hx))))
  · exact .inl (.inl (.inr hx))
  · exact .inl (.inr hx)

def BlockReads (S : Ref → Prop) (st : Stage) (b : Binding) (m : Mark) : Prop :=
  ∀ c ∈ m.block "update", ∀ r, FieldRef.ofValue? c.2 = some r → ∀ scale, scaleFor? st.graph r.scale = some scale →
    ChannelReads S st b r scale

theorem mem_tweenBlock {block : Dict Value} (h : c ∈ tweenBlock st b key block) :
    ∃ v, (c.1, v) ∈ block ∧ (c.2 = v ∨ tweenChannel? st b key v = some c.2) := by
  obtain ⟨e, he, rfl⟩ := mem_map.mp h
  refine ⟨e.2, he, ?_⟩
  dsimp only
  cases tweenChannel? st b key e.2 with
  | none => exact .inl rfl
  | some w => exact .inr rfl

theorem edited_tween (hm : Traceable m) (h : BlockReads S st b m) (key : String) :
    Edited S m (m.withBlock "update" (tweenBlock st b key (m.block "update"))) := by
  refine edited_withBlock fun x hx => ?_
  obtain ⟨c, hc, hx⟩ := mem_memberRefs.mp hx
  obtain ⟨v, hv, heq | htween⟩ := mem_tweenBlock hc
  · rw [heq] at hx
    exact .inl (mem_memberRefs.mpr ⟨_, hv, hx⟩)
  · obtain ⟨r, scale, hr, hscale, hw⟩ := tweenChannel?_eq_some.mp htween
    rw [← hw] at hx
    rcases mem_keyRefs_tweened hr hx with hx | hx
    · exact .inl (mem_memberRefs.mpr ⟨_, hv, hx⟩)
    · rw [ruleExpr, (hm.refs _ hv r hr).unbanded, Value.isSome, Bool.and_false, if_neg (by decide)] at hx
      exact .inr ((operand_channelExpr (h _ hv r hr scale hscale) key).only x hx)

theorem traceable_tween (hm : Traceable m) (key : String) :
    Traceable (m.withBlock "update" (tweenBlock st b key (m.block "update"))) where
  dataset := hm.dataset
  refs := by
    rw [block_withBlock]
    intro c hc r hr
    obtain ⟨v, hv, heq | htween⟩ := mem_tweenBlock hc
    · exact hm.refs _ hv r (heq ▸ hr)
    · obtain ⟨r', scale, hr', -, hw⟩ := tweenChannel?_eq_some.mp htween
      rw [← hw, ofValue?_tweened hr'] at hr
      cases hr

theorem mem_channelScales (hc : c ∈ m.primary.block "update") (hr : FieldRef.ofValue? c.2 = some r) (hne : r.scale ≠ "") :
    r.scale ∈ channelScales m := by
  refine mem_eraseDups.mpr (mem_filterMap.mpr ⟨c, hc, ?_⟩)
  rw [hr]
  simp [hne]

theorem Bound.next_ne (h : Bound g b) : b.next ≠ b.source ∧ b.next ≠ b.curr := by
  constructor
  · obtain ⟨tail, htail⟩ := h.stem
    intro heq
    have hlength := congrArg String.length heq
    rw [Binding.next, htail, String.length_append, String.length_append,
      show "_next".length = 5 by decide] at hlength
    omega
  · intro heq
    have hlist := congrArg String.toList heq
    rw [Binding.next, Binding.curr, String.toList_append, String.toList_append] at hlist
    exact absurd (append_cancel_left hlist) (by decide)

theorem Ready.interpolate {i : Nat} (h : Ready allowed st i) (hfield : isIdentifier st.scope.field = true)
    (hid : st.scope.id.IsSpelled) (hb : Bound st.graph b)
    (htwins : st.scope.time.rescales = true → ∀ m, st.graph.unitMark? u.path = some m → ∀ n ∈ channelScales m,
      n ≠ "" → ∀ c, st.graph.scale? n = some c → isRescalable c b = true → ⟨.scale, twinName n⟩ ∈ defined st.graph) :
    Ready allowed (st.merge (interpolate st u b)) i := by
  unfold Animation.interpolate
  cases hkey : b.key with
  | none => exact h.merge_empty
  | some key =>
    let tween (p : Mark) : Mark := p.withBlock "update" (tweenBlock st b key (p.block "update"))
    let g := st.graph.merge (st.graph.editUnitMark u.path (Mark.mapPrimary tween))
    have hkeep : Grows (fun _ => True) st.graph g := .editUnitMark h.drawn.toApart fun m _ =>
      (edited_withBlock fun _ _ => .inr trivial).around (Mark.replaces_mapPrimary tween m)
    have hknown {r : Ref} (hr : r ∈ defined st.graph) : Resolves allowed g r := .inr (.inr (.inr (hkeep.defined r hr)))
    have htraceable {m : Mark} (hm : st.graph.unitMark? u.path = some m) : Mark.All Traceable m :=
      Graph.all_unitMark? h.drawn.all hm
    have hreads (m : Mark) (hm : st.graph.unitMark? u.path = some m) :
        BlockReads (Resolves allowed g) st b m.primary := by
      intro c hc r hr scale hscale
      have hfound (s : Scale) (hs : scale = some s) : r.scale ≠ "" ∧ st.graph.scale? r.scale = some s := by
        obtain ⟨-, rfl⟩ | ⟨hne, s', hs', -, rfl⟩ := scaleFor?_eq_some.mp hscale
        · cases hs
        · exact ⟨hne, hs ▸ hs'⟩
      refine { toClockOperands := h.operands hfield hid hkeep, own := ?_, twin := ?_, continuity := ?_ }
      · intro c hc
        obtain ⟨-, hc⟩ := hfound c hc
        exact hknown (defined_scale (mem_map.mpr ⟨c, mem_of_find?_eq_some hc, name_of_scale? hc⟩))
      · intro s hs hrescales hrescalable
        obtain ⟨hne, hs⟩ := hfound s hs
        exact hknown (htwins hrescales m hm _ (mem_channelScales hc hr hne) hne s hs hrescalable)
      · intro hspans
        exact hknown (hb.names _ (by simp [Binding.names, hb.keyed hspans, hspans]))
    refine h.grows (.editUnitMark h.drawn.toApart fun m hm => ?_) (h.drawn.editUnitMark flat_traceable fun m hm => ?_)
    · exact (edited_tween (Mark.all_iff.mp (Mark.all_primary (htraceable hm))).1 (hreads m hm) key).around
        (Mark.replaces_mapPrimary tween m)
    · refine ⟨(Mark.replaces_mapPrimary tween m).name_eq rfl, fun hall => ?_⟩
      refine (Mark.replaces_mapPrimary tween m).all flat_traceable (fun hp => ?_) hall
      rw [Mark.all_iff] at hp ⊢
      exact ⟨traceable_tween hp.1 key, hp.2⟩

end AnimatedChart.Animation
