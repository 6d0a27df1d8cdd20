import Mathlib.Data.List.Nodup
import Mathlib.Data.List.Perm.Subperm
import AnimatedChart.Lowering.Basic
import AnimatedChart.Proofs.Dict

/-!
# Order in lowering

Two properties of different names change different parts of a scale, apart from a range and a scheme, which both set the
range (`perm_ofChannel_iff`).
-/

open List

namespace AnimatedChart.Lowering

open Json Spec

namespace ScalePlan

variable {k l : String} {v w : Value}

end ScalePlan

/-! ## Channels of marks -/

/-- Every order visits each channel once. -/
def Visit.Permutes (visit : Visit) : Prop := ∀ path channels, visit path channels ~ channels

/-- The channels name at most one aggregate. -/
def MarkPlan.Uniform (m : MarkPlan) : Prop :=
  ∀ x ∈ m.channels, ∀ y ∈ m.channels, x.2.aggregate ≠ "" → y.2.aggregate ≠ "" → x.2.aggregate = y.2.aggregate

/-- The mark of a unit in the view, which takes over channels. -/
inductive Plans : Dict Fragment → View → MarkPlan → Prop
  | unit (channels : Dict Fragment) (u : Spec.Unit) : Plans channels (.unit u)
      (.ofFragments u.markType (Dict.putAll channels ((u.encoding.map (·.channels)).getD [])))
  | layer {channels : Dict Fragment} {l : Layer} {children : List View} {v : View} {m : MarkPlan} (hv : v ∈ children)
      (h : Plans (Dict.putAll channels ((l.encoding.map (·.channels)).getD [])) v m) :
      Plans channels (.layer l children) m

section

variable {α β : Type} {same : Prop} {x y : Lower α} {f f' : α → Lower β}

/-- Two steps do the same, or fail both and not in the same way. -/
def Agrees (same : Prop) (x y : Lower α) : Prop :=
  ∀ s, x.run s = y.run s ∨ ¬same ∧ ∃ e e', x.run s = .error e ∧ y.run s = .error e'

theorem Agrees.refl (x : Lower α) : Agrees same x x := fun _ => .inl rfl

theorem Agrees.bind (h : Agrees same x y) (hf : ∀ a, Agrees same (f a) (f' a)) : Agrees same (x >>= f) (y >>= f') := by
  intro s
  rw [StateT.run_bind, StateT.run_bind]
  rcases h s with heq | ⟨hnot, e, e', hx, hy⟩
  · rw [heq]
    cases y.run s with
    | error e => exact .inl rfl
    | ok r => exact hf r.1 r.2
  · rw [hx, hy]
    exact .inr ⟨hnot, e, e', rfl, rfl⟩

theorem Agrees.within (h : Agrees same x y) (context : String) : Agrees same (x.within context) (y.within context) := by
  intro s
  show (x.run s).mapError _ = (y.run s).mapError _ ∨ ¬same ∧ ∃ e e',
    (x.run s).mapError _ = .error e ∧ (y.run s).mapError _ = .error e'
  rcases h s with heq | ⟨hnot, e, e', hx, hy⟩
  · exact .inl (by rw [heq])
  · rw [hx, hy]
    exact .inr ⟨hnot, _, _, rfl, rfl⟩

end

variable {same : Prop} {visit visit' : Visit}

theorem agrees_drawMark (hvisit : visit.Permutes) (hvisit' : visit'.Permutes) {m : MarkPlan} (hm : same → m.Uniform)
    (p : Place) (projection : Option Fragment) (data : String) :
    Agrees same (drawMark visit m p projection data) (drawMark visit' m p projection data) := by
  unfold drawMark
  split
  · exact .refl _
  · next primitive hprimitive =>
    have hsub : ∀ x ∈ visit p.path m.channels, x ∈ visit' p.path m.channels := fun x hx =>
      (hvisit' p.path m.channels).mem_iff.mpr ((hvisit p.path m.channels).mem_iff.mp hx)
    have hsub' : ∀ x ∈ visit' p.path m.channels, x ∈ visit p.path m.channels := fun x hx =>
      (hvisit p.path m.channels).mem_iff.mpr ((hvisit' p.path m.channels).mem_iff.mp hx)
    cases hfind : (visit p.path m.channels).find? (fun c => !c.2.aggregate.isEmpty) with
    | none =>
      have hfind' : (visit' p.path m.channels).find? (fun c => !c.2.aggregate.isEmpty) = none :=
        find?_eq_none.mpr fun x hx => find?_eq_none.mp hfind x (hsub' x hx)
      rw [hfind']
      exact .refl _
    | some x =>
      have hx := mem_of_find?_eq_some hfind
      obtain ⟨y, hfind'⟩ := Option.isSome_iff_exists.mp (find?_isSome.mpr ⟨x, hsub x hx, find?_some hfind⟩)
      have hy := mem_of_find?_eq_some hfind'
      rw [hfind']
      intro s
      by_cases hsame : same
      · have heq : x.2.aggregate = y.2.aggregate :=
          hm hsame x ((hvisit p.path m.channels).mem_iff.mp hx) y ((hvisit' p.path m.channels).mem_iff.mp hy)
            (by simpa using find?_some hfind) (by simpa using find?_some hfind')
        refine .inl ?_
        dsimp only
        rw [heq]
      · exact .inr ⟨hsame, _, _, rfl, rfl⟩

theorem agrees_lowerUnit (hvisit : visit.Permutes) (hvisit' : visit'.Permutes) {u : Spec.Unit} (c : Context)
    (hm : ∀ m, same → Plans c.channels (.unit u) m → m.Uniform) :
    Agrees same (lowerUnit u { c with visit }) (lowerUnit u { c with visit := visit' }) := by
  unfold lowerUnit
  split
  · exact .refl _
  · dsimp only
    split
    · exact .refl _
    · refine .bind (.refl _) fun src => .bind (.refl _) fun transforms => ?_
      have hrest (data : String) := (agrees_drawMark hvisit hvisit' (fun hsame => hm _ hsame (.unit c.channels u))
        c.place c.projection data).bind (f := fun mark => do
          lowerParams (.ofFragments u.markType (Dict.putAll c.channels ((u.encoding.map (·.channels)).getD []))) c.place
            (c.params ++ u.params)
          return [mark]) fun _ => .refl _
      split
      · exact .bind (.refl _) fun _ => .bind (.refl _) hrest
      · exact .bind (.refl _) hrest

mutual

theorem agrees_lowerView (hvisit : visit.Permutes) (hvisit' : visit'.Permutes) :
    ∀ (v : View) (c : Context), (∀ m, same → Plans c.channels v m → m.Uniform) →
      Agrees same (lowerView { c with visit } v) (lowerView { c with visit := visit' } v)
  | .unit u, c, hm => by
    rw [lowerView, lowerView]
    exact agrees_lowerUnit hvisit hvisit' (c.inherit u.others) hm
  | .layer l children, c, hm => by
    rw [lowerView, lowerView]
    exact agrees_lowerChildren hvisit hvisit' children (c.ofLayer l) l.params 0
      fun v hv m hsame h => hm m hsame (.layer hv h)

theorem agrees_lowerChildren (hvisit : visit.Permutes) (hvisit' : visit'.Permutes) :
    ∀ (vs : List View) (c : Context) (params : List Param) (i : Nat),
      (∀ v ∈ vs, ∀ m, same → Plans c.channels v m → m.Uniform) →
      Agrees same (lowerChildren { c with visit } params i vs) (lowerChildren { c with visit := visit' } params i vs)
  | [], _, _, _, _ => by
    rw [lowerChildren, lowerChildren]
    exact .refl _
  | v :: vs, c, params, i, hm => by
    obtain ⟨hv, hvs⟩ := forall_mem_cons.mp hm
    rw [lowerChildren, lowerChildren]
    have hview := agrees_lowerView hvisit hvisit' v
      { c with place := { c.place with path := s!"{c.place.path}layer_{i}_" }, params } hv
    have hrest := agrees_lowerChildren hvisit hvisit' vs c [] (i + 1) hvs
    exact (hview.within _).bind fun marks => hrest.bind fun rest => .refl _

end

end AnimatedChart.Lowering
