import AnimatedChart.Proofs.Paths
import AnimatedChart.Proofs.Elaboration
import Mathlib.Data.List.Flatten
import Mathlib.Data.List.Nodup

/-!
# Views at their places

`Chart.sites` lists the views of a chart, units and layers alike, each with the layers around it. What layers hand on to
their children holds at all places (`Chart.forall_sites`).
-/

open List

namespace AnimatedChart.Spec

variable {c : Chart}

def View.time : View → Option TimeEncoding
  | .unit u => u.time
  | .layer l _ => l.time

/-- A view at its place in a chart. -/
structure Site where
  id : ScopeId
  path : String
  /-- The layers around the view, each with its children, the outermost first. -/
  around : List (Layer × List View)
  inherited : Inherited
  view : View

mutual

def View.sites (id : ScopeId) (path : String) (around : List (Layer × List View)) (inh : Inherited) :
    View → List Site
  | .unit u => [⟨id, path, around, inh, .unit u⟩]
  | .layer l children =>
    ⟨id, path, around, inh, .layer l children⟩
      :: sitesAll id path (around ++ [(l, children)]) (inh.within l.others l.transforms) 0 children

def View.sitesAll (id : ScopeId) (path : String) (around : List (Layer × List View)) (inh : Inherited) :
    Nat → List View → List Site
  | _, [] => []
  | i, v :: vs => v.sites (id.child "layer" i) (childPath path i) around inh ++ sitesAll id path around inh (i + 1) vs

end

theorem View.sitesAll_eq (id : ScopeId) (path : String) (around : List (Layer × List View)) (inh : Inherited) (i : Nat)
    (vs : List View) : sitesAll id path around inh i vs
      = (vs.zipIdx i).flatMap fun x => x.1.sites (id.child "layer" x.2) (childPath path x.2) around inh := by
  induction vs generalizing i with
  | nil => rfl
  | cons v vs ih => rw [sitesAll, ih, zipIdx_cons, flatMap_cons]

def Chart.sites : Chart → List Site
  | .view v => v.sites .root "" [] {}
  | .vconcat us others => (us.getD []).mapIdx fun i u =>
    ⟨ScopeId.root.child "concat" i, concatPath i, [], ({} : Inherited).within others [], .unit u⟩

def Chart.site? (c : Chart) (id : ScopeId) : Option Site := c.sites.find? (·.id == id)

/-! ## The places in a view -/

namespace Site

def sites (s : Site) : List Site := s.view.sites s.id s.path s.around s.inherited

def child (s : Site) (l : Layer) (vs : List View) (i : Nat) (v : View) : Site :=
  ⟨s.id.child "layer" i, childPath s.path i, s.around ++ [(l, vs)], s.inherited.within l.others l.transforms, v⟩

def children (s : Site) : List Site :=
  match s.view with
  | .unit _ => []
  | .layer l vs => vs.zipIdx.map fun x => s.child l vs x.2 x.1

/-- The selections and the marked units of the view, as they are collected for a scope. -/
def collected (s : Site) : List Selection × List ScopedUnit := s.view.collect s.path s.inherited

def scopes (s : Site) : List Scope := s.view.scopes s.id s.path s.inherited

theorem sites_eq (s : Site) : s.sites = s :: s.children.flatMap sites := by
  obtain ⟨id, path, around, inh, v⟩ := s
  cases v with
  | unit u => rfl
  | layer l vs => rw [sites, View.sites, View.sitesAll_eq, children, flatMap_map]; rfl

variable {s t : Site} {l : Layer} {vs : List View}

theorem children_layer (h : s.view = .layer l vs) : s.children = vs.zipIdx.map fun x => s.child l vs x.2 x.1 := by
  rw [children, h]

theorem mem_children : t ∈ s.children ↔ ∃ l vs, ∃ i : Nat, ∃ v,
    s.view = .layer l vs ∧ vs[i]? = some v ∧ t = s.child l vs i v := by
  unfold children
  cases hview : s.view with
  | unit u => simp
  | layer l vs =>
    rw [mem_map]
    constructor
    · rintro ⟨⟨v, i⟩, hv, rfl⟩
      exact ⟨l, vs, i, v, rfl, mem_zipIdx_iff_getElem?.mp hv, rfl⟩
    · rintro ⟨_, _, i, v, ⟨⟩, hv, rfl⟩
      exact ⟨(v, i), mem_zipIdx_iff_getElem?.mpr hv, rfl⟩

theorem mem_sites : t ∈ s.sites ↔ t = s ∨ ∃ r ∈ s.children, t ∈ r.sites := by rw [sites_eq, mem_cons, mem_flatMap]

theorem self_mem_sites (s : Site) : s ∈ s.sites := mem_sites.mpr (Or.inl rfl)

theorem sites_child (h : t ∈ s.children) : t.sites ⊆ s.sites := fun _ hr => mem_sites.mpr (Or.inr ⟨t, h, hr⟩)

theorem collected_layer (h : s.view = .layer l vs) :
    s.collected = (l.selections ++ s.children.flatMap (·.collected.1), s.children.flatMap (·.collected.2)) := by
  rw [collected, children, h, View.collect, View.collectAll_eq, flatMap_map, flatMap_map]
  rfl

theorem scopes_layer (h : s.view = .layer l vs) :
    s.scopes = match l.time with
      | some t => [{ id := s.id, time := t, selections := s.collected.1, units := s.collected.2 }]
      | none => s.children.flatMap scopes := by
  rw [scopes, collected, children, h, View.scopes, View.scopesAll_eq, flatMap_map]
  rfl

variable {P : Site → Prop}

theorem induction (h : ∀ s, (∀ t ∈ s.children, P t) → P s) (s : Site) : P s := by
  obtain ⟨id, path, around, inh, v⟩ := s
  induction v generalizing id path around inh with
  | unit u => exact h _ nofun
  | layer l vs ih =>
    refine h _ fun t ht => ?_
    obtain ⟨_, _, i, v, ⟨⟩, hv, rfl⟩ := mem_children.mp ht
    exact ih v (mem_of_getElem? hv) _ _ _ _

def HandedOn (P : Site → Prop) : Prop :=
  ∀ s l vs (i : Nat) v, s.view = .layer l vs → vs[i]? = some v → P s → P (s.child l vs i v)

theorem forall_sites (hP : HandedOn P) (s : Site) : P s → ∀ t ∈ s.sites, P t := by
  induction s using induction with
  | h s ih =>
    intro h t ht
    rcases mem_sites.mp ht with rfl | ⟨r, hr, ht⟩
    · exact h
    · refine ih r hr ?_ t ht
      obtain ⟨l, vs, i, v, hview, hv, rfl⟩ := mem_children.mp hr
      exact hP s l vs i v hview hv h

theorem sites_subset (ht : t ∈ s.sites) : t.sites ⊆ s.sites := by
  refine forall_sites (P := fun t => t.sites ⊆ s.sites) ?_ s (List.Subset.refl _) t ht
  exact fun r l vs i v hview hv h => List.Subset.trans (sites_child (mem_children.mpr ⟨l, vs, i, v, hview, hv, rfl⟩)) h

theorem around_sites (ht : t ∈ s.sites) : ∃ more, t.around = s.around ++ more := by
  refine forall_sites (P := fun t => ∃ more, t.around = s.around ++ more) ?_ s ⟨[], (append_nil _).symm⟩ t ht
  rintro r l vs i v - - ⟨more, hmore⟩
  exact ⟨more ++ [(l, vs)], by rw [child, hmore, append_assoc]⟩

/-! ## Places are told apart -/

theorem path_sites (ht : t ∈ s.sites) : ∃ rest, t.path = s.path ++ rest := by
  have happend (path : String) (i : Nat) : childPath path i = path ++ childPath "" i := by
    rw [← String.toList_inj]
    simp only [String.toList_append, toList_childPath, String.toList_empty, nil_append]
  refine forall_sites (P := fun t => ∃ rest, t.path = s.path ++ rest) ?_ s ⟨"", by simp⟩ t ht
  rintro r l vs i v - - ⟨rest, hrest⟩
  exact ⟨rest ++ childPath "" i, by rw [child, happend, hrest, String.append_assoc]⟩

theorem nodup_sitePaths (s : Site) : (s.sites.map Site.path).Nodup := by
  induction s using induction with
  | h s ih =>
    rw [sites_eq, map_cons, map_flatMap, nodup_cons, nodup_flatMap]
    refine ⟨?_, ih, ?_⟩
    · -- Whatever is below the layer has a longer path.
      intro hmem
      obtain ⟨r, hr, hmem⟩ := mem_flatMap.mp hmem
      obtain ⟨t, ht, hpath⟩ := mem_map.mp hmem
      obtain ⟨rest, hrest⟩ := path_sites ht
      obtain ⟨l, vs, i, v, -, -, rfl⟩ := mem_children.mp hr
      have hlength := congrArg (fun p : String => p.toList.length) (hpath.symm.trans hrest)
      simp only [child, String.toList_append, toList_childPath, length_append] at hlength
      have : "layer_".toList.length = 6 := rfl
      omega
    · -- The paths of different children go through different numbers.
      unfold children
      cases s.view with
      | unit u => exact .nil
      | layer l vs =>
        have hnumbers : vs.zipIdx.Pairwise fun x y => x.2 < y.2 :=
          pairwise_map.mp (zipIdx_map_snd 0 vs ▸ pairwise_lt_range')
        refine pairwise_map.mpr (hnumbers.imp fun hlt a ha hb => ?_)
        obtain ⟨t, ht, rfl⟩ := mem_map.mp ha
        obtain ⟨r, hr, hpath⟩ := mem_map.mp hb
        obtain ⟨_, ht⟩ := path_sites ht
        obtain ⟨_, hr⟩ := path_sites hr
        rw [ht, hr] at hpath
        exact absurd (childPath_append_inj hpath) (Nat.ne_of_gt hlt)

end Site

namespace Chart

theorem forall_sites {P : Site → Prop} (hP : Site.HandedOn P) (hroot : ∀ v, P ⟨.root, "", [], {}, v⟩)
    (hconcat : ∀ (i : Nat) others u,
      P ⟨ScopeId.root.child "concat" i, concatPath i, [], ({} : Inherited).within others [], .unit u⟩) :
    ∀ c : Chart, ∀ s ∈ c.sites, P s
  | .view v => Site.forall_sites hP ⟨.root, "", [], {}, v⟩ (hroot v)
  | .vconcat us others => fun s hs => by
    obtain ⟨i, hi, rfl⟩ := mem_mapIdx.mp hs
    exact hconcat i others _

theorem sites_subset {s : Site} (hs : s ∈ c.sites) : s.sites ⊆ c.sites := by
  cases c with
  | view v => exact Site.sites_subset (s := ⟨.root, "", [], {}, v⟩) hs
  | vconcat us others =>
    obtain ⟨i, hi, rfl⟩ := mem_mapIdx.mp hs
    exact fun t ht => mem_singleton.mp ht ▸ hs

theorem nodup_sitePaths (c : Chart) : (c.sites.map Site.path).Nodup := by
  cases c with
  | view v => exact Site.nodup_sitePaths ⟨.root, "", [], {}, v⟩
  | vconcat us others =>
    simp only [sites]
    rw [nodup_iff_pairwise_ne, pairwise_iff_getElem]
    intro i j hi hj hlt heq
    simp only [getElem_map, getElem_mapIdx] at heq
    have := concatPath_inj heq
    omega

end Chart

def ScopeId.sitePath (id : ScopeId) : String := if id.isRoot then "" else id.path ++ "_"

theorem ScopeId.sitePath_child (id : ScopeId) (kind : String) (i : Nat) :
    (id.child kind i).sitePath = id.sitePath ++ kind ++ "_" ++ toString i ++ "_" := by
  rw [sitePath, isRoot_child, if_neg Bool.false_ne_true, sitePath, child]
  split
  · show kind ++ "_" ++ toString i ++ "_" = "" ++ kind ++ "_" ++ toString i ++ "_"
    rw [String.empty_append]
  · show id.path ++ "_" ++ (kind ++ "_" ++ toString i) ++ "_" = _
    simp only [String.append_assoc]

theorem Chart.path_site {s : Site} (h : s ∈ c.sites) : s.path = s.id.sitePath := by
  refine forall_sites (P := fun s => s.path = s.id.sitePath) ?_ (fun _ => rfl) (fun i _ _ => ?_) c s h
  · intro s l vs i v _ _ h
    rw [Site.child, ScopeId.sitePath_child, ← h]
    show s.path ++ "layer_" ++ toString i ++ "_" = s.path ++ "layer" ++ "_" ++ toString i ++ "_"
    simp only [String.append_assoc]
    rfl
  · rw [ScopeId.sitePath_child]
    rfl

theorem Chart.nodup_siteIds (c : Chart) : (c.sites.map Site.id).Nodup := by
  refine List.Nodup.of_map ScopeId.sitePath ?_
  rw [map_map]
  have hpaths : c.sites.map (ScopeId.sitePath ∘ Site.id) = c.sites.map Site.path :=
    map_congr_left fun s hs => (path_site hs).symm
  rw [hpaths]
  exact nodup_sitePaths c

theorem Chart.site?_eq_some {s : Site} (h : s ∈ c.sites) : c.site? s.id = some s := by
  unfold site?
  cases hfind : c.sites.find? (·.id == s.id) with
  | none =>
    have := find?_eq_none.mp hfind s h
    simp at this
  | some t =>
    have hid : t.id = s.id := by simpa using find?_some hfind
    rw [inj_on_of_nodup_map (nodup_siteIds c) (mem_of_find?_eq_some hfind) h hid]

namespace Site

theorem mem_collected (s : Site) : ∀ su ∈ s.collected.2, ∃ t ∈ s.sites, ∃ u, t.view = .unit u
    ∧ u.hasMark = true ∧ su = .below u t.path t.inherited := by
  induction s using induction with
  | h s ih =>
    intro su hsu
    cases hview : s.view with
    | unit u =>
      rw [collected, hview, View.collect] at hsu
      split at hsu
      · next hmark => exact ⟨s, s.self_mem_sites, u, hview, hmark, mem_singleton.mp hsu⟩
      · cases hsu
    | layer l vs =>
      rw [collected_layer hview] at hsu
      obtain ⟨r, hr, hsu⟩ := mem_flatMap.mp hsu
      obtain ⟨t, ht, hu⟩ := ih r hr su hsu
      exact ⟨t, sites_child hr ht, hu⟩

theorem mem_scopes (s : Site) : ∀ sc ∈ s.scopes, ∃ t ∈ s.sites,
    sc.id = t.id ∧ (sc.selections, sc.units) = t.collected := by
  induction s using induction with
  | h s ih =>
    intro sc hsc
    cases hview : s.view with
    | unit u =>
      rw [scopes, hview, View.scopes] at hsc
      split at hsc
      · split at hsc
        · next hmark =>
          obtain rfl := mem_singleton.mp hsc
          refine ⟨s, s.self_mem_sites, rfl, ?_⟩
          rw [collected, hview, View.collect, if_pos hmark]
          rfl
        · cases hsc
      · cases hsc
    | layer l vs =>
      rw [scopes_layer hview] at hsc
      split at hsc
      · obtain rfl := mem_singleton.mp hsc
        exact ⟨s, s.self_mem_sites, rfl, rfl⟩
      · obtain ⟨r, hr, hsc⟩ := mem_flatMap.mp hsc
        obtain ⟨t, ht, h⟩ := ih r hr sc hsc
        exact ⟨t, sites_child hr ht, h⟩

end Site

theorem Chart.mem_scopes {sc : Scope} (h : sc ∈ c.scopes) : ∃ s ∈ c.sites,
    sc.id = s.id ∧ (sc.selections, sc.units) = s.collected := by
  cases c with
  | view v => exact Site.mem_scopes ⟨.root, "", [], {}, v⟩ sc h
  | vconcat us others =>
    obtain ⟨_, hscs, hsc⟩ := mem_flatten.mp h
    obtain ⟨i, hi, rfl⟩ := mem_mapIdx.mp hscs
    obtain ⟨s, hs, h⟩ := Site.mem_scopes ⟨_, concatPath i, [], _, .unit _⟩ sc hsc
    exact ⟨s, mem_mapIdx.mpr ⟨i, hi, (mem_singleton.mp hs).symm⟩, h⟩

theorem Chart.isPath_scopes {s : Scope} (h : s ∈ c.scopes) : s.id.IsPath := by
  obtain ⟨t, ht, hid, -⟩ := mem_scopes h
  rw [hid]
  exact forall_sites (P := fun t => t.id.IsPath) (fun _ _ _ i _ _ _ h => h.child (.inl rfl) i) (fun _ => .root)
    (fun i _ _ => .child .root (.inr rfl) i) c t ht

theorem Chart.scopes_of_isRoot {s : Scope} (h : s ∈ c.scopes) (hroot : s.id.isRoot = true) : c.scopes = [s] := by
  cases c with
  | view v =>
    let r : Site := ⟨.root, "", [], {}, v⟩
    show r.scopes = [s]
    replace h : s ∈ r.scopes := h
    cases v with
    | unit u =>
      rw [Site.scopes, View.scopes] at h ⊢
      split at h
      · split at h
        · next hmark => rw [if_pos hmark, mem_singleton.mp h]
        · cases h
      · cases h
    | layer l vs =>
      rw [Site.scopes_layer rfl] at h ⊢
      split at h
      · rw [mem_singleton.mp h]
      · obtain ⟨x, hx, h⟩ := mem_flatMap.mp h
        obtain ⟨t, ht, hid, -⟩ := Site.mem_scopes x s h
        obtain ⟨l, vs, i, w, -, -, rfl⟩ := Site.mem_children.mp hx
        have hchild := Site.forall_sites (P := fun t => t.id.isRoot = false)
          (fun _ _ _ _ _ _ _ _ => ScopeId.isRoot_child ..) _ (ScopeId.isRoot_child ..) t ht
        rw [hid, hchild] at hroot
        cases hroot
  | vconcat us others =>
    obtain ⟨t, ht, hid, -⟩ := mem_scopes h
    obtain ⟨i, hi, rfl⟩ := mem_mapIdx.mp ht
    rw [hid, ScopeId.isRoot_child] at hroot
    cases hroot

end AnimatedChart.Spec
