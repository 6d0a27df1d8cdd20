import AnimatedChart.Spec.Scope

/-!
# Numbered paths

Paths to units and ids of scopes are made of words and numbers with underscores between them. The first number of a path
can be told from what follows it, so paths through different children of a layer are different (`childPath_append_inj`).
-/

open List Nat

namespace AnimatedChart.Spec

variable {base : String} {i j : Nat}

theorem toDigits_inj (h : toDigits 10 i = toDigits 10 j) : i = j := by
  have hnum := congrArg (fun ds => ofDigitChars 10 ds 0) h
  simpa using hnum

theorem toDigits_append_inj {a b : List Char} (h : toDigits 10 i ++ '_' :: a = toDigits 10 j ++ '_' :: b) :
    i = j ∧ a = b := by
  have htake (n : Nat) (r : List Char) :
      (toDigits 10 n ++ '_' :: r).takeWhile Char.isDigit = toDigits 10 n := by
    rw [takeWhile_append_of_pos (fun c hc => isDigit_of_mem_toDigits (by decide) (by decide) hc),
      takeWhile_cons_of_neg (by decide), append_nil]
  have hij : i = j := by
    have h' := congrArg (List.takeWhile Char.isDigit) h
    rw [htake, htake] at h'
    exact toDigits_inj h'
  subst hij
  exact ⟨rfl, (List.cons.inj (append_cancel_left h)).2⟩

theorem append_toDigits_inj {a b : List Char} (h : a ++ '_' :: toDigits 10 i = b ++ '_' :: toDigits 10 j) :
    a = b ∧ toDigits 10 i = toDigits 10 j := by
  have htake (n : Nat) (r : List Char) :
      ((toDigits 10 n).reverse ++ '_' :: r).takeWhile Char.isDigit = (toDigits 10 n).reverse := by
    rw [takeWhile_append_of_pos fun c hc =>
      isDigit_of_mem_toDigits (by decide) (by decide) (mem_reverse.mp hc),
      takeWhile_cons_of_neg (by decide), append_nil]
  have hreverse := congrArg List.reverse h
  simp only [reverse_append, reverse_cons, append_assoc, singleton_append] at hreverse
  have hdigits := congrArg (List.takeWhile Char.isDigit) hreverse
  rw [htake, htake] at hdigits
  rw [hdigits] at hreverse
  exact ⟨reverse_inj.mp (List.cons.inj (append_cancel_left hreverse)).2, reverse_inj.mp hdigits⟩

theorem toList_numbered (a : String) (i : Nat) : (s!"{a}_{i}").toList = a.toList ++ '_' :: toDigits 10 i := by
  show (a ++ "_" ++ toString i).toList = _
  simp only [String.toList_append, toString_eq_repr, toList_repr, append_assoc]
  rfl

theorem numbered_inj {a b : String} {i j : Nat} (h : s!"{a}_{i}" = s!"{b}_{j}") : a = b ∧ i = j := by
  have hlist := congrArg String.toList h
  rw [toList_numbered, toList_numbered] at hlist
  obtain ⟨ha, hi⟩ := append_toDigits_inj hlist
  exact ⟨String.toList_injective ha, toDigits_inj hi⟩

theorem toList_childPath (path : String) (i : Nat) :
    (childPath path i).toList = path.toList ++ ("layer_".toList ++ (toDigits 10 i ++ ['_'])) := by
  show (path ++ "layer_" ++ toString i ++ "_").toList = _
  simp only [String.toList_append, toString_eq_repr, toList_repr, append_assoc]
  rfl

theorem childPath_append_inj {path a b : String} (h : childPath path i ++ a = childPath path j ++ b) : i = j := by
  have hlist := congrArg String.toList h
  simp only [String.toList_append, toList_childPath, append_assoc] at hlist
  exact (toDigits_append_inj (append_cancel_left (append_cancel_left hlist))).1

def concatPath (i : Nat) : String := (ScopeId.root.child "concat" i).path ++ "_"

theorem toList_concatPath (i : Nat) : (concatPath i).toList = "concat_".toList ++ (toDigits 10 i ++ ['_']) := by
  show ("concat" ++ "_" ++ toString i ++ "_").toList = _
  simp only [String.toList_append, toString_eq_repr, toList_repr, append_assoc]
  rfl

theorem concatPath_inj (h : concatPath i = concatPath j) : i = j := by
  have hlist := congrArg String.toList h
  rw [toList_concatPath, toList_concatPath] at hlist
  exact (toDigits_append_inj (append_cancel_left hlist)).1

/-! ## Scope ids -/

/-- The id leads through layers and stacked charts. -/
inductive ScopeId.IsPath : ScopeId → Prop
  | root : IsPath .root
  | child {id : ScopeId} {kind : String} (h : id.IsPath) (hkind : kind = "layer" ∨ kind = "concat") (i : Nat) :
    IsPath (id.child kind i)

def Unnested (base : String) : Prop :=
  ∀ (a kind : String) (i : Nat), kind = "layer" ∨ kind = "concat" → base ≠ a ++ "_" ++ kind ++ "_" ++ toString i

theorem unnested_of_getLast (h : ∀ c ∈ base.toList.getLast?, c.isDigit = false) : Unnested base := by
  intro a kind i _ heq
  have hne : toDigits 10 i ≠ [] := toDigits_ne_nil
  have hlist : base.toList = (a ++ "_" ++ kind).toList ++ '_' :: toDigits 10 i :=
    (congrArg String.toList heq).trans (toList_numbered _ i)
  rw [hlist, getLast?_append, getLast?_cons, getLast?_eq_some_getLast hne] at h
  have hdigit := isDigit_of_mem_toDigits (b := 10) (by decide) (by decide) (getLast_mem hne)
  exact Bool.false_ne_true ((h _ rfl).symm.trans hdigit)

namespace ScopeId

theorem isRoot_child (id : ScopeId) (kind : String) (i : Nat) : (id.child kind i).isRoot = false := by
  rw [isRoot, ← Bool.not_eq_true, String.isEmpty_iff, ← String.toList_inj, child]
  split <;> simp

theorem suffix_child (id : ScopeId) (kind : String) (i : Nat) :
    (id.child kind i).suffix = id.suffix ++ "_" ++ kind ++ "_" ++ toString i := by
  rw [suffix, isRoot_child, if_neg Bool.false_ne_true, suffix, child]
  split
  · show "_" ++ (kind ++ "_" ++ toString i) = "" ++ "_" ++ kind ++ "_" ++ toString i
    simp only [String.append_assoc, String.empty_append]
  · show "_" ++ (id.path ++ "_" ++ (kind ++ "_" ++ toString i)) = _
    simp only [String.append_assoc]

theorem step_inj {a b kind kind' : String} (hkind : kind = "layer" ∨ kind = "concat")
    (hkind' : kind' = "layer" ∨ kind' = "concat")
    (h : a ++ "_" ++ kind ++ "_" ++ toString i = b ++ "_" ++ kind' ++ "_" ++ toString j) :
    a = b ∧ kind = kind' ∧ i = j := by
  obtain ⟨hword, rfl⟩ := @numbered_inj (a ++ "_" ++ kind) (b ++ "_" ++ kind') i j h
  have hlast := congrArg (fun w : String => w.toList.getLast?) hword
  obtain rfl : kind = kind' := by rcases hkind with rfl | rfl <;> rcases hkind' with rfl | rfl <;> simp at hlast ⊢
  have hlist := congrArg String.toList hword
  simp only [String.toList_append] at hlist
  exact ⟨String.toList_inj.mp (append_cancel_right (append_cancel_right hlist)), rfl, rfl⟩

theorem name_inj {id id' : ScopeId} (hid : id.IsPath) (hid' : id'.IsPath) {base' : String} (hb : Unnested base)
    (hb' : Unnested base') (h : id.name base = id'.name base') : base = base' ∧ id = id' := by
  -- Both suffixes are taken off step by step; the names stop having steps at the same time.
  induction hid generalizing id' with
  | root =>
    cases hid' with
    | root => exact ⟨by simpa [name, suffix, isRoot, root] using h, rfl⟩
    | @child id' kind' _ hkind' j =>
      refine absurd ?_ (hb (base' ++ id'.suffix) kind' j hkind')
      rw [name, name, suffix_child] at h
      simpa [suffix, isRoot, root, String.append_assoc] using h
  | @child id kind _ hkind i ih =>
    cases hid' with
    | root =>
      refine absurd ?_ (hb' (base ++ id.suffix) kind i hkind)
      rw [name, name, suffix_child] at h
      simpa [suffix, isRoot, root, String.append_assoc] using h.symm
    | @child id' kind' hid' hkind' j =>
      rw [name, name, suffix_child, suffix_child] at h
      have hstep : base ++ id.suffix ++ "_" ++ kind ++ "_" ++ toString i
          = base' ++ id'.suffix ++ "_" ++ kind' ++ "_" ++ toString j := by
        simpa only [String.append_assoc] using h
      obtain ⟨hname, rfl, rfl⟩ := step_inj hkind hkind' hstep
      obtain ⟨rfl, rfl⟩ := ih hid' hname
      exact ⟨rfl, rfl⟩

end ScopeId

end AnimatedChart.Spec

namespace AnimatedChart.Animation

def EndsDigit (n : String) : Prop := ∃ c, n.toList.getLast? = some c ∧ c.isDigit = true

theorem endsDigit_append (a : String) (i : Nat) : EndsDigit (a ++ toString i) := by
  have hne : toDigits 10 i ≠ [] := toDigits_ne_nil
  refine ⟨(toDigits 10 i).getLast hne, ?_, ?_⟩
  · rw [String.toList_append, getLast?_append, toString_eq_repr, toList_repr,
      getLast?_eq_some_getLast hne]
    rfl
  · exact isDigit_of_mem_toDigits (by decide) (by decide) (getLast_mem hne)

end AnimatedChart.Animation
