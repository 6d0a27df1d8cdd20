import AnimatedChart.Animation.Keyframes
import AnimatedChart.Proofs.Dependency.Tokens

/-!
# Filters tell their comparisons

Units whose filters have the same text share their datasets. The text can be read back, so such units have the same
filter for any other keyframe (`keyframeFilter_congr`), and their comparisons span keyframes both or not at all
(`spansKeyframes_of_filter`).
-/

open List

namespace AnimatedChart.Animation

open Spec Dependency Token

variable {f f' keyframe : String} {ps qs : List FieldPredicate} {s : Scope} {x y : List Char}

/-! ## Accesses -/

def EndsAccess (rest : List Char) : Prop := ∀ c ∈ rest.head?, isPart c = false ∧ c ≠ '.' ∧ c ≠ '['

theorem EndsAccess.stops {rest : List Char} (h : EndsAccess rest) : Stops rest := fun c hc => (h c hc).1

theorem quote_append_inj {a b : String} (h : (Text.quote a).toList ++ x = (Text.quote b).toList ++ y) : x = y := by
  have hrest (n : String) (x : List Char) : ∃ t cs, (Text.quote n).toList ++ x = '"' :: cs ∧ literal '"' cs = (t, x) := by
    obtain ⟨t, ht⟩ := Inside.flatMap Inside.quoteChar n.toList
    refine ⟨t, n.toList.flatMap Text.quoteChar ++ '"' :: x, by simp [Text.quote], ?_⟩
    rw [ht, literal_end '"' (by decide), append_nil]
  obtain ⟨t, cs, hcs, hx⟩ := hrest a x
  obtain ⟨u, ds, hds, hy⟩ := hrest b y
  obtain rfl : cs = ds := (List.cons.inj (hcs.symm.trans (h.trans hds))).2
  exact (Prod.mk.inj (hx.symm.trans hy)).2

theorem steps_cons (part : List Char) (parts : List (List Char)) :
    steps (part :: parts) = (accessPart part).toList ++ steps parts := rfl

theorem dropWhile_isPart {n : List Char} (hn : spellsIdentifier n = true) (hx : Stops x) :
    (n ++ x).dropWhile isPart = x := by
  have hall : ∀ c ∈ n, isPart c = true := by
    cases n with
    | nil => exact fun _ hc => nomatch hc
    | cons c cs =>
      obtain ⟨hc, hcs⟩ := Bool.and_eq_true_iff.mp hn
      intro d hd
      rcases mem_cons.mp hd with rfl | hd
      · rw [isPart, isStart_eq, hc, Bool.true_or]
      · exact (isPart_eq d).trans (all_eq_true.mp hcs d hd)
  rw [dropWhile_append_of_pos hall]
  cases x with
  | nil => rfl
  | cons d ds => exact dropWhile_cons_of_neg (by simp [hx d rfl])

theorem accessPart_append_inj {a b : List Char} (hx : Stops x) (hy : Stops y)
    (h : (accessPart a).toList ++ x = (accessPart b).toList ++ y) : x = y := by
  unfold accessPart at h
  by_cases ha : spellsIdentifier a = true <;> by_cases hb : spellsIdentifier b = true
  · simp only [ha, hb, if_true, String.toList_append, String.toList_ofList, append_assoc] at h
    have h := congrArg (List.dropWhile isPart) (append_cancel_left h)
    rwa [dropWhile_isPart ha hx, dropWhile_isPart hb hy] at h
  · simp [ha, hb] at h
  · simp [ha, hb] at h
  · simp only [ha, hb, Bool.false_eq_true, if_false, String.toList_append, append_assoc] at h
    exact append_cancel_left (quote_append_inj (append_cancel_left h))

theorem EndsAccess.ne_step (hx : EndsAccess x) (part rest : List Char) : x ≠ (accessPart part).toList ++ rest := by
  rintro rfl
  by_cases hpart : spellsIdentifier part = true
  · exact (hx '.' (by simp [accessPart, hpart])).2.1 rfl
  · exact (hx '[' (by simp [accessPart, hpart])).2.2 rfl

theorem steps_append_inj {as bs : List (List Char)} (hx : EndsAccess x) (hy : EndsAccess y)
    (h : steps as ++ x = steps bs ++ y) : x = y := by
  induction as generalizing bs with
  | nil =>
    cases bs with
    | nil => exact h
    | cons b bs =>
      rw [steps_cons, append_assoc] at h
      exact absurd h (hx.ne_step b _)
  | cons a as ih =>
    rw [steps_cons, append_assoc] at h
    cases bs with
    | nil => exact absurd h.symm (hy.ne_step a _)
    | cons b bs =>
      rw [steps_cons, append_assoc] at h
      exact ih (accessPart_append_inj (hx.stops.steps as) (hy.stops.steps bs) h)

theorem access_append_inj (hx : EndsAccess x) (hy : EndsAccess y)
    (h : (access "datum" f).toList ++ x = (access "datum" f').toList ++ y) :
    access "datum" f = access "datum" f' ∧ x = y := by
  have hrest : x = y := by
    rw [toList_access, toList_access, append_assoc, append_assoc] at h
    exact steps_append_inj hx hy (append_cancel_left h)
  subst hrest
  exact ⟨String.toList_inj.mp (append_cancel_right h), rfl⟩

/-! ## Comparisons -/

/-- What a comparison asks of its field. -/
inductive Test where
  | less
  | greater
  | atMost
  | atLeast
  | equal
  | range
  | valid
deriving DecidableEq

namespace Test

def ofTupleType : String → Test
  | "E-LT" => less
  | "E-GT" => greater
  | "E-LTE" => atMost
  | "E-GTE" => atLeast
  | "R" => range
  | "E-VALID" => valid
  | _ => equal

def before : Test → String
  | range => "inrange("
  | valid => "isValid("
  | _ => ""

def operator : Test → String
  | less => " < "
  | greater => " > "
  | atMost => " <= "
  | atLeast => " >= "
  | equal => " == "
  | range => ", "
  | valid => ")"

def operand (s : Scope) (keyframe : String) : Test → String
  | range => "[" ++ s.minExtent ++ ", " ++ keyframe ++ "])"
  | valid => ""
  | _ => keyframe

def spans : Test → Bool
  | equal | valid => false
  | _ => true

end Test

def signature (p : FieldPredicate) : Test × String := (.ofTupleType p.tupleType, access "datum" p.field)

def testExpr (s : Scope) (keyframe : String) (t : Test × String) : String :=
  t.1.before ++ t.2 ++ t.1.operator ++ t.1.operand s keyframe

theorem comparisonExpr_eq (s : Scope) (keyframe : String) (p : FieldPredicate) :
    comparisonExpr s keyframe p = testExpr s keyframe (signature p) := by
  unfold comparisonExpr signature testExpr
  generalize p.tupleType = kind
  dsimp only
  unfold Test.ofTupleType
  split <;> simp [Test.before, Test.operator, Test.operand, call, commaList, listExpr, String.append_assoc]

theorem spansKeyframes_eq (p : FieldPredicate) : spansKeyframes p = (signature p).1.spans := by
  unfold spansKeyframes signature Test.ofTupleType
  dsimp only
  split <;> simp_all [Test.spans]

theorem Test.before_inj {t u : Test}
    (h : t.before.toList ++ ((access "datum" f).toList ++ x) = u.before.toList ++ ((access "datum" f').toList ++ y)) :
    t.before = u.before := by
  rw [toList_access, toList_access] at h
  cases t <;> cases u <;> first | rfl | simp [before] at h

theorem Test.endsAccess_operator (t : Test) (x : List Char) : EndsAccess (t.operator.toList ++ x) := by
  intro c hc
  cases t <;> (simp [operator] at hc; subst hc; decide)

theorem Test.operator_inj {t u : Test} (h : t.operator.toList ++ x = u.operator.toList ++ y) : t = u := by
  cases t <;> cases u <;> first | rfl | simp [operator] at h

theorem testExpr_append_inj {p q : FieldPredicate}
    (h : (testExpr s keyframe (signature p)).toList ++ x = (testExpr s keyframe (signature q)).toList ++ y) :
    signature p = signature q ∧ x = y := by
  simp only [testExpr, signature, String.toList_append, append_assoc] at h
  have hbefore := Test.before_inj h
  rw [hbefore] at h
  obtain ⟨haccess, h⟩ :=
    access_append_inj (Test.endsAccess_operator _ _) (Test.endsAccess_operator _ _) (append_cancel_left h)
  have htest := Test.operator_inj h
  rw [htest] at h
  exact ⟨Prod.ext htest haccess, append_cancel_left (append_cancel_left h)⟩

theorem keyframeFilter_eq (s : Scope) (ps : List FieldPredicate) (keyframe : String) :
    keyframeFilter s ps keyframe = String.intercalate " && " ((ps.map signature).map (testExpr s keyframe)) := by
  rw [keyframeFilter, map_map, funext (comparisonExpr_eq s keyframe), Function.comp_def]

theorem signature_of_filter (hps : ps ≠ []) (hqs : qs ≠ [])
    (h : keyframeFilter s ps keyframe = keyframeFilter s qs keyframe) : ps.map signature = qs.map signature := by
  induction ps generalizing qs with
  | nil => exact absurd rfl hps
  | cons p ps ih =>
    obtain ⟨q, qs, rfl⟩ := exists_cons_of_ne_nil hqs
    -- the first comparison, and what follows it
    have hsplit (p : FieldPredicate) (ps : List FieldPredicate) : (keyframeFilter s (p :: ps) keyframe).toList
        = (testExpr s keyframe (signature p)).toList
          ++ if ps = [] then [] else " && ".toList ++ (keyframeFilter s ps keyframe).toList := by
      rw [keyframeFilter_eq, keyframeFilter_eq]
      cases ps <;> simp [String.intercalate_cons_cons]
    have hlist := congrArg String.toList h
    rw [hsplit, hsplit] at hlist
    obtain ⟨hfirst, hrest⟩ := testExpr_append_inj hlist
    rw [map_cons, map_cons, hfirst]
    by_cases hp : ps = [] <;> by_cases hq : qs = []
    · rw [hp, hq]
    · simp [hp, hq] at hrest
    · simp [hp, hq] at hrest
    · rw [if_neg hp, if_neg hq] at hrest
      rw [ih hp hq (String.toList_inj.mp (append_cancel_left hrest))]

theorem keyframeFilter_congr (hps : ps ≠ []) (hqs : qs ≠ [])
    (h : keyframeFilter s ps keyframe = keyframeFilter s qs keyframe) (other : String) :
    keyframeFilter s ps other = keyframeFilter s qs other := by
  rw [keyframeFilter_eq, keyframeFilter_eq, signature_of_filter hps hqs h]

theorem spansKeyframes_of_filter (hps : ps ≠ []) (hqs : qs ≠ [])
    (h : keyframeFilter s ps keyframe = keyframeFilter s qs keyframe) :
    ps.any spansKeyframes = qs.any spansKeyframes := by
  have hspans (ps : List FieldPredicate) : ps.any spansKeyframes = (ps.map signature).any (·.1.spans) := by
    rw [any_map, funext spansKeyframes_eq, Function.comp_def]
  rw [hspans, hspans, signature_of_filter hps hqs h]

end AnimatedChart.Animation
