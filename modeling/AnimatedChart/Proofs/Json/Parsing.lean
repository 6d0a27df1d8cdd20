import AnimatedChart.Proofs.Json.Tokens

/-!
# Parsing, token by token

One token takes the parser from what it expects and what is open to a finished value or to the next such state (`step`).
-/

open List

namespace AnimatedChart.Json

variable {stack : List Frame} {v : Fragment}

namespace Fragment

mutual

def Spelled : Fragment → Prop
  | number l => Token.IsNumber l
  | string b => Token.IsBody b
  | array items _ => SpelledAll items
  | object members _ => SpelledMembers members
  | _ => True

def SpelledAll : List Fragment → Prop
  | [] => True
  | f :: fs => f.Spelled ∧ SpelledAll fs

def SpelledMembers : List (String × Fragment) → Prop
  | [] => True
  | (k, f) :: fs => Token.IsBody k ∧ f.Spelled ∧ SpelledMembers fs

end

theorem spelledAll_iff {fs : List Fragment} : SpelledAll fs ↔ ∀ f ∈ fs, f.Spelled := by
  induction fs with
  | nil => simp [SpelledAll]
  | cons f fs ih => simp [SpelledAll, ih]

theorem spelledMembers_iff {ms : List (String × Fragment)} :
    SpelledMembers ms ↔ ∀ m ∈ ms, Token.IsBody m.1 ∧ m.2.Spelled := by
  induction ms with
  | nil => simp [SpelledMembers]
  | cons m ms ih =>
    obtain ⟨k, f⟩ := m
    simp [SpelledMembers, ih, and_assoc]

end Fragment

/-! ## Steps -/

/-- Where a token takes the parser. -/
inductive Outcome where
  | done (v : Fragment)
  | next (exp : Expected) (stack : List Frame)

def Outcome.finish (v : Fragment) : List Frame → Outcome
  | [] => done v
  | f :: fs => next .commaOrEnd (f.add v :: fs)

def Expected.isValue (exp : Expected) : Bool := exp = .value ∨ exp = .itemOrEnd

def step (exp : Expected) (stack : List Frame) : Token → Option Outcome
  | .null => if exp.isValue then some (.finish .null stack) else none
  | .bool b => if exp.isValue then some (.finish (.bool b) stack) else none
  | .number l => if exp.isValue then some (.finish (.number l) stack) else none
  | .string b =>
    if exp.isValue then some (.finish (.string b) stack)
    else if exp = .name ∨ exp = .nameOrEnd then
      match stack with
      | .object ms _ bs :: fs => some (.next .colon (.object ms b bs :: fs))
      | _ => none
    else none
  | .lbracket => if exp.isValue ∧ stack.length < maxDepth then some (.next .itemOrEnd (.array [] [] :: stack)) else none
  | .lbrace =>
    if exp.isValue ∧ stack.length < maxDepth then some (.next .nameOrEnd (.object [] "" [] :: stack)) else none
  | .rbracket =>
    if exp = .itemOrEnd ∨ exp = .commaOrEnd then
      match stack with
      | .array items bs :: fs => some (.finish (Frame.array items bs).close fs)
      | _ => none
    else none
  | .rbrace =>
    if exp = .nameOrEnd ∨ exp = .commaOrEnd then
      match stack with
      | .object ms n bs :: fs => some (.finish (Frame.object ms n bs).close fs)
      | _ => none
    else none
  | .comma =>
    if exp = .commaOrEnd then
      match stack with
      | .array items bs :: fs => some (.next .value (.array items bs :: fs))
      | .object ms n bs :: fs => some (.next .name (.object ms n bs :: fs))
      | [] => none
    else none
  | .colon => if exp = .colon then some (.next .value stack) else none
  | .bad => none

def Outcome.run (rest : List Lexeme) : Option Outcome → Option (Fragment × List Lexeme)
  | none => none
  | some (done v) => some (v, rest)
  | some (next exp stack) => parseTokens exp stack rest

theorem Outcome.run_finish (rest : List Lexeme) (v : Fragment) (stack : List Frame) :
    run rest (some (.finish v stack))
      = match stack with
        | [] => some (v, rest)
        | f :: fs => parseTokens .commaOrEnd (f.add v :: fs) rest := by
  cases stack <;> rfl

theorem parseTokens_cons (exp : Expected) (stack : List Frame) (blank : String) (t : Token) (rest : List Lexeme) :
    parseTokens exp stack (⟨blank, t⟩ :: rest) = Outcome.run rest (step exp (noteBlank blank stack) t) := by
  generalize hnoted : noteBlank blank stack = noted
  -- Both sides branch alike; which frame is innermost matters only to the tokens that look at it.
  cases t <;> simp only [parseTokens, hnoted, step, Expected.isValue, decide_eq_true_eq,
    apply_ite (Outcome.run rest), Outcome.run_finish]
  case rbracket => rcases noted with _ | ⟨_ | _, _ | _⟩ <;> rfl
  case rbrace => rcases noted with _ | ⟨_ | _, _ | _⟩ <;> rfl
  case comma => rcases noted with _ | ⟨_ | _, _⟩ <;> rfl
  case string => rcases noted with _ | ⟨_ | _, _⟩ <;> rfl
  all_goals rfl

/-! ## Parsed fragments are spelled -/

def Frame.Spelled : Frame → Prop
  | array items _ => Fragment.SpelledAll items
  | object members name _ => Fragment.SpelledMembers members ∧ Token.IsBody name

def Outcome.Spelled : Outcome → Prop
  | done v => v.Spelled
  | next _ stack => ∀ f ∈ stack, f.Spelled

theorem Token.isBody_empty : Token.IsBody "" := fun rest => body_quote rest

theorem Frame.spelled_add {f : Frame} (hf : f.Spelled) (hv : v.Spelled) : (f.add v).Spelled := by
  cases f with
  | array items bs => exact ⟨hv, hf⟩
  | object ms n bs => exact ⟨⟨hf.2, hv, hf.1⟩, Token.isBody_empty⟩

theorem Frame.spelled_note {f : Frame} (blank : String) (hf : f.Spelled) : (f.note blank).Spelled := by
  cases f with
  | array items bs => exact hf
  | object ms n bs => exact hf

theorem Frame.spelled_close {f : Frame} (hf : f.Spelled) : f.close.Spelled := by
  cases f with
  | array items bs =>
    show Fragment.SpelledAll items.reverse
    rw [Fragment.spelledAll_iff]
    exact fun v hv => Fragment.spelledAll_iff.mp hf v (mem_reverse.mp hv)
  | object ms n bs =>
    show Fragment.SpelledMembers ms.reverse
    rw [Fragment.spelledMembers_iff]
    exact fun m hm => Fragment.spelledMembers_iff.mp hf.1 m (mem_reverse.mp hm)

theorem Outcome.spelled_finish (hv : v.Spelled) (hs : ∀ f ∈ stack, f.Spelled) : (finish v stack).Spelled := by
  cases stack with
  | nil => exact hv
  | cons f fs =>
    obtain ⟨hf, hfs⟩ := forall_mem_cons.mp hs
    exact forall_mem_cons.mpr ⟨Frame.spelled_add hf hv, hfs⟩

theorem noteBlank_spelled (blank : String) (hs : ∀ f ∈ stack, f.Spelled) : ∀ f ∈ noteBlank blank stack, f.Spelled := by
  cases stack with
  | nil => exact hs
  | cons f fs =>
    obtain ⟨hf, hfs⟩ := forall_mem_cons.mp hs
    exact forall_mem_cons.mpr ⟨Frame.spelled_note blank hf, hfs⟩

theorem step_spelled {exp : Expected} {t : Token} {o : Outcome} (ht : t.Spelled) (hs : ∀ f ∈ stack, f.Spelled)
    (h : step exp stack t = some o) : o.Spelled := by
  cases t with
  | null | bool _ | number _ =>
    simp only [step, Option.ite_none_right_eq_some, Option.some.injEq] at h
    rw [← h.2]
    exact Outcome.spelled_finish ht hs
  | string b =>
    simp only [step] at h
    split at h
    · rw [← Option.some.inj h]
      exact Outcome.spelled_finish ht hs
    · split at h
      · split at h
        -- The name of a member waits in the innermost frame.
        · next ms n bs fs =>
          obtain ⟨hf, hfs⟩ := forall_mem_cons.mp hs
          rw [← Option.some.inj h]
          exact forall_mem_cons.mpr ⟨⟨hf.1, ht⟩, hfs⟩
        · exact absurd h (by simp)
      · exact absurd h (by simp)
  | lbracket =>
    simp only [step, Option.ite_none_right_eq_some, Option.some.injEq] at h
    rw [← h.2]
    exact forall_mem_cons.mpr ⟨trivial, hs⟩
  | lbrace =>
    simp only [step, Option.ite_none_right_eq_some, Option.some.injEq] at h
    rw [← h.2]
    exact forall_mem_cons.mpr ⟨⟨trivial, Token.isBody_empty⟩, hs⟩
  | rbracket | rbrace =>
    simp only [step] at h
    split at h
    · split at h
      · obtain ⟨hf, hfs⟩ := forall_mem_cons.mp hs
        rw [← Option.some.inj h]
        exact Outcome.spelled_finish (Frame.spelled_close hf) hfs
      · exact absurd h (by simp)
    · exact absurd h (by simp)
  | comma =>
    simp only [step] at h
    split at h
    · split at h
      · rw [← Option.some.inj h]
        exact hs
      · rw [← Option.some.inj h]
        exact hs
      · exact absurd h (by simp)
    · exact absurd h (by simp)
  | colon =>
    simp only [step, Option.ite_none_right_eq_some, Option.some.injEq] at h
    rw [← h.2]
    exact hs
  | bad => exact absurd h (by simp [step])

theorem parseTokens_spelled {toks : List Lexeme} (ht : ∀ x ∈ toks, x.token.Spelled) :
    ∀ {exp : Expected} {stack : List Frame} {r : Fragment × List Lexeme}, (∀ f ∈ stack, f.Spelled) →
      parseTokens exp stack toks = some r → r.1.Spelled := by
  induction toks with
  | nil =>
    intro exp stack r _ h
    exact absurd h (by simp [parseTokens])
  | cons x rest ih =>
    intro exp stack r hs h
    obtain ⟨blank, t⟩ := x
    rw [parseTokens_cons] at h
    cases hstep : step exp (noteBlank blank stack) t with
    | none =>
      rw [hstep] at h
      exact absurd h (by simp [Outcome.run])
    | some o =>
      have ho := step_spelled (ht _ mem_cons_self) (noteBlank_spelled blank hs) hstep
      rw [hstep] at h
      cases o with
      | done v =>
        rw [← Option.some.inj h]
        exact ho
      | next exp' stack' => exact ih (fun x hx => ht x (mem_cons_of_mem _ hx)) ho h

theorem Fragment.parse_spelled {s : String} {f : Fragment} (h : parse? s = some f) : f.Spelled := by
  unfold parse? at h
  split at h
  · next v heq =>
    rw [← Option.some.inj h]
    exact parseTokens_spelled (Token.scan_spelled _) (by simp) heq
  · exact absurd h (by simp)

end AnimatedChart.Json
