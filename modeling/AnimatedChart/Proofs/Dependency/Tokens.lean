import AnimatedChart.Animation.Expr
import AnimatedChart.Dependency.Expression

/-!
# Tokens of written expressions

What the scanner makes of the pieces that expressions are written from: identifiers (`scan_identifier`), string literals
(`scan_stringLiteral`), quoted names (`scan_quote`), access to fields (`scan_steps`), and fixed texts that end with a
separator (`scan_append`).
-/

open List

namespace AnimatedChart.Dependency.Token

open Animation Text

variable {c last : Char} {rest cs : List Char}

/-! ## Identifiers -/

theorem isStart_eq (c : Char) : isStart c = isIdentifierStart c := by
  rw [isStart, isIdentifierStart, Bool.or_comm, ← Bool.or_assoc]

theorem isPart_eq (c : Char) : isPart c = isIdentifierRest c := by rw [isPart, isIdentifierRest, isStart_eq]

theorem not_isStart_of_isBlank (h : isBlank c = true) : isStart c = false := by
  simp only [isBlank, Bool.or_eq_true, beq_iff_eq] at h
  rcases h with ((rfl | rfl) | rfl) | rfl <;> decide

def Stops (rest : List Char) : Prop := ∀ c ∈ rest.head?, isPart c = false

theorem Stops.nil : Stops [] := nofun

theorem Stops.cons {c : Char} {rest : List Char} (hc : isPart c = false) : Stops (c :: rest) := by
  rintro d hd
  obtain rfl : c = d := by simpa using hd
  exact hc

theorem scan_identifier {n : List Char} (hn : spellsIdentifier n = true) (hrest : Stops rest) :
    scan (n ++ rest) = ident (String.ofList n) :: scan rest := by
  cases n with
  | nil => exact absurd hn Bool.false_ne_true
  | cons c cs =>
    obtain ⟨hc, hcs⟩ := Bool.and_eq_true_iff.mp hn
    rw [← isStart_eq] at hc
    have hblank : isBlank c = false := by
      rw [Bool.eq_false_iff]
      intro h
      rw [not_isStart_of_isBlank h] at hc
      exact Bool.false_ne_true hc
    have hquote : ¬(c = '\'' ∨ c = '"') := by
      rintro (rfl | rfl)
      · exact absurd hc (by decide)
      · exact absurd hc (by decide)
    have hall : ∀ a ∈ cs, isPart a = true := fun a ha => (isPart_eq a).trans (all_eq_true.mp hcs a ha)
    have hstop : rest.takeWhile isPart = [] ∧ rest.dropWhile isPart = rest := by
      cases rest with
      | nil => exact ⟨rfl, rfl⟩
      | cons d ds =>
        have hd : isPart d = false := hrest d rfl
        exact ⟨takeWhile_cons_of_neg (by simp [hd]), dropWhile_cons_of_neg (by simp [hd])⟩
    rw [cons_append, scan, if_neg (by simp [hblank]), if_neg hquote, if_pos hc,
      takeWhile_append_of_pos hall, dropWhile_append_of_pos hall, hstop.1, hstop.2, append_nil]

/-! ## Literals -/

theorem literal_end (quote : Char) (h : quote ≠ '\\') (rest : List Char) : literal quote (quote :: rest) = ([], rest) := by
  rw [literal, if_pos rfl]
  · rintro rfl
    exact absurd rfl h
  · rintro d cs rfl
    exact absurd rfl h

theorem literal_escape (quote d : Char) (rest : List Char) :
    literal quote ('\\' :: d :: rest) = (d :: (literal quote rest).1, (literal quote rest).2) := by
  rw [literal]

theorem literal_plain {quote : Char} (hquote : c ≠ quote) (hslash : c ≠ '\\') (rest : List Char) :
    literal quote (c :: rest) = (c :: (literal quote rest).1, (literal quote rest).2) := by
  rw [literal, if_neg hquote]
  · rintro rfl
    exact absurd rfl hslash
  · rintro d cs rfl
    exact absurd rfl hslash

theorem literal_escaped (cs rest : List Char) : literal '\'' (escaped cs ++ '\'' :: rest) = (cs, rest) := by
  induction cs with
  | nil => exact literal_end '\'' (by decide) rest
  | cons c cs ih =>
    rw [escaped]
    split
    · rw [cons_append, cons_append, literal_escape, ih]
    · next h =>
      rw [not_or] at h
      rw [cons_append, literal_plain h.2 h.1, ih]

theorem scan_literal {quote : Char} (hquote : quote = '\'' ∨ quote = '"') {t : List Char}
    (h : literal quote cs = (t, rest)) : scan (quote :: cs) = string (String.ofList t) :: scan rest := by
  have hblank : isBlank quote = false := by rcases hquote with rfl | rfl <;> decide
  rw [scan, if_neg (by simp [hblank]), if_pos hquote, h]

theorem scan_stringLiteral (s : String) (rest : List Char) :
    scan ((stringLiteral s).toList ++ rest) = string s :: scan rest := by
  have hlist : (stringLiteral s).toList ++ rest = '\'' :: (escaped s.toList ++ '\'' :: rest) := by simp [stringLiteral]
  rw [hlist, scan_literal (.inl rfl) (literal_escaped s.toList rest), String.ofList_toList]

/-! ## Quoted names -/

/-- Characters inside a double-quoted literal: the literal goes on behind them, whatever follows. -/
def Inside (cs : List Char) : Prop :=
  ∃ t, ∀ rest, literal '"' (cs ++ rest) = (t ++ (literal '"' rest).1, (literal '"' rest).2)

namespace Inside

theorem nil : Inside [] := ⟨[], fun _ => rfl⟩

theorem plain (hquote : c ≠ '"') (hslash : c ≠ '\\') : Inside cs → Inside (c :: cs)
  | ⟨t, ht⟩ => ⟨c :: t, fun rest => by rw [cons_append, literal_plain hquote hslash, ht, cons_append]⟩

theorem escape (d : Char) : Inside cs → Inside ('\\' :: d :: cs)
  | ⟨t, ht⟩ => ⟨d :: t, fun rest => by rw [cons_append, cons_append, literal_escape, ht, cons_append]⟩

theorem append {ds : List Char} : Inside cs → Inside ds → Inside (cs ++ ds)
  | ⟨t, ht⟩, ⟨u, hu⟩ => ⟨t ++ u, fun rest => by rw [append_assoc, ht, hu, append_assoc]⟩

theorem flatMap {f : Char → List Char} (h : ∀ c, Inside (f c)) (cs : List Char) : Inside (cs.flatMap f) := by
  induction cs with
  | nil => exact nil
  | cons c cs ih => exact (h c).append ih

theorem ite {p : Prop} [Decidable p] {ds : List Char} (hc : p → Inside cs) (hd : ¬p → Inside ds) :
    Inside (if p then cs else ds) := by
  by_cases h : p
  · rw [if_pos h]
    exact hc h
  · rw [if_neg h]
    exact hd h

theorem hexDigit : ∀ n < 16, hexDigit n ≠ '"' ∧ hexDigit n ≠ '\\' := by decide

theorem hexDigits (width n : Nat) : Inside (hexDigits width n) := by
  induction width generalizing n with
  | zero => exact nil
  | succ width ih =>
    have hdigit := hexDigit (n % 16) (Nat.mod_lt n (by decide))
    exact (ih (n / 16)).append (plain hdigit.1 hdigit.2 nil)

theorem quoteChar (c : Char) : Inside (quoteChar c) := by
  refine ite (fun _ => escape _ nil) fun hquote => ite (fun _ => escape _ nil) fun hslash => ?_
  refine ite (fun _ => plain hquote hslash nil) fun _ => ite (fun _ => escape _ nil) fun _ => ?_
  refine ite (fun _ => escape _ nil) fun _ => ite (fun _ => escape _ nil) fun _ => ?_
  refine ite (fun _ => escape _ nil) fun _ => ite (fun _ => escape _ nil) fun _ => ?_
  refine ite (fun _ => escape _ nil) fun _ => ite (fun _ => escape _ nil) fun _ => ?_
  exact ite (fun _ => escape _ (hexDigits 2 _)) fun _ =>
    ite (fun _ => escape _ (hexDigits 4 _)) fun _ => escape _ (hexDigits 8 _)

theorem scan : Inside cs → ∃ t, ∀ rest, scan ('"' :: (cs ++ '"' :: rest)) = string t :: Token.scan rest
  | ⟨t, ht⟩ => ⟨String.ofList t, fun rest => scan_literal (.inr rfl) (by
    rw [ht, literal_end '"' (by decide), append_nil])⟩

end Inside

theorem scan_quote (s : String) : ∃ t, ∀ rest, scan ((quote s).toList ++ rest) = string t :: scan rest := by
  obtain ⟨t, ht⟩ := (Inside.flatMap Inside.quoteChar s.toList).scan
  refine ⟨t, fun rest => ?_⟩
  rw [← ht rest]
  simp [quote]

/-! ## Access to fields -/

/-- The tokens of an access behind the object: names after points, and quoted names in brackets. -/
inductive Chain : List Token → Prop
  | nil : Chain []
  | name (n : String) {ts : List Token} : Chain ts → Chain (symbol '.' :: ident n :: ts)
  | quoted (t : String) {ts : List Token} : Chain ts → Chain (symbol '[' :: string t :: symbol ']' :: ts)

theorem scan_symbol (hblank : isBlank c = false) (hquote : ¬(c = '\'' ∨ c = '"')) (hstart : isPart c = false)
    (rest : List Char) : scan (c :: rest) = symbol c :: scan rest := by
  rw [isPart, Bool.or_eq_false_iff] at hstart
  rw [scan, if_neg (by simp [hblank]), if_neg hquote, if_neg (by simp [hstart.1]), if_neg (by simp [hstart.2])]

def steps (parts : List (List Char)) : List Char := parts.flatMap fun p => (accessPart p).toList

theorem toList_access (object field : String) :
    (access object field).toList = object.toList ++ steps (pathParts field.toList) := by
  rw [access, String.toList_append, String.toList_join, flatMap_map, steps]

theorem Stops.steps (parts : List (List Char)) (hrest : Stops rest) : Stops (steps parts ++ rest) := by
  cases parts with
  | nil => exact hrest
  | cons part parts =>
    by_cases hpart : spellsIdentifier part = true
    · have hlist : Token.steps (part :: parts) ++ rest = '.' :: (part ++ (Token.steps parts ++ rest)) := by
        simp [Token.steps, accessPart, hpart]
      rw [hlist]
      exact .cons (by decide)
    · have hlist : Token.steps (part :: parts) ++ rest
          = '[' :: ((quote (String.ofList part)).toList ++ (']' :: (Token.steps parts ++ rest))) := by
        simp [Token.steps, accessPart, hpart]
      rw [hlist]
      exact .cons (by decide)

theorem scan_steps (parts : List (List Char)) :
    ∃ ts, Chain ts ∧ ∀ rest, Stops rest → scan (steps parts ++ rest) = ts ++ scan rest := by
  induction parts with
  | nil => exact ⟨[], .nil, fun _ _ => rfl⟩
  | cons part parts ih =>
    obtain ⟨ts, hts, h⟩ := ih
    by_cases hpart : spellsIdentifier part = true
    · refine ⟨_, hts.name (String.ofList part), fun rest hrest => ?_⟩
      have hlist : steps (part :: parts) ++ rest = '.' :: (part ++ (steps parts ++ rest)) := by
        simp [steps, accessPart, hpart]
      rw [hlist, scan_symbol (by decide) (by decide) (by decide), scan_identifier hpart (hrest.steps parts),
        h rest hrest]
      rfl
    · obtain ⟨t, ht⟩ := scan_quote (String.ofList part)
      refine ⟨_, hts.quoted t, fun rest hrest => ?_⟩
      have hlist : steps (part :: parts) ++ rest
          = '[' :: ((quote (String.ofList part)).toList ++ (']' :: (steps parts ++ rest))) := by
        simp [steps, accessPart, hpart]
      rw [hlist, scan_symbol (by decide) (by decide) (by decide), ht,
        scan_symbol (by decide) (by decide) (by decide), h rest hrest]
      rfl

/-! ## Fixed texts -/

def endsToken (c : Char) : Bool := !isPart c && c != '.' && c != '+' && c != '-'

def isClosed (cs : List Char) : Bool :=
  cs.all (fun c => c != '\'' && c != '"') && cs.getLast?.all endsToken

theorem isClosed_of_suffix {ds : List Char} (h : isClosed cs = true) (hd : ds <:+ cs) : isClosed ds = true := by
  obtain ⟨pre, rfl⟩ := hd
  rw [isClosed, Bool.and_eq_true, all_append, Bool.and_eq_true, List.getLast?_append] at h
  rw [isClosed, Bool.and_eq_true]
  refine ⟨h.1.2, ?_⟩
  cases hlast : ds.getLast? with
  | none => rfl
  | some d =>
    rw [hlast] at h
    exact h.2

theorem exists_endsToken (h : isClosed (c :: cs) = true) (hc : isPart c = true) : ∃ d ∈ cs, endsToken d = true := by
  rw [isClosed, Bool.and_eq_true, getLast?_eq_some_getLast (by simp)] at h
  rcases mem_cons.mp (getLast_mem (l := c :: cs) (by simp)) with heq | hmem
  · have hends : endsToken c = true := by
      rw [← heq]
      exact h.2
    rw [endsToken, hc] at hends
    exact absurd hends Bool.false_ne_true
  · exact ⟨_, hmem, h.2⟩

theorem dropWhile_ne_nil (h : ∃ d ∈ cs, endsToken d = true) : cs.dropWhile isPart ≠ [] := by
  obtain ⟨d, hd, hends⟩ := h
  intro hnil
  have htake : cs.takeWhile isPart = cs := by
    have := takeWhile_append_dropWhile (p := isPart) (l := cs)
    rwa [hnil, append_nil] at this
  have hpart : isPart d = true := by
    have hall := all_takeWhile (p := isPart) (l := cs)
    rw [htake] at hall
    exact all_eq_true.mp hall d hd
  rw [endsToken, hpart] at hends
  exact Bool.false_ne_true hends

theorem numberRest_ne_nil (h : ∃ d ∈ cs, endsToken d = true) : (numberRest last cs).2 ≠ [] := by
  fun_induction numberRest last cs with
  | case1 => simp at h
  | case2 last c cs hc ih =>
    refine ih ?_
    obtain ⟨d, hd, hends⟩ := h
    rcases mem_cons.mp hd with rfl | hd
    · simp only [endsToken, Bool.and_eq_true, Bool.not_eq_true', bne_iff_ne, ne_eq] at hends
      simp [hends.1.1.1, hends.1.1.2, hends.1.2, hends.2] at hc
    · exact ⟨d, hd, hends⟩
  | case3 => simp

theorem numberRest_append (h : (numberRest last cs).2 ≠ []) (rest : List Char) :
    numberRest last (cs ++ rest) = ((numberRest last cs).1, (numberRest last cs).2 ++ rest) := by
  fun_induction numberRest last cs with
  | case1 => exact absurd rfl h
  | case2 last c cs hc ih => rw [cons_append, numberRest, if_pos hc, ih h]
  | case3 last c cs hc => rw [cons_append, numberRest, if_neg hc]

theorem numberRest_suffix (last : Char) (cs : List Char) : (numberRest last cs).2 <:+ cs := by
  fun_induction numberRest last cs with
  | case1 => exact suffix_rfl
  | case2 last c cs _ ih => exact ih.trans (suffix_cons c cs)
  | case3 => exact suffix_rfl

theorem scan_append (h : isClosed cs = true) (rest : List Char) : scan (cs ++ rest) = scan cs ++ scan rest := by
  fun_induction scan cs with
  | case1 => rfl
  | case2 c cs hblank ih => rw [cons_append, scan, if_pos hblank, ih (isClosed_of_suffix h (suffix_cons c cs))]
  | case3 c cs _ hquote =>
    rw [isClosed, all_cons] at h
    rcases hquote with rfl | rfl <;> simp at h
  | case4 c cs hblank hquote hstart ih =>
    have hdrop := dropWhile_ne_nil (exists_endsToken h (by rw [isPart, hstart, Bool.true_or]))
    have htake : (cs.takeWhile isPart).length ≠ cs.length := by
      intro hlen
      have hsum := congrArg List.length (takeWhile_append_dropWhile (p := isPart) (l := cs))
      rw [length_append] at hsum
      exact hdrop (length_eq_zero_iff.mp (by omega))
    rw [cons_append, scan, if_neg hblank, if_neg hquote, if_pos hstart, takeWhile_append, if_neg htake,
      dropWhile_append, if_neg (by simpa using hdrop),
      ih (isClosed_of_suffix h ((dropWhile_suffix _).trans (suffix_cons c cs)))]
    rfl
  | case5 c cs hblank hquote hstart hdigit ih =>
    have hne : (numberRest c cs).2 ≠ [] :=
      numberRest_ne_nil (exists_endsToken h (by rw [isPart, hdigit, Bool.or_true]))
    rw [cons_append, scan, if_neg hblank, if_neg hquote, if_neg hstart, if_pos hdigit, numberRest_append hne,
      ih (isClosed_of_suffix h ((numberRest_suffix c cs).trans (suffix_cons c cs)))]
    rfl
  | case6 c cs hblank hquote hstart hdigit ih =>
    rw [cons_append, scan, if_neg hblank, if_neg hquote, if_neg hstart, if_neg hdigit,
      ih (isClosed_of_suffix h (suffix_cons c cs))]
    rfl

end AnimatedChart.Dependency.Token
