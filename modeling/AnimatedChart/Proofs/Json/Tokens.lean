import AnimatedChart.Json.Parser
import AnimatedChart.Json.Printer
import AnimatedChart.Proofs.Decimal.Roundtrip

/-!
# Tokens of printed fragments

A fragment keeps number literals and string bodies as they are spelled. `Fragment.Spelled` says that the tokenizer takes
each of them for what it is, wherever it is printed.
-/

open List

namespace AnimatedChart.Json

open Text

namespace Escape

theorem hexValue_hexDigit : ∀ n < 16, hexValue? (hexDigit n) = some n := by decide

theorem unit_unitDigits {n : Nat} (h : n < 0x10000) :
    unit? (hexDigit (n / 4096 % 16)) (hexDigit (n / 256 % 16)) (hexDigit (n / 16 % 16)) (hexDigit (n % 16))
      = some n := by
  simp only [unit?, bind, hexValue_hexDigit _ (Nat.mod_lt _ (by decide : 0 < 16)), Option.bind_some]
  congr 1
  omega

/-! ## Decoding piece by piece -/

theorem decode_plain {c : Char} (hc : c ≠ '\\') (rest : List Char) : decode (c :: rest) = c :: decode rest := by
  rw [decode]
  all_goals
    intros
    simp_all

theorem decode_letter {l ch : Char} (h : letter? l = some ch) (rest : List Char) :
    decode ('\\' :: l :: rest) = ch :: decode rest := by
  have hu : l ≠ 'u' := by
    rintro rfl
    simp [letter?] at h
  rw [decode]
  · rw [h]
  all_goals
    intros
    simp_all

theorem decode_unit {a b c d : Char} {n : Nat} (h : unit? a b c d = some n) (hn : isSurrogate n = false)
    (rest : List Char) : decode ('\\' :: 'u' :: a :: b :: c :: d :: rest) = Char.ofNat n :: decode rest := by
  by_cases hpair : ∃ e f g k tail, rest = '\\' :: 'u' :: e :: f :: g :: k :: tail
  · obtain ⟨e, f, g, k, tail, rfl⟩ := hpair
    rw [decode, h]
    simp only [hn]
    rfl
  · rw [decode]
    · rw [h]
      simp only [hn]
      rfl
    · intro e f g k tail heq
      exact hpair ⟨e, f, g, k, tail, heq⟩

theorem toNat_lt_of_numbered {html : Bool} {c : Char} (h : (c.toNat < 0x20 || c.toNat == 0x2028 || c.toNat == 0x2029
      || (html && (c == '<' || c == '>' || c == '&'))) = true) : c.toNat < 0x2030 := by
  simp only [Bool.or_eq_true, Bool.and_eq_true, decide_eq_true_eq, beq_iff_eq] at h
  rcases h with ((h | h) | h) | ⟨_, (rfl | rfl) | rfl⟩
  · omega
  · omega
  · omega
  · decide
  · decide
  · decide

theorem decode_encodeChar (html : Bool) (c : Char) (rest : List Char) :
    decode (encodeChar html c ++ rest) = c :: decode rest := by
  unfold encodeChar
  split
  · next h => rw [h]; exact decode_letter rfl rest
  split
  · next h => rw [h]; exact decode_letter rfl rest
  split
  · next h => rw [h]; exact decode_letter rfl rest
  split
  · next h => rw [h]; exact decode_letter rfl rest
  split
  · next h => rw [h]; exact decode_letter rfl rest
  split
  · next h => rw [h]; exact decode_letter rfl rest
  split
  · next h => rw [h]; exact decode_letter rfl rest
  split
  · next h =>
    have hlt := toNat_lt_of_numbered h
    have hsurrogate : isSurrogate c.toNat = false := by
      simp only [isSurrogate, Bool.and_eq_false_iff, decide_eq_false_iff_not]
      omega
    show decode ('\\' :: 'u' :: _ :: _ :: _ :: _ :: rest) = _
    rw [decode_unit (unit_unitDigits (by omega)) hsurrogate, Char.ofNat_toNat]
  · next h => exact decode_plain (by assumption) rest

theorem decode_encode (html : Bool) (cs : List Char) : decode (encode html cs) = cs := by
  induction cs with
  | nil => simp [encode, decode]
  | cons c cs ih =>
    rw [encode, flatMap_cons, decode_encodeChar]
    rw [encode] at ih
    rw [ih]

end Escape

/-! ## Bodies in a text -/

namespace Token

theorem body_quote (rest : List Char) : body ('"' :: rest) = some ([], rest) := by rw [body]

theorem body_plain {c : Char} (hquote : c ≠ '"') (hslash : c ≠ '\\') (hcontrol : ¬c.toNat < 0x20)
    (rest : List Char) : body (c :: rest) = (body rest).map fun r => (c :: r.1, r.2) := by
  rw [body]
  · rw [if_neg (by simp [hslash, Nat.not_lt.mp hcontrol])]
  all_goals
    intros
    simp_all

theorem body_letter {l : Char} (h : (Escape.letter? l).isSome = true) (rest : List Char) :
    body ('\\' :: l :: rest) = (body rest).map fun r => ('\\' :: l :: r.1, r.2) := by
  have hu : l ≠ 'u' := by
    rintro rfl
    simp [Escape.letter?] at h
  rw [body]
  · rw [if_pos h]
  · intros
    simp_all

theorem body_unit {a b c d : Char} (h : (Escape.unit? a b c d).isSome = true) (rest : List Char) :
    body ('\\' :: 'u' :: a :: b :: c :: d :: rest)
      = (body rest).map fun r => ('\\' :: 'u' :: a :: b :: c :: d :: r.1, r.2) := by
  rw [body, if_pos h]

theorem body_append {cs : List Char} : ∀ {r : List Char × List Char}, body cs = some r →
    ∀ rest, body (r.1 ++ '"' :: rest) = some (r.1, rest) := by
  fun_induction body cs with
  | case1 | case4 | case6 | case7 =>
    intro r h
    exact absurd h (by simp)
  | case2 tail =>
    intro r h rest
    rw [← Option.some.inj h]
    exact body_quote rest
  | case3 tail a b c d hunit ih =>
    intro r h rest
    obtain ⟨u, hu, rfl⟩ := Option.map_eq_some_iff.1 h
    simp only [cons_append]
    rw [body_unit hunit, ih hu rest]
    rfl
  | case5 tail l _ hletter ih =>
    intro r h rest
    obtain ⟨u, hu, rfl⟩ := Option.map_eq_some_iff.1 h
    simp only [cons_append]
    rw [body_letter hletter, ih hu rest]
    rfl
  | case8 c tail hquote _ _ hplain ih =>
    intro r h rest
    obtain ⟨u, hu, rfl⟩ := Option.map_eq_some_iff.1 h
    simp only [Bool.or_eq_true, decide_eq_true_eq, beq_iff_eq, not_or] at hplain
    simp only [cons_append]
    rw [body_plain (by intro heq; exact hquote heq) hplain.2 hplain.1, ih hu rest]
    rfl

theorem body_encodeChar (html : Bool) (c : Char) (rest : List Char) : body (Escape.encodeChar html c ++ rest)
      = (body rest).map fun r => (Escape.encodeChar html c ++ r.1, r.2) := by
  unfold Escape.encodeChar
  split
  · exact body_letter rfl rest
  split
  · exact body_letter rfl rest
  split
  · exact body_letter rfl rest
  split
  · exact body_letter rfl rest
  split
  · exact body_letter rfl rest
  split
  · exact body_letter rfl rest
  split
  · exact body_letter rfl rest
  split
  · next hnum =>
    have hlt := Escape.toNat_lt_of_numbered hnum
    exact body_unit (by rw [Escape.unit_unitDigits (by omega)]; rfl) rest
  · next hquote hslash _ _ _ _ _ hplain =>
    simp only [Bool.or_eq_true, decide_eq_true_eq, not_or] at hplain
    exact body_plain hquote hslash hplain.1.1.1 rest

theorem body_encode (html : Bool) (cs rest : List Char) :
    body (Escape.encode html cs ++ '"' :: rest) = some (Escape.encode html cs, rest) := by
  induction cs with
  | nil => exact body_quote rest
  | cons c cs ih =>
    rw [Escape.encode] at ih ⊢
    rw [flatMap_cons, append_assoc, body_encodeChar, ih]
    rfl

end Token

variable {cs ds f m rest x : List Char} {r : List Char × List Char}

namespace Token

def stops (rest : List Char) : Bool :=
  !(rest.head?.any fun c => c.isDigit || c == '.' || c == 'e' || c == 'E')

theorem head_of_stops (h : stops rest = true) : rest.head?.any Char.isDigit = false := by
  cases rest with
  | nil => rfl
  | cons c cs =>
    simp only [stops, head?_cons, Option.any_some, Bool.not_eq_true', Bool.or_eq_false_iff] at h
    exact h.1.1.1

/-! ## Numbers

Each part of a number is read alike when more text follows that does not go on with the number. -/

theorem digits_eq_some (h : digits cs = some r) :
    r.1 ≠ [] ∧ r.1.all Char.isDigit = true ∧ r.2.head?.any Char.isDigit = false ∧ cs = r.1 ++ r.2 := by
  simp only [digits] at h
  split at h
  · exact absurd h (by simp)
  · next hne =>
    cases h
    refine ⟨by simpa using hne, ?_, ?_, takeWhile_append_dropWhile.symm⟩
    · simp
    · have := head?_dropWhile_not Char.isDigit cs
      cases hd : cs.dropWhile Char.isDigit with
      | nil => rfl
      | cons c tail =>
        rw [hd] at this
        simpa using this

theorem digits_append (hne : ds ≠ []) (hall : ds.all Char.isDigit = true) (hrest : rest.head?.any Char.isDigit = false) :
    digits (ds ++ rest) = some (ds, rest) := by
  simp only [digits, Decimal.takeWhile_digits hall hrest, Decimal.dropWhile_digits hall hrest]
  rw [if_neg (by simpa using hne)]

def IsDigits (ds : List Char) : Prop := ds ≠ [] ∧ ds.all Char.isDigit = true

def IsWhole (w : List Char) : Prop := w = ['0'] ∨ IsDigits w ∧ w.head? ≠ some '0'

def IsFraction (f : List Char) : Prop := f = [] ∨ ∃ ds, f = '.' :: ds ∧ IsDigits ds

def IsExponent (x : List Char) : Prop :=
  x = [] ∨ ∃ c s ds, x = c :: (s ++ ds) ∧ (c = 'e' ∨ c = 'E') ∧ (s = [] ∨ s = ['+'] ∨ s = ['-']) ∧ IsDigits ds

def IsMagnitude (m : List Char) : Prop :=
  ∃ w f x, m = w ++ (f ++ x) ∧ IsWhole w ∧ IsFraction f ∧ IsExponent x

theorem IsDigits.head (h : IsDigits ds) : ∃ c cs, ds = c :: cs ∧ c.isDigit = true := by
  cases ds with
  | nil => exact absurd rfl h.1
  | cons c cs =>
    have hall := h.2
    rw [all_cons, Bool.and_eq_true] at hall
    exact ⟨c, cs, rfl, hall.1⟩

theorem IsDigits.last {ds : List Char} (h : IsDigits ds) (pre : List Char) :
    (pre ++ ds).getLast?.any Char.isDigit = true := by
  obtain ⟨hne, hall⟩ := h
  have hlast : (pre ++ ds).getLast? = some (ds.getLast hne) := by
    rw [getLast?_append_of_ne_nil _ hne, getLast?_eq_some_getLast hne]
  rw [hlast, Option.any_some]
  exact all_eq_true.mp hall _ (getLast_mem hne)

theorem IsMagnitude.last {m : List Char} (h : IsMagnitude m) (pre : List Char) :
    (pre ++ m).getLast?.any Char.isDigit = true := by
  obtain ⟨w, f, x, rfl, hw, hf, hx⟩ := h
  rcases hx with rfl | ⟨c, s, ds, rfl, -, -, hds⟩
  · rcases hf with rfl | ⟨ds, rfl, hds⟩
    · rcases hw with rfl | ⟨hds, -⟩
      · have hzero : IsDigits ['0'] := ⟨cons_ne_nil _ _, rfl⟩
        simpa only [append_nil] using hzero.last pre
      · simpa using hds.last pre
    · simpa using hds.last (pre ++ (w ++ ['.']))
  · simpa using hds.last (pre ++ (w ++ (f ++ c :: s)))

theorem whole_append {w : List Char} (h : IsWhole w) (hrest : rest.head?.any Char.isDigit = false) :
    whole (w ++ rest) = some (w, rest) := by
  rcases h with rfl | ⟨hdigits, hhead⟩
  · rfl
  · cases w with
    | nil => exact absurd rfl hdigits.1
    | cons c cs =>
      have hc : c ≠ '0' := by simpa using hhead
      have hwhole : whole (c :: (cs ++ rest)) = digits (c :: (cs ++ rest)) := by
        unfold whole
        split
        · next heq => exact absurd (List.cons.inj heq).1 hc
        · rfl
      rw [cons_append, hwhole]
      exact digits_append hdigits.1 hdigits.2 hrest

theorem whole_eq_some (h : whole cs = some r) : IsWhole r.1 := by
  unfold whole at h
  split at h
  · rw [← Option.some.inj h]
    exact .inl rfl
  · next hzero =>
    obtain ⟨hne, hall, _, heq⟩ := digits_eq_some h
    refine .inr ⟨⟨hne, hall⟩, ?_⟩
    cases hr : r.1 with
    | nil => exact absurd hr hne
    | cons c tail =>
      rw [hr] at heq
      intro hhead
      rw [head?_cons, Option.some.injEq] at hhead
      exact hzero (tail ++ r.2) (by rw [heq, hhead]; rfl)

theorem fraction_append (h : IsFraction f) (hdigit : rest.head?.any Char.isDigit = false)
    (hpoint : rest.head? ≠ some '.') : fraction (f ++ rest) = some (f, rest) := by
  rcases h with rfl | ⟨ds, rfl, hds⟩
  · unfold fraction
    split
    · next heq =>
      rw [nil_append] at heq
      rw [heq] at hpoint
      exact absurd rfl hpoint
    · rfl
  · show (digits (ds ++ rest)).map _ = _
    rw [digits_append hds.1 hds.2 hdigit]
    rfl

theorem fraction_eq_some (h : fraction cs = some r) : IsFraction r.1 := by
  unfold fraction at h
  split at h
  · obtain ⟨u, hu, rfl⟩ := Option.map_eq_some_iff.1 h
    obtain ⟨hne, hall, _, _⟩ := digits_eq_some hu
    exact .inr ⟨u.1, rfl, hne, hall⟩
  · rw [← Option.some.inj h]
    exact .inl rfl

theorem exponent_append (h : IsExponent x) (hrest : stops rest = true) : exponent (x ++ rest) = some (x, rest) := by
  rcases h with rfl | ⟨c, s, ds, rfl, hc, hs, hds⟩
  · rw [nil_append]
    cases rest with
    | nil => rfl
    | cons c cs =>
      simp only [stops, head?_cons, Option.any_some, Bool.not_eq_true', Bool.or_eq_false_iff] at hrest
      rw [exponent, if_neg (by simp [hrest.1.2, hrest.2])]
  · have hsign : sign (s ++ (ds ++ rest)) = (s, ds ++ rest) := by
      rcases hs with rfl | rfl | rfl
      · obtain ⟨d, tail, rfl, hd⟩ := hds.head
        rw [nil_append, cons_append]
        unfold sign
        split
        · next heq =>
          rw [(List.cons.inj heq).1] at hd
          exact absurd hd (by decide)
        · next heq =>
          rw [(List.cons.inj heq).1] at hd
          exact absurd hd (by decide)
        · rfl
      · rfl
      · rfl
    simp only [cons_append, append_assoc]
    rw [exponent, if_pos (by rcases hc with rfl | rfl <;> rfl)]
    simp only [hsign]
    rw [digits_append hds.1 hds.2 (head_of_stops hrest)]
    rfl

theorem exponent_eq_some (h : exponent cs = some r) : IsExponent r.1 := by
  unfold exponent at h
  split at h
  · next c rest =>
    split at h
    · next hc =>
      obtain ⟨u, hu, rfl⟩ := Option.map_eq_some_iff.1 h
      obtain ⟨hne, hall, _, _⟩ := digits_eq_some hu
      refine .inr ⟨c, (sign rest).1, u.1, rfl, by simpa using hc, ?_, hne, hall⟩
      unfold sign
      split
      · exact .inr (.inl rfl)
      · exact .inr (.inr rfl)
      · exact .inl rfl
    · rw [← Option.some.inj h]
      exact .inl rfl
  · rw [← Option.some.inj h]
    exact .inl rfl

theorem head_exponent (h : IsExponent x) (hrest : stops rest = true) :
    (x ++ rest).head?.any Char.isDigit = false ∧ (x ++ rest).head? ≠ some '.' := by
  rcases h with rfl | ⟨c, s, ds, rfl, hc, _, _⟩
  · refine ⟨head_of_stops hrest, ?_⟩
    cases rest with
    | nil => simp
    | cons c cs =>
      simp only [stops, head?_cons, Option.any_some, Bool.not_eq_true', Bool.or_eq_false_iff] at hrest
      simpa using hrest.1.1.2
  · rcases hc with rfl | rfl <;> exact ⟨rfl, by simp⟩

theorem head_fraction (h : IsFraction f) (hrest : rest.head?.any Char.isDigit = false) :
    (f ++ rest).head?.any Char.isDigit = false := by
  rcases h with rfl | ⟨ds, rfl, _⟩
  · exact hrest
  · rfl

theorem magnitude_append (h : IsMagnitude m) (hrest : stops rest = true) : magnitude (m ++ rest) = some (m, rest) := by
  obtain ⟨w, f, x, rfl, hw, hf, hx⟩ := h
  obtain ⟨hdigit, hpoint⟩ := head_exponent hx hrest
  simp only [append_assoc]
  simp only [magnitude, whole_append hw (head_fraction hf hdigit), fraction_append hf hdigit hpoint,
    exponent_append hx hrest, bind, Option.bind_some]
  rw [append_assoc]
  rfl

theorem magnitude_eq_some (h : magnitude cs = some r) : IsMagnitude r.1 := by
  simp only [magnitude, bind, Option.bind_eq_some_iff] at h
  obtain ⟨w, hw, f, hf, x, hx, hr⟩ := h
  cases hr
  exact ⟨w.1, f.1, x.1, by simp [append_assoc], whole_eq_some hw, fraction_eq_some hf, exponent_eq_some hx⟩

theorem IsMagnitude.head (h : IsMagnitude m) : ∃ c cs, m = c :: cs ∧ c.isDigit = true := by
  obtain ⟨w, f, x, rfl, hw, _, _⟩ := h
  rcases hw with rfl | ⟨hdigits, _⟩
  · exact ⟨'0', f ++ x, rfl, rfl⟩
  · obtain ⟨c, cs, rfl, hc⟩ := hdigits.head
    exact ⟨c, cs ++ (f ++ x), rfl, hc⟩

/-! ## Tokens as they are spelled -/

def IsNumber (l : String) : Prop := ∃ m, IsMagnitude m ∧ (l.toList = m ∨ l.toList = '-' :: m)

def IsBody (b : String) : Prop := ∀ rest, body (b.toList ++ '"' :: rest) = some (b.toList, rest)

def Spelled : Token → Prop
  | number l => IsNumber l
  | string b => IsBody b
  | _ => True

theorem at?_digit {c : Char} (hc : c.isDigit = true) (cs : List Char) :
    at? c cs = (magnitude (c :: cs)).map fun r => (number (String.ofList r.1), r.2) := by
  unfold at?
  split
  iterate 11 exact absurd hc (by decide)
  rfl

theorem IsNumber.at? {l : String} (h : IsNumber l) : ∃ c cs, l.toList = c :: cs ∧ isBlank c = false
      ∧ ∀ rest, stops rest = true → Token.at? c (cs ++ rest) = some (number l, rest) := by
  obtain ⟨m, hm, hl⟩ := h
  rcases hl with hl | hl
  · obtain ⟨c, cs, rfl, hc⟩ := hm.head
    refine ⟨c, cs, hl, ?_, fun rest hrest => ?_⟩
    · by_contra hblank
      simp only [Bool.not_eq_false, isBlank, Bool.or_eq_true, beq_iff_eq] at hblank
      rcases hblank with ((rfl | rfl) | rfl) | rfl <;> exact absurd hc (by decide)
    · rw [at?_digit hc, ← cons_append, magnitude_append hm hrest]
      simp only [Option.map_some, ← hl, String.ofList_toList]
  · refine ⟨'-', m, hl, rfl, fun rest hrest => ?_⟩
    show (magnitude (m ++ rest)).map _ = _
    rw [magnitude_append hm hrest]
    simp only [Option.map_some, ← hl, String.ofList_toList]

theorem at?_spelled {c : Char} {cs : List Char} {r : Token × List Char} (h : at? c cs = some r) : r.1.Spelled := by
  have spelled {ws : List Char} {t : Token} (hr : (word ws cs).map (t, ·) = some r) (ht : t.Spelled) :
      r.1.Spelled := by
    obtain ⟨u, hu, rfl⟩ := Option.map_eq_some_iff.1 hr
    exact ht
  unfold at? at h
  split at h
  · rw [← Option.some.inj h]; trivial
  · rw [← Option.some.inj h]; trivial
  · rw [← Option.some.inj h]; trivial
  · rw [← Option.some.inj h]; trivial
  · rw [← Option.some.inj h]; trivial
  · rw [← Option.some.inj h]; trivial
  · obtain ⟨u, hu, rfl⟩ := Option.map_eq_some_iff.1 h
    intro rest
    rw [String.toList_ofList]
    exact body_append hu rest
  · exact spelled h trivial
  · exact spelled h trivial
  · exact spelled h trivial
  · obtain ⟨u, hu, rfl⟩ := Option.map_eq_some_iff.1 h
    exact ⟨u.1, magnitude_eq_some hu, .inr (String.toList_ofList ..)⟩
  · obtain ⟨u, hu, rfl⟩ := Option.map_eq_some_iff.1 h
    exact ⟨u.1, magnitude_eq_some hu, .inl (String.toList_ofList ..)⟩

theorem scan_spelled (cs : List Char) : ∀ x ∈ scan cs, x.token.Spelled := by
  fun_induction scan cs with
  | case1 => simp
  | case2 =>
    intro x hx
    rw [mem_singleton] at hx
    rw [hx]
    trivial
  | case3 cs blank c rest hd r ht ih =>
    intro x hx
    rcases mem_cons.mp hx with rfl | hx
    · exact at?_spelled ht
    · exact ih x hx

theorem scan_token {bs rest : List Char} {c : Char} {cs : List Char} {t : Token} (hbs : bs.all isBlank = true)
    (hc : isBlank c = false) (ht : at? c cs = some (t, rest)) :
    scan (bs ++ c :: cs) = ⟨String.ofList bs, t⟩ :: scan rest := by
  have htake : (bs ++ c :: cs).takeWhile isBlank = bs := by
    rw [takeWhile_append_of_pos (by simpa using hbs), takeWhile_cons_of_neg (by simp [hc]),
      append_nil]
  have hdrop : (bs ++ c :: cs).dropWhile isBlank = c :: cs := by
    rw [dropWhile_append_of_pos (by simpa using hbs), dropWhile_cons_of_neg (by simp [hc])]
  rw [scan, htake]
  split
  · next h => rw [hdrop] at h; exact absurd h (by simp)
  · next c' cs' h =>
    rw [hdrop] at h
    obtain ⟨rfl, rfl⟩ := List.cons.inj h
    split
    · next h => rw [ht] at h; exact absurd h (by simp)
    · next r h =>
      rw [ht] at h
      rw [← Option.some.inj h]

theorem scan_blanks {bs : List Char} (hbs : bs.all isBlank = true) : scan bs = [] := by
  have hdrop : bs.dropWhile isBlank = [] := by
    rw [← append_nil bs, dropWhile_append_of_pos (by simpa using hbs)]
    rfl
  rw [scan]
  split
  · rfl
  · next c cs h => rw [hdrop] at h; exact absurd h (by simp)

end Token
end AnimatedChart.Json
