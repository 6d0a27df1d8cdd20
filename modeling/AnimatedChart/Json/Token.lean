import AnimatedChart.Json.Fragment

/-!
# Tokens

`scan` cuts a text into tokens, each with the blanks before it.
-/

namespace AnimatedChart.Json

inductive Token where
  | lbracket
  | rbracket
  | lbrace
  | rbrace
  | comma
  | colon
  | null
  | bool (b : Bool)
  | number (literal : String)
  | string (body : String)
  /-- No token starts here. -/
  | bad
deriving Repr, DecidableEq, Inhabited

structure Lexeme where
  blank : String
  token : Token
deriving Repr, DecidableEq, Inhabited

namespace Token

def isBlank (c : Char) : Bool := c == ' ' || c == '\t' || c == '\n' || c == '\r'

def body : List Char → Option (List Char × List Char)
  | [] => none
  | '"' :: rest => some ([], rest)
  | '\\' :: 'u' :: a :: b :: c :: d :: rest =>
    if (Escape.unit? a b c d).isSome then
      (body rest).map fun r => ('\\' :: 'u' :: a :: b :: c :: d :: r.1, r.2)
    else none
  | '\\' :: l :: rest => if (Escape.letter? l).isSome then (body rest).map fun r => ('\\' :: l :: r.1, r.2) else none
  | c :: rest => if c.toNat < 0x20 || c == '\\' then none else (body rest).map fun r => (c :: r.1, r.2)
termination_by cs => cs.length

theorem body_length (cs : List Char) : ∀ r, body cs = some r → r.2.length < cs.length := by
  fun_induction body cs with
  | case1 => simp
  | case2 rest => simp
  | case3 rest a b c d _ ih =>
    intro r h
    obtain ⟨u, hu, rfl⟩ := Option.map_eq_some_iff.1 h
    have := ih u hu
    simp only [List.length_cons]
    omega
  | case4 => simp
  | case5 rest l _ _ ih =>
    intro r h
    obtain ⟨u, hu, rfl⟩ := Option.map_eq_some_iff.1 h
    have := ih u hu
    simp only [List.length_cons]
    omega
  | case6 => simp
  | case7 => simp
  | case8 c rest _ _ _ _ ih =>
    intro r h
    obtain ⟨u, hu, rfl⟩ := Option.map_eq_some_iff.1 h
    have := ih u hu
    simp only [List.length_cons]
    omega

def digits (cs : List Char) : Option (List Char × List Char) :=
  let ds := cs.takeWhile Char.isDigit
  if ds.isEmpty then none else some (ds, cs.dropWhile Char.isDigit)

def whole : List Char → Option (List Char × List Char)
  | '0' :: rest => some (['0'], rest)
  | cs => digits cs

def fraction : List Char → Option (List Char × List Char)
  | '.' :: rest => (digits rest).map fun r => ('.' :: r.1, r.2)
  | cs => some ([], cs)

def sign : List Char → List Char × List Char
  | '+' :: rest => (['+'], rest)
  | '-' :: rest => (['-'], rest)
  | cs => ([], cs)

def exponent : List Char → Option (List Char × List Char)
  | c :: rest =>
    if c == 'e' || c == 'E' then
      let s := sign rest
      (digits s.2).map fun r => (c :: s.1 ++ r.1, r.2)
    else some ([], c :: rest)
  | [] => some ([], [])

def magnitude (cs : List Char) : Option (List Char × List Char) := do
  let w ← whole cs
  let f ← fraction w.2
  let e ← exponent f.2
  return (w.1 ++ f.1 ++ e.1, e.2)

theorem digits_length {cs : List Char} {r : List Char × List Char} (h : digits cs = some r) :
    r.2.length < cs.length := by
  simp only [digits] at h
  split at h
  · simp at h
  · next hne =>
    obtain rfl := Option.some.inj h
    have hsum := congrArg List.length (List.takeWhile_append_dropWhile (p := Char.isDigit) (l := cs))
    simp only [List.length_append] at hsum
    have : (cs.takeWhile Char.isDigit).length ≠ 0 := by simpa using hne
    simp only
    omega

theorem whole_length {cs : List Char} {r : List Char × List Char} (h : whole cs = some r) : r.2.length < cs.length := by
  unfold whole at h
  split at h
  · obtain rfl := Option.some.inj h
    simp
  · exact digits_length h

theorem fraction_length {cs : List Char} {r : List Char × List Char} (h : fraction cs = some r) :
    r.2.length ≤ cs.length := by
  unfold fraction at h
  split at h
  · obtain ⟨u, hu, rfl⟩ := Option.map_eq_some_iff.1 h
    have := digits_length hu
    simp only [List.length_cons]
    omega
  · obtain rfl := Option.some.inj h
    simp

theorem sign_length (cs : List Char) : (sign cs).2.length ≤ cs.length := by
  unfold sign
  split <;> simp

theorem exponent_length {cs : List Char} {r : List Char × List Char} (h : exponent cs = some r) :
    r.2.length ≤ cs.length := by
  unfold exponent at h
  split at h
  · next c rest =>
    split at h
    · obtain ⟨u, hu, rfl⟩ := Option.map_eq_some_iff.1 h
      have := digits_length hu
      have := sign_length rest
      simp only [List.length_cons]
      omega
    · obtain rfl := Option.some.inj h
      simp
  · obtain rfl := Option.some.inj h
    simp

theorem magnitude_length {cs : List Char} {r : List Char × List Char} (h : magnitude cs = some r) :
    r.2.length < cs.length := by
  simp only [magnitude, bind, Option.bind_eq_some_iff] at h
  obtain ⟨w, hw, f, hf, e, he, hr⟩ := h
  obtain rfl := Option.some.inj hr
  have := whole_length hw
  have := fraction_length hf
  have := exponent_length he
  simp only
  omega

def word : List Char → List Char → Option (List Char)
  | [], cs => some cs
  | _ :: _, [] => none
  | w :: ws, c :: cs => if w = c then word ws cs else none

theorem word_length : ∀ {ws cs rest : List Char}, word ws cs = some rest → rest.length ≤ cs.length
  | [], cs, rest, h => by simp [word] at h; simp [h]
  | _ :: _, [], rest, h => by simp [word] at h
  | w :: ws, c :: cs, rest, h => by
    simp only [word] at h
    split at h
    · have := word_length h
      simp only [List.length_cons]
      omega
    · simp at h

def at? (c : Char) (cs : List Char) : Option (Token × List Char) :=
  match c with
  | '[' => some (lbracket, cs)
  | ']' => some (rbracket, cs)
  | '{' => some (lbrace, cs)
  | '}' => some (rbrace, cs)
  | ',' => some (comma, cs)
  | ':' => some (colon, cs)
  | '"' => (body cs).map fun r => (string (String.ofList r.1), r.2)
  | 'n' => (word ['u', 'l', 'l'] cs).map (null, ·)
  | 't' => (word ['r', 'u', 'e'] cs).map (bool true, ·)
  | 'f' => (word ['a', 'l', 's', 'e'] cs).map (bool false, ·)
  | '-' => (magnitude cs).map fun r => (number (String.ofList ('-' :: r.1)), r.2)
  | c => (magnitude (c :: cs)).map fun r => (number (String.ofList r.1), r.2)

theorem at?_length {c : Char} {cs : List Char} {r : Token × List Char} (h : at? c cs = some r) :
    r.2.length ≤ cs.length := by
  have spelled {ws : List Char} {t : Token} (hr : (word ws cs).map (t, ·) = some r) :
      r.2.length ≤ cs.length := by
    obtain ⟨u, hu, rfl⟩ := Option.map_eq_some_iff.1 hr
    exact word_length hu
  unfold at? at h
  split at h
  · simp [← Option.some.inj h]
  · simp [← Option.some.inj h]
  · simp [← Option.some.inj h]
  · simp [← Option.some.inj h]
  · simp [← Option.some.inj h]
  · simp [← Option.some.inj h]
  · obtain ⟨u, hu, rfl⟩ := Option.map_eq_some_iff.1 h
    exact Nat.le_of_lt (body_length _ _ hu)
  · exact spelled h
  · exact spelled h
  · exact spelled h
  · obtain ⟨u, hu, rfl⟩ := Option.map_eq_some_iff.1 h
    exact Nat.le_of_lt (magnitude_length hu)
  · obtain ⟨u, hu, rfl⟩ := Option.map_eq_some_iff.1 h
    have hlt := magnitude_length hu
    rw [List.length_cons] at hlt
    exact Nat.le_of_lt_succ hlt

def scan (cs : List Char) : List Lexeme :=
  let blank := String.ofList (cs.takeWhile isBlank)
  match _hd : cs.dropWhile isBlank with
  | [] => []
  | c :: rest =>
    match _ht : at? c rest with
    | none => [⟨blank, bad⟩]
    | some r => ⟨blank, r.1⟩ :: scan r.2
termination_by cs.length
decreasing_by
  have h1 := at?_length _ht
  have h2 : (cs.dropWhile isBlank).length ≤ cs.length := (List.dropWhile_sublist _).length_le
  rw [_hd, List.length_cons] at h2
  omega

end Token
end AnimatedChart.Json
