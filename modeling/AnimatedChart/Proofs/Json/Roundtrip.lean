import AnimatedChart.Proofs.Json.Parsing

/-!
# Printed fragments read back

Printing a fragment and parsing the text gives the fragment back with the blanks of its print (`Fragment.spaced`), unless
containers nest too deep for the parser (`Fragment.fits`).
-/

open List String AnimatedChart.Json.Token

namespace AnimatedChart.Json

variable {rest : List Char} (s : Style) (depth : Nat) {exp : Expected} {stack : List Frame}

namespace Fragment

mutual

def bare : Fragment → Fragment
  | array items _ => array (bareAll items) []
  | object members _ => object (bareMembers members) []
  | f => f

def bareAll : List Fragment → List Fragment
  | [] => []
  | f :: fs => f.bare :: bareAll fs

def bareMembers : List (String × Fragment) → List (String × Fragment)
  | [] => []
  | (k, f) :: fs => (k, f.bare) :: bareMembers fs

end

theorem bareAll_eq_map (fs : List Fragment) : bareAll fs = fs.map bare := by
  induction fs with
  | nil => rfl
  | cons f fs ih => rw [bareAll, ih, map_cons]

theorem bareMembers_eq_map (ms : List (String × Fragment)) : bareMembers ms = ms.map fun m => (m.1, m.2.bare) := by
  induction ms with
  | nil => rfl
  | cons m ms ih => rw [bareMembers, ih, map_cons]

mutual

theorem bare_bare : ∀ f : Fragment, f.bare.bare = f.bare
  | null | bool _ | number _ | string _ => rfl
  | array items _ => by rw [bare, bare, bareAll_bareAll items]
  | object members _ => by rw [bare, bare, bareMembers_bareMembers members]

theorem bareAll_bareAll : ∀ fs : List Fragment, bareAll (bareAll fs) = bareAll fs
  | [] => rfl
  | f :: fs => by rw [bareAll, bareAll, bare_bare f, bareAll_bareAll fs]

theorem bareMembers_bareMembers : ∀ ms : List (String × Fragment), bareMembers (bareMembers ms) = bareMembers ms
  | [] => rfl
  | (k, f) :: ms => by rw [bareMembers, bareMembers, bare_bare f, bareMembers_bareMembers ms]

end

mutual

theorem write_bare (s : Style) : ∀ (f : Fragment) (depth : Nat) (rest : List Char),
    f.bare.write s depth rest = f.write s depth rest
  | null, _, _ | bool _, _, _ | number _, _, _ | string _, _, _ => rfl
  | array [] _, _, _ | object [] _, _, _ => rfl
  | array (v :: vs) _, depth, rest => by simp only [bare, bareAll, write, write_bare s v, writeItems_bare s vs]
  | object ((k, v) :: ms) _, depth, rest => by
    simp only [bare, bareMembers, write, write_bare s v, writeMembers_bare s ms]

theorem writeItems_bare (s : Style) : ∀ (fs : List Fragment) (depth : Nat) (rest : List Char),
    writeItems s depth (bareAll fs) rest = writeItems s depth fs rest
  | [], _, _ => rfl
  | f :: fs, depth, rest => by simp only [bareAll, writeItems, write_bare s f, writeItems_bare s fs]

theorem writeMembers_bare (s : Style) : ∀ (ms : List (String × Fragment)) (depth : Nat) (rest : List Char),
    writeMembers s depth (bareMembers ms) rest = writeMembers s depth ms rest
  | [], _, _ => rfl
  | (k, f) :: ms, depth, rest => by simp only [bareMembers, writeMembers, write_bare s f, writeMembers_bare s ms]

end

theorem pretty_of_bare_eq {f f' : Fragment} (h : f.bare = f'.bare) : f.pretty = f'.pretty := by
  rw [pretty, ← write_bare, h, write_bare, pretty]

mutual

def fits (depth : Nat) : Fragment → Bool
  | array items _ => decide (depth < maxDepth) && fitsAll (depth + 1) items
  | object members _ => decide (depth < maxDepth) && fitsMembers (depth + 1) members
  | _ => true

def fitsAll (depth : Nat) : List Fragment → Bool
  | [] => true
  | f :: fs => f.fits depth && fitsAll depth fs

def fitsMembers (depth : Nat) : List (String × Fragment) → Bool
  | [] => true
  | (_, f) :: fs => f.fits depth && fitsMembers depth fs

end

mutual

theorem fits_iff : ∀ (f : Fragment) {n : Nat}, n ≤ maxDepth → (f.fits n = true ↔ n + f.depth ≤ maxDepth)
  | null, _, hn | bool _, _, hn | number _, _, hn | string _, _, hn => by simpa [fits, depth] using hn
  | array vs _, n, _ => by
    rw [fits, depth, Bool.and_eq_true, decide_eq_true_eq]
    constructor
    · rintro ⟨hlt, hvs⟩
      have := (fitsAll_iff vs hlt).mp hvs
      omega
    · intro h
      have hlt : n < maxDepth := by omega
      exact ⟨hlt, (fitsAll_iff vs hlt).mpr (by omega)⟩
  | object ms _, n, _ => by
    rw [fits, depth, Bool.and_eq_true, decide_eq_true_eq]
    constructor
    · rintro ⟨hlt, hms⟩
      have := (fitsMembers_iff ms hlt).mp hms
      omega
    · intro h
      have hlt : n < maxDepth := by omega
      exact ⟨hlt, (fitsMembers_iff ms hlt).mpr (by omega)⟩

theorem fitsAll_iff : ∀ (fs : List Fragment) {n : Nat}, n ≤ maxDepth →
    (fitsAll n fs = true ↔ n + depthOfItems fs ≤ maxDepth)
  | [], _, hn => by simpa [fitsAll, depthOfItems] using hn
  | f :: fs, n, hn => by
    rw [fitsAll, depthOfItems, Bool.and_eq_true, fits_iff f hn, fitsAll_iff fs hn]
    omega

theorem fitsMembers_iff : ∀ (ms : List (String × Fragment)) {n : Nat}, n ≤ maxDepth →
    (fitsMembers n ms = true ↔ n + depthOfMembers ms ≤ maxDepth)
  | [], _, hn => by simpa [fitsMembers, depthOfMembers] using hn
  | (_, f) :: ms, n, hn => by
    rw [fitsMembers, depthOfMembers, Bool.and_eq_true, fits_iff f hn, fitsMembers_iff ms hn]
    omega

end

theorem fits_zero (f : Fragment) : f.fits 0 = f.isShallow := by
  rw [Bool.eq_iff_iff, fits_iff f (Nat.zero_le _), isShallow, decide_eq_true_eq, Nat.zero_add]

end Fragment

/-! ## Blanks of the styles -/

namespace Style

def newlineBlanks (s : Style) (depth : Nat) : List Char := s.newline depth []

def colonBlanks : Style → List Char
  | compact => []
  | indented => [' ']

theorem newline_eq (rest : List Char) : s.newline depth rest = s.newlineBlanks depth ++ rest := by
  cases s with
  | compact => rfl
  | indented => simp [newline, newlineBlanks]

theorem colon_eq (rest : List Char) : s.colon rest = ':' :: (s.colonBlanks ++ rest) := by cases s <;> rfl

theorem newlineBlanks_blank : (s.newlineBlanks depth).all isBlank = true := by
  cases s with
  | compact => rfl
  | indented =>
    simp only [newlineBlanks, newline, append_nil, all_cons, all_replicate]
    split <;> rfl

theorem colonBlanks_blank : s.colonBlanks.all isBlank = true := by cases s <;> rfl

def itemBlanks : List String := [ofList (s.newlineBlanks depth)]

def memberBlanks : List String := [ofList s.colonBlanks, "", ofList (s.newlineBlanks depth)]

/-- The blanks of a container, by those of an entry, the last ones first, and the number of entries. -/
def blanks (entry : List String) : Nat → List String
  | 0 => Frame.blanksOf [""]
  | n + 1 => Frame.blanksOf (ofList (s.newlineBlanks depth) :: ((replicate n (entry ++ [""])).flatten ++ entry))

end Style

namespace Fragment

mutual

/-- The fragment as it is read from its print, with the blanks of the style. -/
def spaced (s : Style) (depth : Nat) : Fragment → Fragment
  | array items _ => array (spacedAll s (depth + 1) items) (s.blanks depth (s.itemBlanks (depth + 1)) items.length)
  | object members _ =>
    object (spacedMembers s (depth + 1) members) (s.blanks depth (s.memberBlanks (depth + 1)) members.length)
  | f => f

def spacedAll (s : Style) (depth : Nat) : List Fragment → List Fragment
  | [] => []
  | f :: fs => f.spaced s depth :: spacedAll s depth fs

def spacedMembers (s : Style) (depth : Nat) : List (String × Fragment) → List (String × Fragment)
  | [] => []
  | (k, f) :: fs => (k, f.spaced s depth) :: spacedMembers s depth fs

end

mutual

theorem bare_spaced : ∀ (f : Fragment) (depth : Nat), (f.spaced s depth).bare = f.bare
  | null, _ | bool _, _ | number _, _ | string _, _ => rfl
  | array items _, _ => by rw [spaced, bare, bare, bareAll_spacedAll items]
  | object members _, _ => by rw [spaced, bare, bare, bareMembers_spacedMembers members]

theorem bareAll_spacedAll : ∀ (fs : List Fragment) (depth : Nat), bareAll (spacedAll s depth fs) = bareAll fs
  | [], _ => rfl
  | f :: fs, _ => by rw [spacedAll, bareAll, bareAll, bare_spaced f, bareAll_spacedAll fs]

theorem bareMembers_spacedMembers : ∀ (ms : List (String × Fragment)) (depth : Nat),
    bareMembers (spacedMembers s depth ms) = bareMembers ms
  | [], _ => rfl
  | (k, f) :: ms, _ => by rw [spacedMembers, bareMembers, bareMembers, bare_spaced f, bareMembers_spacedMembers ms]

end

end Fragment

theorem Token.stops_newline {c : Char} (h : stops (c :: rest) = true) : stops (s.newline depth (c :: rest)) = true := by
  cases s with
  | compact => exact h
  | indented => rfl

theorem Token.stops_writeItems {vs : List Fragment} (h : stops rest = true) :
    stops (Fragment.writeItems s depth vs rest) = true := by
  cases vs with
  | nil => exact h
  | cons v vs => rfl

theorem Token.stops_writeMembers {ms : List (String × Fragment)} (h : stops rest = true) :
    stops (Fragment.writeMembers s depth ms rest) = true := by
  cases ms with
  | nil => exact h
  | cons m ms => rfl

/-! ## Reading what was printed -/

/-- `f`, printed where `n` containers are open, is read as a fragment, or it is not read at all. -/
def Fragment.ReadsAs (s : Style) (depth n : Nat) (f : Fragment) (r : Option Fragment) : Prop :=
  ∀ (exp : Expected) (stack : List Frame) (bs rest : List Char), exp.isValue = true → stack.length = n →
    bs.all isBlank = true → stops rest = true →
    parseTokens exp stack (scan (bs ++ f.write s depth rest))
      = Outcome.run (scan rest) (r.map (.finish · (noteBlank (ofList bs) stack)))

theorem length_noteBlank (blank : String) (stack : List Frame) : (noteBlank blank stack).length = stack.length := by
  cases stack <;> rfl

theorem parseTokens_next {exp' : Expected} {stack' : List Frame} {bs cs : List Char} {c : Char} {t : Token}
    (hbs : bs.all isBlank = true) (hc : isBlank c = false) (ht : at? c cs = some (t, rest))
    (hstep : step exp (noteBlank (ofList bs) stack) t = some (.next exp' stack')) :
    parseTokens exp stack (scan (bs ++ c :: cs)) = parseTokens exp' stack' (scan rest) := by
  rw [scan_token hbs hc ht, parseTokens_cons, hstep]
  rfl

theorem Token.at?_body {b : String} (h : IsBody b) (rest : List Char) :
    at? '"' (b.toList ++ '"' :: rest) = some (.string b, rest) := by
  show (body (b.toList ++ '"' :: rest)).map _ = _
  rw [h rest]
  simp only [Option.map_some, String.ofList_toList]

/-- The items after the first, printed in a container that is number `n`, are read as others, or not all are read. -/
def Fragment.ItemsReadAs (s : Style) (depth n : Nat) (vs : List Fragment) (r : Option (List Fragment)) : Prop :=
  ∀ (items : List Fragment) (bs : List String) (stack : List Frame) (rest : List Char),
    stack.length + 1 = n → Token.stops rest = true →
    parseTokens .commaOrEnd (.array items bs :: stack) (Token.scan (writeItems s depth vs rest))
      = r.bind fun vs' => parseTokens .commaOrEnd (.array (vs'.reverse ++ items)
          ((replicate vs.length (s.itemBlanks depth ++ [""])).flatten ++ bs) :: stack) (Token.scan rest)

/-- The members after the first, printed in a container that is number `n`, are read as others, or not all are read. -/
def Fragment.MembersReadAs (s : Style) (depth n : Nat) (ms : List (String × Fragment))
    (r : Option (List (String × Fragment))) : Prop :=
  ∀ (members : List (String × Fragment)) (bs : List String) (stack : List Frame) (rest : List Char),
    stack.length + 1 = n → Token.stops rest = true →
    parseTokens .commaOrEnd (.object members "" bs :: stack) (Token.scan (writeMembers s depth ms rest))
      = r.bind fun ms' => parseTokens .commaOrEnd (.object (ms'.reverse ++ members) ""
          ((replicate ms.length (s.memberBlanks depth ++ [""])).flatten ++ bs) :: stack) (Token.scan rest)

theorem parseTokens_name {s : Style} {depth : Nat} {k : String} (hk : Token.IsBody k)
    (hexp : exp = .name ∨ exp = .nameOrEnd) (members : List (String × Fragment)) (name : String) (bs : List String)
    (stack : List Frame) (rest : List Char) : parseTokens exp (.object members name bs :: stack)
        (Token.scan (s.newline depth (quoteBody k (s.colon rest))))
      = parseTokens .value (.object members k ("" :: String.ofList (s.newlineBlanks depth) :: bs) :: stack)
        (Token.scan (s.colonBlanks ++ rest)) := by
  have hname : step exp (noteBlank (String.ofList (s.newlineBlanks depth)) (.object members name bs :: stack))
      (.string k)
      = some (.next .colon (.object members k (String.ofList (s.newlineBlanks depth) :: bs) :: stack)) := by
    rcases hexp with rfl | rfl <;> rfl
  have hcolon : step .colon (noteBlank (String.ofList [])
      (.object members k (String.ofList (s.newlineBlanks depth) :: bs) :: stack)) .colon
      = some (.next .value (.object members k ("" :: String.ofList (s.newlineBlanks depth) :: bs) :: stack)) := rfl
  rw [Style.newline_eq, quoteBody,
    parseTokens_next (s.newlineBlanks_blank depth) rfl (Token.at?_body hk _) hname,
    Style.colon_eq, ← nil_append (':' :: _),
    parseTokens_next rfl rfl (show Token.at? ':' _ = some (.colon, _) from rfl) hcolon]

theorem parseTokens_member {s : Style} {depth n : Nat} {k : String} {v : Fragment} {r : Option Fragment}
    (hk : Token.IsBody k) (hv : Fragment.ReadsAs s depth n v r) (hexp : exp = .name ∨ exp = .nameOrEnd) :
    ∀ (members : List (String × Fragment)) (name : String) (bs : List String) (stack : List Frame)
      (rest : List Char), stack.length + 1 = n → Token.stops rest = true →
      parseTokens exp (.object members name bs :: stack)
          (Token.scan (s.newline depth (quoteBody k (s.colon (v.write s depth rest))))) = r.bind fun v' =>
        parseTokens .commaOrEnd (.object ((k, v') :: members) "" (s.memberBlanks depth ++ bs) :: stack)
          (Token.scan rest) := by
  intro members name bs stack rest hlen hrest
  rw [parseTokens_name hk hexp,
    hv .value _ _ _ rfl (by rw [length_cons]; exact hlen) s.colonBlanks_blank hrest]
  cases r <;> rfl

theorem parseTokens_lbracket {bs : List Char} (hexp : exp.isValue = true)
    (hbs : bs.all Token.isBlank = true) (rest : List Char) : parseTokens exp stack (Token.scan (bs ++ '[' :: rest))
      = if stack.length < maxDepth then
          parseTokens .itemOrEnd (.array [] [] :: noteBlank (String.ofList bs) stack) (Token.scan rest) else none := by
  rw [Token.scan_token hbs rfl (show Token.at? '[' rest = some (.lbracket, rest) from rfl), parseTokens_cons]
  simp only [step, length_noteBlank, hexp, true_and]
  split <;> rfl

theorem parseTokens_lbrace {bs : List Char} (hexp : exp.isValue = true)
    (hbs : bs.all Token.isBlank = true) (rest : List Char) : parseTokens exp stack (Token.scan (bs ++ '{' :: rest))
      = if stack.length < maxDepth then
          parseTokens .nameOrEnd (.object [] "" [] :: noteBlank (String.ofList bs) stack) (Token.scan rest)
        else none := by
  rw [Token.scan_token hbs rfl (show Token.at? '{' rest = some (.lbrace, rest) from rfl), parseTokens_cons]
  simp only [step, length_noteBlank, hexp, true_and]
  split <;> rfl

theorem parseTokens_comma {fr fr' : Frame} {after : Expected} (rest : List Char)
    (hcomma : step .commaOrEnd (noteBlank (ofList []) (fr :: stack)) .comma = some (.next after (fr' :: stack))) :
    parseTokens .commaOrEnd (fr :: stack) (scan (',' :: rest)) = parseTokens after (fr' :: stack) (scan rest) := by
  rw [← nil_append (',' :: _), parseTokens_next rfl rfl (show at? ',' _ = some (.comma, _) from rfl) hcomma]

/-- What is read of a printed fragment is the fragment with the blanks of its print, and it is read just if it fits. -/
def Fragment.Returns (s : Style) (depth n : Nat) (f : Fragment) : Prop :=
  ReadsAs s depth n f (if f.fits n then some (f.spaced s depth) else none)

def Fragment.ItemsReturn (s : Style) (depth n : Nat) (vs : List Fragment) : Prop :=
  ItemsReadAs s depth n vs (if fitsAll n vs then some (spacedAll s depth vs) else none)

def Fragment.MembersReturn (s : Style) (depth n : Nat) (ms : List (String × Fragment)) : Prop :=
  MembersReadAs s depth n ms (if fitsMembers n ms then some (spacedMembers s depth ms) else none)

namespace Fragment

variable {s : Style} {depth n : Nat} {v : Fragment} {vs : List Fragment} {ms : List (String × Fragment)}
  {blanks : List String}

theorem returns_atom {f : Fragment} (hfits : f.fits n = true) (hspaced : f.spaced s depth = f)
    (hwrite : ∀ rest, stops rest = true → ∃ c cs t, f.write s depth rest = c :: cs ∧ isBlank c = false
      ∧ at? c cs = some (t, rest)
      ∧ ∀ exp stack, Expected.isValue exp = true → step exp stack t = some (.finish f stack)) : Returns s depth n f := by
  intro exp stack bs rest hexp _ hbs hrest
  obtain ⟨c, cs, t, hcs, hc, ht, hstep⟩ := hwrite rest hrest
  rw [hcs, scan_token hbs hc ht, parseTokens_cons, hstep exp _ hexp, if_pos hfits, hspaced]
  rfl

theorem returns_emptyArray (hlt : n < maxDepth) : Returns s depth n (array [] blanks) := by
  intro exp stack bs rest hexp hlen hbs _
  rw [write, parseTokens_lbracket hexp hbs, if_pos (hlen ▸ hlt), ← nil_append (']' :: _),
    scan_token rfl rfl (show at? ']' _ = some (.rbracket, rest) from rfl), parseTokens_cons,
    if_pos (by simp [fits, fitsAll, hlt])]
  rfl

theorem returns_array (hlt : n < maxDepth) (hv : Returns s (depth + 1) (n + 1) v)
    (hvs : ItemsReturn s (depth + 1) (n + 1) vs) : Returns s depth n (array (v :: vs) blanks) := by
  intro exp stack bs rest hexp hlen hbs _
  have hlen' : (noteBlank (ofList bs) stack).length + 1 = n + 1 := by rw [length_noteBlank, hlen]
  have hstops : stops (s.newline depth (']' :: rest)) = true := stops_newline s depth rfl
  rw [write, parseTokens_lbracket hexp hbs, if_pos (hlen ▸ hlt), Style.newline_eq,
    hv .itemOrEnd _ _ _ rfl (by rw [length_cons]; exact hlen') (s.newlineBlanks_blank _) (stops_writeItems s _ hstops)]
  cases hfits : v.fits (n + 1) with
  | false => simp [fits, fitsAll, hfits, Outcome.run]
  | true =>
    show parseTokens .commaOrEnd (.array [_] [ofList (s.newlineBlanks (depth + 1))] :: _) _ = _
    rw [hvs _ _ _ _ hlen' hstops]
    cases hfitss : fitsAll (n + 1) vs with
    | false => simp [fits, fitsAll, hfitss, Outcome.run]
    | true =>
      rw [if_pos rfl, Option.bind_some, Style.newline_eq,
        scan_token (s.newlineBlanks_blank _) rfl (show at? ']' _ = some (.rbracket, rest) from rfl), parseTokens_cons]
      show Outcome.run _ (some (.finish (Frame.array _ _).close _)) = _
      simp [Frame.close, Style.blanks, Style.itemBlanks, fits, fitsAll, spaced, spacedAll, hlt, hfits, hfitss]

theorem returns_emptyObject (hlt : n < maxDepth) : Returns s depth n (object [] blanks) := by
  intro exp stack bs rest hexp hlen hbs _
  rw [write, parseTokens_lbrace hexp hbs, if_pos (hlen ▸ hlt), ← nil_append ('}' :: _),
    scan_token rfl rfl (show at? '}' _ = some (.rbrace, rest) from rfl), parseTokens_cons,
    if_pos (by simp [fits, fitsMembers, hlt])]
  rfl

theorem returns_object {k : String} (hlt : n < maxDepth) (hk : IsBody k) (hv : Returns s (depth + 1) (n + 1) v)
    (hms : MembersReturn s (depth + 1) (n + 1) ms) : Returns s depth n (object ((k, v) :: ms) blanks) := by
  intro exp stack bs rest hexp hlen hbs _
  have hlen' : (noteBlank (ofList bs) stack).length + 1 = n + 1 := by rw [length_noteBlank, hlen]
  have hstops : stops (s.newline depth ('}' :: rest)) = true := stops_newline s depth rfl
  rw [write, parseTokens_lbrace hexp hbs, if_pos (hlen ▸ hlt),
    parseTokens_member hk hv (.inr rfl) _ _ _ _ _ hlen' (stops_writeMembers s _ hstops)]
  cases hfits : v.fits (n + 1) with
  | false => simp [fits, fitsMembers, hfits, Outcome.run]
  | true =>
    rw [if_pos rfl, Option.bind_some, hms _ _ _ _ hlen' hstops]
    cases hfitss : fitsMembers (n + 1) ms with
    | false => simp [fits, fitsMembers, hfitss, Outcome.run]
    | true =>
      rw [if_pos rfl, Option.bind_some, Style.newline_eq,
        scan_token (s.newlineBlanks_blank _) rfl (show at? '}' _ = some (.rbrace, rest) from rfl), parseTokens_cons]
      show Outcome.run _ (some (.finish (Frame.object _ _ _).close _)) = _
      simp [Frame.close, Style.blanks, fits, fitsMembers, spaced, spacedMembers, hlt, hfits, hfitss]

theorem itemsReturn_cons (hv : Returns s depth n v) (hvs : ItemsReturn s depth n vs) :
    ItemsReturn s depth n (v :: vs) := by
  intro items bs stack rest hlen hrest
  rw [writeItems, parseTokens_comma _ (by exact rfl), Style.newline_eq,
    hv .value _ _ _ rfl (by rw [length_cons]; exact hlen) (s.newlineBlanks_blank _) (stops_writeItems s _ hrest)]
  cases hfits : v.fits n with
  | false => simp [fitsAll, hfits, Outcome.run]
  | true =>
    show parseTokens .commaOrEnd (.array (_ :: items) (ofList (s.newlineBlanks depth) :: "" :: bs) :: stack) _ = _
    rw [hvs _ _ _ _ hlen hrest]
    cases hfitss : fitsAll n vs <;> simp [fitsAll, spacedAll, hfits, hfitss, replicate_succ', Style.itemBlanks]

theorem membersReturn_cons {k : String} (hk : IsBody k) (hv : Returns s depth n v) (hms : MembersReturn s depth n ms) :
    MembersReturn s depth n ((k, v) :: ms) := by
  intro members bs stack rest hlen hrest
  rw [writeMembers, parseTokens_comma _ (by exact rfl),
    parseTokens_member hk hv (.inl rfl) _ _ _ _ _ hlen (stops_writeMembers s _ hrest)]
  cases hfits : v.fits n with
  | false => simp [fitsMembers, hfits]
  | true =>
    rw [if_pos rfl, Option.bind_some, hms _ _ _ _ hlen hrest]
    cases hfitss : fitsMembers n ms <;> simp [fitsMembers, spacedMembers, hfits, hfitss, replicate_succ']

mutual

theorem returns (s : Style) : ∀ (f : Fragment) (depth n : Nat), f.Spelled → Returns s depth n f
  | .null, _, _, _ => returns_atom rfl rfl fun _ _ =>
    ⟨'n', _, .null, rfl, rfl, rfl, fun _ _ hexp => by simp only [step, if_pos hexp]⟩
  | .bool true, _, _, _ => returns_atom rfl rfl fun _ _ =>
    ⟨'t', _, .bool true, rfl, rfl, rfl, fun _ _ hexp => by simp only [step, if_pos hexp]⟩
  | .bool false, _, _, _ => returns_atom rfl rfl fun _ _ =>
    ⟨'f', _, .bool false, rfl, rfl, rfl, fun _ _ hexp => by simp only [step, if_pos hexp]⟩
  | .number l, _, _, hl => returns_atom rfl rfl fun rest hrest => by
    obtain ⟨c, cs, hcs, hc, hat⟩ := IsNumber.at? hl
    exact ⟨c, _, .number l, by rw [write, hcs]; rfl, hc, hat rest hrest,
      fun _ _ hexp => by simp only [step, if_pos hexp]⟩
  | .string b, _, _, hb => returns_atom rfl rfl fun rest _ =>
    ⟨'"', _, .string b, rfl, rfl, at?_body hb rest, fun _ _ hexp => by simp only [step, if_pos hexp]⟩
  | .array vs _, depth, n, hs => by
    by_cases hlt : n < maxDepth
    · cases vs with
      | nil => exact returns_emptyArray hlt
      | cons v vs => exact returns_array hlt (returns s v _ _ hs.1) (itemsReturn s vs _ _ hs.2)
    · intro exp stack bs rest hexp hlen hbs _
      cases vs <;> rw [write, parseTokens_lbracket hexp hbs, if_neg (hlen ▸ hlt), if_neg (by simp [fits, hlt])] <;> rfl
  | .object ms _, depth, n, hs => by
    by_cases hlt : n < maxDepth
    · cases ms with
      | nil => exact returns_emptyObject hlt
      | cons m ms =>
        obtain ⟨k, v⟩ := m
        exact returns_object hlt hs.1 (returns s v _ _ hs.2.1) (membersReturn s ms _ _ hs.2.2)
    · intro exp stack bs rest hexp hlen hbs _
      cases ms <;> rw [write, parseTokens_lbrace hexp hbs, if_neg (hlen ▸ hlt), if_neg (by simp [fits, hlt])] <;> rfl

theorem itemsReturn (s : Style) : ∀ (vs : List Fragment) (depth n : Nat), SpelledAll vs → ItemsReturn s depth n vs
  | [], _, _, _ => fun _ _ _ _ _ _ => rfl
  | v :: vs, _, _, hs => itemsReturn_cons (returns s v _ _ hs.1) (itemsReturn s vs _ _ hs.2)

theorem membersReturn (s : Style) : ∀ (ms : List (String × Fragment)) (depth n : Nat), SpelledMembers ms →
    MembersReturn s depth n ms
  | [], _, _, _ => fun _ _ _ _ _ _ => rfl
  | (_, v) :: ms, _, _, hs => membersReturn_cons hs.1 (returns s v _ _ hs.2.1) (membersReturn s ms _ _ hs.2.2)

end

end Fragment

/-! ## Documents -/

namespace Fragment

variable {f : Fragment}

theorem parseTokens_write (s : Style) (hs : f.Spelled) (rest : List Char) (hrest : stops rest = true)
    (hscan : scan rest = []) : parseTokens .value [] (scan (f.write s 0 rest))
      = if f.fits 0 then some (f.spaced s 0, []) else none := by
  refine (returns s f 0 0 hs .value [] [] rest rfl rfl rfl hrest).trans ?_
  rw [hscan]
  cases f.fits 0 <;> rfl

theorem parseTokens_pretty (hs : f.Spelled) : parseTokens .value [] (scan f.pretty.toList)
      = if f.fits 0 then some (f.spaced .indented 0, []) else none := by
  rw [pretty, toList_ofList]
  exact parseTokens_write .indented hs _ rfl (scan_blanks rfl)

theorem parse_pretty (hs : f.Spelled) (hf : f.fits 0 = true) : ∃ f', f'.bare = f.bare ∧ parse? f.pretty = some f' :=
  ⟨_, bare_spaced .indented f 0, by rw [parse?, parseTokens_pretty hs, if_pos hf]⟩

theorem bare_of_compact_eq {g : Fragment} (hf : f.Spelled) (hfits : f.fits 0 = true) (hg : g.Spelled)
    (h : f.compact = g.compact) : f.bare = g.bare := by
  have hwrite : f.write .compact 0 [] = g.write .compact 0 [] := by
    rw [← toList_ofList (l := f.write .compact 0 []), ← toList_ofList (l := g.write .compact 0 [])]
    exact congrArg toList h
  have hread := parseTokens_write .compact hg [] rfl (scan_blanks rfl)
  rw [← hwrite, parseTokens_write .compact hf [] rfl (scan_blanks rfl), if_pos hfits] at hread
  split at hread
  · rw [← bare_spaced .compact f 0, (Prod.mk.inj (Option.some.inj hread)).1, bare_spaced]
  · cases hread

theorem bare_of_parseFirst_pretty {f' : Fragment} (hs : f.Spelled) (h : parseFirst? f.pretty = some f') :
    f'.bare = f.bare := by
  rw [parseFirst?, parseTokens_pretty hs] at h
  split at h
  · obtain rfl := Option.some.inj h
    exact bare_spaced .indented f 0
  · cases h

theorem parseFirst_of_parse {s : String} (h : parse? s = some f) : parseFirst? s = some f := by
  unfold parse? at h
  split at h
  · next v hread => rw [parseFirst?, hread, Option.map_some, h]
  · cases h

end Fragment
end AnimatedChart.Json
