import AnimatedChart.Proofs.Dependency.Tokens

/-!
# References of written expressions

Expressions are written from left to right. An `Opening` is a beginning that anything may follow, an `Operand` is one
that a separator must follow, and a `Joint` is a text that separates; all of them refer only to names of a set.
-/

open List

namespace AnimatedChart.Dependency

open Animation Token

variable {after ts : List Token} {before last : Option Char} {es : List String} {k : Kind}

def refsAfter (before : Option Char) (cs : List Char) : List Ref := tokenReferences before (scan cs)

/-- What can follow an operand: it does not go on with a name or a number, and it does not open arguments. -/
def Ends (rest : List Char) : Prop :=
  Stops rest ∧ rest.head? ≠ some '.' ∧ (scan rest).head? ≠ some (symbol '(')

/-- Behind anything but a point and before what satisfies `P`, the text refers only to names in `S`, and what follows
is again read behind anything but a point. -/
def Within (S : Ref → Prop) (P : List Char → Prop) (e : String) : Prop :=
  ∀ before rest, before ≠ some '.' → P rest →
    ∃ last, last ≠ some '.' ∧ ∀ r ∈ refsAfter before (e.toList ++ rest), S r ∨ r ∈ refsAfter last rest

def Operand (S : Ref → Prop) (e : String) : Prop := Within S Ends e

def Opening (S : Ref → Prop) (e : String) : Prop := Within S (fun _ => True) e

/-- A text that separates what stands before it. -/
structure Joint (S : Ref → Prop) (e : String) : Prop where
  ends : ∀ rest, Ends (e.toList ++ rest)
  opening : Opening S e

variable {S : Ref → Prop} {P Q : List Char → Prop} {a b e f n : String}

theorem refsAfter_nil (before : Option Char) : refsAfter before [] = [] := by rw [refsAfter, scan, tokenReferences]

theorem tokenReferences_symbol (before : Option Char) (c : Char) (ts : List Token) :
    tokenReferences before (symbol c :: ts) = tokenReferences (some c) ts := rfl

theorem tokenReferences_string (before : Option Char) (t : String) (ts : List Token) :
    tokenReferences before (string t :: ts) = tokenReferences none ts := rfl

theorem ends_nil : Ends [] := ⟨.nil, by simp, by simp [scan]⟩

/-! ## Putting texts together -/

theorem Within.append (ha : Within S P a) (hb : Within S Q b) (h : ∀ rest, Q rest → P (b.toList ++ rest)) :
    Within S Q (a ++ b) := by
  intro before rest hbefore hrest
  obtain ⟨last, hlast, hsub⟩ := ha before (b.toList ++ rest) hbefore (h rest hrest)
  obtain ⟨last', hlast', hsub'⟩ := hb last rest hlast hrest
  refine ⟨last', hlast', fun r hr => ?_⟩
  rw [String.toList_append, append_assoc] at hr
  rcases hsub r hr with hS | hr
  · exact .inl hS
  · exact hsub' r hr

theorem Operand.joint (ha : Operand S a) (hb : Joint S b) : Opening S (a ++ b) :=
  ha.append hb.opening fun rest _ => hb.ends rest

theorem Opening.operand (ha : Opening S a) (hb : Operand S b) : Operand S (a ++ b) :=
  ha.append hb fun _ _ => trivial

theorem Opening.opening (ha : Opening S a) (hb : Opening S b) : Opening S (a ++ b) :=
  ha.append hb fun _ _ => trivial

theorem Opening.toOperand (ha : Opening S a) : Operand S a := fun before rest hbefore _ =>
  ha before rest hbefore trivial

theorem Operand.references (h : Operand S e) : ∀ r ∈ references e, S r := by
  intro r hr
  have hmem : r ∈ refsAfter none (e.toList ++ []) := by
    rw [append_nil]
    exact (mem_filter.mp (mem_eraseDups.mp hr)).1
  obtain ⟨last, _, hsub⟩ := h none [] (by simp) ends_nil
  rcases hsub r hmem with hS | hr
  · exact hS
  · rw [refsAfter_nil] at hr
    cases hr

/-! ## Pieces -/

theorem Opening.of_eq (rs : List Ref) (last : Option Char) (hlast : last ≠ some '.') (hrs : ∀ r ∈ rs, S r)
    (h : ∀ before rest, before ≠ some '.' → refsAfter before (e.toList ++ rest) = rs ++ refsAfter last rest) :
    Opening S e := by
  intro before rest hbefore _
  refine ⟨last, hlast, fun r hr => ?_⟩
  rw [h before rest hbefore, mem_append] at hr
  exact hr.imp_left (hrs r)

theorem mem_identReference? {r : Ref}
    (hafter : after.head? ≠ some (symbol '(')) (hr : r ∈ identReference? before n after) :
    isReserved n = false ∧ r = ⟨.signal, n⟩ := by
  unfold identReference? at hr
  split at hr
  · cases hr
  · split at hr
    · exact absurd rfl hafter
    · exact absurd rfl hafter
    · split at hr
      · cases hr
      · split at hr
        · cases hr
        · next hreserved => exact ⟨by simpa using hreserved, (Option.mem_some.mp hr).symm⟩

theorem Operand.name (hn : isIdentifier n = true) (hS : isReserved n = false → S ⟨.signal, n⟩) : Operand S n := by
  intro before rest _ hrest
  refine ⟨none, by simp, fun r hr => ?_⟩
  rw [refsAfter, scan_identifier hn hrest.1, String.ofList_toList, tokenReferences, mem_append,
    Option.mem_toList] at hr
  refine hr.imp_left fun hr => ?_
  obtain ⟨hreserved, rfl⟩ := mem_identReference? hrest.2.2 hr
  exact hS hreserved

theorem Opening.stringLiteral (S : Ref → Prop) (s : String) : Opening S (stringLiteral s) :=
  .of_eq [] none (by simp) (by simp) fun before rest _ => by
    rw [refsAfter, scan_stringLiteral, tokenReferences_string]
    rfl

theorem Token.Chain.tokenReferences {ts : List Token} (hts : Chain ts) (after : List Token) {before : Option Char}
    (hbefore : before ≠ some '.') :
    ∃ last, last ≠ some '.' ∧ tokenReferences before (ts ++ after) = tokenReferences last after := by
  induction hts generalizing before with
  | nil => exact ⟨before, hbefore, rfl⟩
  | name n _ ih =>
    obtain ⟨last, hlast, h⟩ := @ih none (by simp)
    exact ⟨last, hlast, by simpa [Dependency.tokenReferences, identReference?, Token.last] using h⟩
  | quoted t _ ih =>
    obtain ⟨last, hlast, h⟩ := @ih (some ']') (by decide)
    exact ⟨last, hlast, by simpa [Dependency.tokenReferences, Token.last] using h⟩

theorem Operand.datum {parts : List (List Char)} (he : e.toList = "datum".toList ++ steps parts) : Operand S e := by
  intro before rest _ hrest
  obtain ⟨ts, hts, hscan⟩ := scan_steps parts
  obtain ⟨last, hlast, hrefs⟩ := @Token.Chain.tokenReferences _ hts (scan rest) none (by simp)
  refine ⟨last, hlast, fun r hr => ?_⟩
  have hhead : (ts ++ scan rest).head? ≠ some (symbol '(') := by
    cases hts with
    | nil => exact hrest.2.2
    | name => simp
    | quoted => simp
  rw [refsAfter, he, append_assoc, scan_identifier (by decide) (hrest.1.steps parts), hscan rest hrest.1,
    tokenReferences, hrefs, mem_append, Option.mem_toList] at hr
  rcases hr with hr | hr
  · exact absurd (mem_identReference? hhead hr).1 (by decide)
  · exact .inr hr

theorem Operand.access (S : Ref → Prop) (field : String) : Operand S (access "datum" field) :=
  .datum (toList_access "datum" field)

theorem Operand.accessNext (S : Ref → Prop) (field : String) : Operand S (Animation.access "datum.next" field) := by
  have hsteps : (Animation.access "datum.next" field).toList
      = "datum".toList ++ steps ("next".toList :: pathParts field.toList) := by
    rw [toList_access]
    simp [steps, accessPart, spellsIdentifier, isIdentifierStart, isIdentifierRest]
  exact .datum hsteps

/-! ## Fixed texts -/

/-- An identifier refers to nothing, between the last character before it and tokens after it that are not the last. -/
def isSilent (before : Option Char) (name : String) : List Token → Bool
  | [] => false
  | t :: _ =>
    if t = .symbol '(' then (argumentKind? name).isNone
    else before == some '.' || isReserved name || (t == .symbol ':' && (before == some '\x7b' || before == some ','))

/-- The last character of tokens that refer to nothing, whatever follows them. -/
def skim (before : Option Char) : List Token → Option (Option Char)
  | [] => some before
  | .ident name :: rest => if isSilent before name rest then skim none rest else none
  | t :: rest => skim t.last rest

theorem identReference?_of_isSilent (h : isSilent before n after = true) (us : List Token) :
    identReference? before n (after ++ us) = none := by
  cases after with
  | nil => exact absurd h Bool.false_ne_true
  | cons t after =>
    rw [isSilent] at h
    unfold identReference?
    split at h
    · next ht =>
      subst ht
      split
      · rfl
      · split
        · rw [Option.isNone_iff_eq_none.mp h, Option.map_none]
        · rfl
        · next hne => exact absurd rfl (hne (after ++ us))
    · next ht =>
      split
      · rfl
      · next hpoint =>
        split
        · next heq => exact absurd (List.cons.inj heq).1 ht
        · next heq => exact absurd (List.cons.inj heq).1 ht
        · split
          · rfl
          · next hkey =>
            refine if_pos ?_
            simp only [Bool.or_eq_true, Bool.and_eq_true, beq_iff_eq] at h
            rcases h with (h | h) | ⟨ht, h⟩
            · exact absurd h hpoint
            · exact h
            · exact absurd ⟨by rw [ht]; rfl, h⟩ hkey

theorem tokenReferences_skim (h : skim before ts = some last) (us : List Token) :
    tokenReferences before (ts ++ us) = tokenReferences last us := by
  fun_induction skim before ts with
  | case1 => rw [Option.some.inj h]; rfl
  | case2 before name rest hsilent ih =>
    rw [cons_append, tokenReferences, identReference?_of_isSilent hsilent, ih h]
    rfl
  | case3 => cases h
  | case4 before t rest hident ih =>
    rw [cons_append, tokenReferences, ih h]
    exact fun name ht => hident name ht

theorem skim_of_none (hne : ts ≠ []) (h : skim none ts = some last) (before : Option Char) :
    skim before ts = some last := by
  cases ts with
  | nil => exact absurd rfl hne
  | cons t ts =>
    cases t with
    | ident name =>
      rw [skim] at h ⊢
      split at h
      · next hsilent =>
        rw [if_pos, h]
        cases ts with
        | nil => exact hsilent
        | cons t ts =>
          rw [isSilent] at hsilent ⊢
          split
          · next ht => rwa [if_pos ht] at hsilent
          · next ht =>
            rw [if_neg ht] at hsilent
            have hreserved : isReserved name = true := by simpa using hsilent
            rw [hreserved, Bool.or_true, Bool.true_or]
      · cases h
    | string _ => exact h
    | number _ => exact h
    | symbol _ => exact h

def isOpening (e : String) : Bool :=
  isClosed e.toList && !(scan e.toList).isEmpty && (skim none (scan e.toList)).any (· != some '.')

def separates (e : String) : Bool :=
  isClosed e.toList && e.toList.head?.any (fun c => !isPart c && c != '.')
    && (scan e.toList).head?.any (· != symbol '(')

def isJoint (e : String) : Bool := isOpening e && separates e

/-- A fixed text that ends with the opening of a function which takes a name: what the name is the name of. -/
def argumentOf? (e : String) : Option Kind :=
  match (scan e.toList).reverse with
  | .symbol c :: .ident f :: ts =>
    if isClosed e.toList && c == '(' && (skim none ts.reverse).any (· != some '.') then argumentKind? f else none
  | _ => none

theorem Opening.fixed (h : isOpening e = true := by decide +kernel) : Opening S e := by
  simp only [isOpening, Bool.and_eq_true, Bool.not_eq_true', isEmpty_eq_false_iff, Option.any_eq_true,
    bne_iff_ne] at h
  obtain ⟨⟨hclosed, hne⟩, last, hskim, hlast⟩ := h
  refine .of_eq [] last hlast (by simp) fun before rest _ => ?_
  rw [refsAfter, scan_append hclosed, tokenReferences_skim (skim_of_none hne hskim before)]
  rfl

theorem ends_of_separates (h : separates e = true) (rest : List Char) : Ends (e.toList ++ rest) := by
  simp only [separates, Bool.and_eq_true, Option.any_eq_true, Bool.not_eq_true', bne_iff_ne] at h
  obtain ⟨⟨hclosed, c, hc, hpart, hpoint⟩, t, ht, hparen⟩ := h
  have hhead : (e.toList ++ rest).head? = some c := by rw [head?_append, hc]; rfl
  refine ⟨?_, by rw [hhead]; simpa using hpoint, ?_⟩
  · intro d hd
    obtain rfl : c = d := by simpa [hhead] using hd
    exact hpart
  · rw [scan_append hclosed, head?_append, ht]
    simpa using hparen

theorem Joint.fixed (h : isJoint e = true := by decide +kernel) : Joint S e := by
  rw [isJoint, Bool.and_eq_true] at h
  exact ⟨ends_of_separates h.2, .fixed h.1⟩

theorem Operand.ending (ha : Operand S a)
    (h : isJoint b = true ∧ isIdentifier n = true ∧ isReserved n = true ∧ b ++ n = e := by decide +kernel) :
    Operand S (a ++ e) := by
  obtain ⟨hb, hn, hreserved, rfl⟩ := h
  rw [← String.append_assoc]
  exact (ha.joint (.fixed hb)).operand (.name hn fun hfalse => absurd (hreserved.symm.trans hfalse) (by decide))

/-! ## Calls and lists -/

theorem identReference?_applied (hafter : ∀ t, after.head? ≠ some (string t)) (before : Option Char) :
    identReference? before f (symbol '(' :: after) = none := by
  unfold identReference?
  split
  · rfl
  · split
    · next t _ h =>
      obtain ⟨_, rfl⟩ := List.cons.inj h
      exact absurd rfl (hafter t)
    · rfl
    · next h => exact absurd rfl (h after)

theorem scan_call (hf : isIdentifier f = true) (rest : List Char) :
    scan ((f ++ "(").toList ++ rest) = ident f :: symbol '(' :: scan rest := by
  have hlist : (f ++ "(").toList ++ rest = f.toList ++ '(' :: rest := by simp
  rw [hlist, scan_identifier hf (.cons (by decide)), scan_symbol (by decide) (by decide) (by decide),
    String.ofList_toList]

theorem Operand.applied (hf : isIdentifier f = true) (hn : isIdentifier n = true) (hS : S ⟨.signal, n⟩) :
    Operand S (f ++ "(" ++ n) := by
  intro before rest _ hrest
  refine ⟨none, by simp, fun r hr => ?_⟩
  rw [String.toList_append, append_assoc, refsAfter, scan_call hf, scan_identifier hn hrest.1, tokenReferences,
    identReference?_applied (by simp), tokenReferences_symbol, tokenReferences, Option.toList_none, nil_append,
    mem_append, Option.mem_toList, String.ofList_toList] at hr
  refine hr.imp_left fun hr => ?_
  obtain ⟨_, rfl⟩ := mem_identReference? hrest.2.2 hr
  exact hS

theorem Opening.argument {k : Kind} (hS : S ⟨k, n⟩) (h : argumentOf? e = some k := by decide +kernel) :
    Opening S (e ++ Animation.stringLiteral n) := by
  unfold argumentOf? at h
  split at h
  · next c f ts hscan =>
    split at h
    · next hcheck =>
      simp only [Bool.and_eq_true, beq_iff_eq, Option.any_eq_true, bne_iff_ne] at hcheck
      obtain ⟨⟨hclosed, rfl⟩, last, hskim, hlast⟩ := hcheck
      have htokens : scan e.toList = ts.reverse ++ [ident f, symbol '('] := by
        rw [← reverse_reverse (scan e.toList), hscan]
        simp
      refine .of_eq [⟨k, n⟩] none (by simp) (by simpa using hS) fun before rest hbefore => ?_
      obtain ⟨last', hlast', hskim'⟩ : ∃ last', last' ≠ some '.' ∧ skim before ts.reverse = some last' := by
        cases hts : ts.reverse with
        | nil => exact ⟨before, hbefore, rfl⟩
        | cons t us => exact ⟨last, hlast, skim_of_none (by simp) (hts ▸ hskim) before⟩
      rw [String.toList_append, append_assoc, refsAfter, scan_append hclosed, scan_stringLiteral, htokens,
        append_assoc, tokenReferences_skim hskim']
      show tokenReferences last' (ident f :: symbol '(' :: string n :: scan rest) = _
      rw [tokenReferences, identReference?, if_neg hlast', h, tokenReferences_symbol, tokenReferences_string]
      rfl
    · cases h
  · cases h

theorem Operand.argument {k : Kind} (ha : Operand S a) (hS : S ⟨k, n⟩)
    (h : argumentOf? e = some k ∧ separates e = true := by decide +kernel) : Opening S (a ++ e ++ stringLiteral n) := by
  rw [String.append_assoc]
  refine ha.append (Opening.argument hS h.1) fun rest _ => ?_
  rw [String.toList_append, append_assoc]
  exact ends_of_separates h.2 _

theorem Operand.intercalate {sep : String} (hsep : Joint S sep) (hne : es ≠ [])
    (hes : ∀ e ∈ es, Operand S e) : Operand S (String.intercalate sep es) := by
  induction es with
  | nil => exact absurd rfl hne
  | cons e es ih =>
    cases es with
    | nil =>
      rw [String.intercalate_singleton]
      exact hes e mem_cons_self
    | cons e' es =>
      rw [String.intercalate_cons_cons]
      exact ((hes e mem_cons_self).joint hsep).operand
        (ih (by simp) fun x hx => hes x (mem_cons_of_mem _ hx))

theorem isJoint_signs : isOpening "[" = true ∧ isJoint ", " = true ∧ isJoint ")" = true ∧ isJoint "]" = true := by
  decide +kernel

theorem Operand.commaList (hne : es ≠ []) (hes : ∀ e ∈ es, Operand S e) :
    Operand S (commaList es) := .intercalate (.fixed isJoint_signs.2.1) hne hes

theorem Operand.close (ha : Operand S a) : Opening S (a ++ ")") := ha.joint (.fixed isJoint_signs.2.2.1)

theorem Opening.listExpr (hne : es ≠ []) (hes : ∀ e ∈ es, Operand S e) : Opening S (listExpr es) :=
  ((fixed isJoint_signs.1).operand (.commaList hne hes)).joint (.fixed isJoint_signs.2.2.2)

theorem Opening.call (hne : es ≠ []) (hes : ∀ e ∈ es, Operand S e)
    (h : isOpening (f ++ "(") = true := by decide +kernel) : Opening S (call f es) :=
  ((fixed h).operand (.commaList hne hes)).close

theorem Opening.callOn {k : Kind} (hS : S ⟨k, n⟩) (hes : ∀ e ∈ es, Operand S e)
    (h : argumentOf? (f ++ "(") = some k := by decide +kernel) :
    Opening S (Animation.call f (Animation.stringLiteral n :: es)) := by
  have hopen : Opening S (f ++ "(" ++ Animation.stringLiteral n) := .argument hS h
  cases es with
  | nil =>
    rw [Animation.call, Animation.commaList, String.intercalate_singleton]
    exact hopen.toOperand.close
  | cons e es =>
    have htext : Animation.call f (Animation.stringLiteral n :: e :: es)
        = f ++ "(" ++ Animation.stringLiteral n ++ ", " ++ Animation.commaList (e :: es) ++ ")" := by
      rw [Animation.call, Animation.commaList, Animation.commaList, String.intercalate_cons_cons]
      simp only [String.append_assoc]
    rw [htext]
    exact ((hopen.toOperand.joint (.fixed isJoint_signs.2.1)).operand (.commaList (by simp) hes)).close

theorem Opening.scaleCall (hS : S ⟨.scale, n⟩) (he : Operand S e) : Opening S (scaleCall n e) :=
  .callOn hS (by simpa using he)

theorem isIdentifier_of_argumentKind (h : argumentKind? f = some k) : isIdentifier f = true := by
  have hnames : ∀ g ∈ ["data", "indata", "modify", "vlSelectionTest", "vlSelectionResolve", "fieldvaluesforkey"]
      ++ ["scale", "invert", "bandwidth", "domain", "range", "copy", "gradient"], isIdentifier g = true := by
    decide +kernel
  refine hnames f ?_
  unfold argumentKind? at h
  split at h
  · next hdata => exact mem_append_left _ (contains_iff_mem.mp hdata)
  · split at h
    · next hscale => exact mem_append_right _ (contains_iff_mem.mp hscale)
    · cases h

/-- Names cannot add references. A name that is quoted is one token, a function that takes a name refers to that name
only, and a field of a row refers to nothing, whatever characters they are made of. -/
theorem references_quoted_names : (∀ s, scan (stringLiteral s).toList = [string s])
      ∧ (∀ f k s, argumentKind? f = some k → s ≠ "" → references (call f [stringLiteral s]) = [⟨k, s⟩])
      ∧ ∀ field, references (access "datum" field) = [] ∧ references (access "datum.next" field) = [] := by
  refine ⟨fun s => ?_, fun f k s hf hs => ?_, fun field => ⟨?_, ?_⟩⟩
  · have h := scan_stringLiteral s []
    rwa [append_nil, scan] at h
  · have hlist : (call f [stringLiteral s]).toList = (f ++ "(").toList ++ ((stringLiteral s).toList ++ [')']) := by
      simp [call, commaList]
    have hclose : scan [')'] = [symbol ')'] := by rw [scan_symbol (by decide) (by decide) (by decide), scan]
    have htokens : scan (call f [stringLiteral s]).toList = [ident f, symbol '(', string s, symbol ')'] := by
      rw [hlist, scan_call (isIdentifier_of_argumentKind hf), scan_stringLiteral, hclose]
    have hrefs : tokenReferences none [ident f, symbol '(', string s, symbol ')'] = [⟨k, s⟩] := by
      simp [tokenReferences, identReference?, hf]
    rw [references, htokens, hrefs, filter_cons_of_pos (by simpa using hs)]
    rfl
  · exact eq_nil_iff_forall_not_mem.mpr fun r => (Operand.access (fun _ => False) field).references r
  · exact eq_nil_iff_forall_not_mem.mpr fun r => (Operand.accessNext (fun _ => False) field).references r

/-- A name that would end its literal and call a function, were it not quoted. -/
theorem references_hostile_name :
    references (call "scale" [stringLiteral "x'), data('y\\"]) = [⟨.scale, "x'), data('y\\"⟩] :=
  references_quoted_names.2.1 "scale" .scale _ (by decide) (by decide)

end AnimatedChart.Dependency
