import AnimatedChart.Cache.Basic
import AnimatedChart.Proofs.Json.Readers
import Mathlib.Data.Set.Function

/-!
# Caches that lose nothing

Different requests have different keys, as far as the digest tells texts apart (`Keyer.key_injOn`), also behind
different scopes (`Keyer.key_eq_key_iff`).
-/

open List AnimatedChart.Json.Fragment AnimatedChart.Dict Option

namespace AnimatedChart.Text

theorem length_hexDigits (width n : Nat) : (hexDigits width n).length = width := by
  induction width generalizing n with
  | zero => rfl
  | succ width ih => rw [hexDigits, length_append, ih, length_singleton]

theorem length_digest (s : String) : (digest s).toList.length = 64 := by simp [digest, Hash.text, length_hexDigits]

end AnimatedChart.Text

namespace AnimatedChart.Cache

open Json

/-! ## Keys -/

theorem htmlText_injective : Function.Injective htmlText := by
  intro s s' h
  have hencode : Escape.encode true s.toList = Escape.encode true s'.toList :=
    String.ofList_injective (string.inj h)
  have hdecode := congrArg Escape.decode hencode
  rw [Escape.decode_encode, Escape.decode_encode] at hdecode
  exact String.toList_injective hdecode

theorem Request.spelled_parts (r : Request) : (list r.parts).Spelled := by
  refine spelled_list ?_
  cases r with
  | compiled d c =>
    simp only [parts, forall_mem_cons]
    refine ⟨spelled_htmlText _, spelled_htmlText _, ?_, by simp⟩
    exact spelled_record (forall_mem_singleton.mpr (spelled_htmlText c))
  | _ =>
    simp only [parts, forall_mem_cons]
    exact ⟨spelled_htmlText _, spelled_htmlText _, by simp⟩

theorem Request.fits_parts (r : Request) : (list r.parts).fits 0 = true := by cases r <;> rfl

theorem Request.eq_of_text_eq {r r' : Request} (hkind : r.kind = r'.kind) (h : r.text = r'.text) : r = r' := by
  have hbare := bare_of_compact_eq r.spelled_parts r.fits_parts r'.spelled_parts h
  simp only [list, bare, array.injEq, and_true] at hbare
  cases r <;> cases r'
  case source.source u u' =>
    simp only [parts, bareAll, List.cons.injEq, true_and, and_true] at hbare
    rw [htmlText_injective hbare]
  case elaborated.elaborated d d' =>
    simp only [parts, bareAll, List.cons.injEq, true_and, and_true] at hbare
    rw [htmlText_injective hbare]
  case compiled.compiled d c d' c' =>
    simp only [parts, bareAll, record, bare, map_singleton, bareMembers,
      List.cons.injEq, object.injEq, Prod.mk.injEq, true_and, and_true] at hbare
    rw [htmlText_injective hbare.1, htmlText_injective hbare.2]
  all_goals exact absurd hkind (by simp [kind])

theorem Keyer.kind_of_key_eq {k : Keyer} {r r' : Request} (h : k.key r = k.key r') : r.kind = r'.kind := by
  have hcons := congrArg String.toList h
  simp only [key, String.toList_append, append_cancel_left_eq] at hcons
  cases r <;> cases r' <;> simp_all [Request.kind]

theorem Keyer.key_injOn {k : Keyer} {asked : Set Request} (h : Set.InjOn k.digest (Request.text '' asked)) :
    Set.InjOn k.key asked := by
  intro r hr r' hr' heq
  have hkind := kind_of_key_eq heq
  have htext := congrArg String.toList heq
  simp only [key, hkind, String.toList_append, append_cancel_left_eq] at htext
  exact Request.eq_of_text_eq hkind (h (Set.mem_image_of_mem _ hr) (Set.mem_image_of_mem _ hr')
    (String.toList_injective htext))

/-- No kind ends in another one. -/
theorem Request.kind_of_append_eq {p q : List Char} {r r' : Request}
    (h : p ++ r.kind.toList = q ++ r'.kind.toList) : r.kind = r'.kind := by
  have hends := congrArg reverse h
  rw [reverse_append, reverse_append] at hends
  cases r <;> cases r' <;> simp [kind] at hends ⊢

/-- A key is taken apart from its end, since a scope may itself end in what looks like a kind: all digests have one
length, and the kind stands before the digest. -/
theorem Keyer.parts_of_key_eq {p q : String} {r r' : Request}
    (h : ({ scope := p } : Keyer).key r = ({ scope := q } : Keyer).key r') :
    p = q ∧ r.kind = r'.kind ∧ Text.digest r.text = Text.digest r'.text := by
  have hlist := congrArg String.toList h
  simp only [key, String.toList_append, ← append_assoc] at hlist
  have hlength : (Text.digest r.text).toList.length = (Text.digest r'.text).toList.length := by
    rw [Text.length_digest, Text.length_digest]
  obtain ⟨hfront, hdigest⟩ := append_inj' hlist hlength
  have hkinds := append_cancel_right hfront
  have hkind := Request.kind_of_append_eq hkinds
  rw [hkind] at hkinds
  exact ⟨String.toList_injective (append_cancel_right hkinds), hkind, String.toList_injective hdigest⟩

/-- As far as the digest tells texts apart, a key belongs to one request of one scope. -/
theorem Keyer.key_eq_key_iff {texts : Set String} (hdigest : Set.InjOn Text.digest texts) (p q : String)
    {r r' : Request} (hr : r.text ∈ texts) (hr' : r'.text ∈ texts) :
    ({ scope := p } : Keyer).key r = ({ scope := q } : Keyer).key r' ↔ p = q ∧ r = r' := by
  constructor
  · intro h
    obtain ⟨hscope, hkind, hdigests⟩ := parts_of_key_eq h
    exact ⟨hscope, Request.eq_of_text_eq hkind (hdigest hr hr' hdigests)⟩
  · rintro ⟨rfl, rfl⟩
    rfl

theorem Keyer.key_scope_like_kind :
    Set.InjOn Text.digest {(Request.source "cars").text, (Request.compiled "cars" "").text}
      ∧ ({ scope := "team:" } : Keyer).key (.source "cars")
        ≠ ({ scope := "team:source:" } : Keyer).key (.compiled "cars" "") := by
  have hne : Text.digest (Request.source "cars").text ≠ Text.digest (Request.compiled "cars" "").text := by
    decide +kernel
  have hinj : Set.InjOn Text.digest {(Request.source "cars").text, (Request.compiled "cars" "").text} :=
    Set.injOn_pair.mpr fun h => absurd h hne
  refine ⟨hinj, fun h => ?_⟩
  obtain ⟨hscope, -⟩ := (key_eq_key_iff hinj _ _ (.inl rfl) (.inr rfl)).mp h
  exact absurd hscope (by decide)

/-! ## Entries that last -/

namespace FileCache

def find? (c : FileCache) (key : String) : Option String :=
  ((get? c.files (c.digest key)).bind Stored.entry?).map (·.data)

/-- A cache of entries of certain keys, which hold at all the times to come. -/
def Lasting (keys : Set String) (times : Set Instant) (c : FileCache) : Prop :=
  ∀ name s, get? c.files name = some s →
    ∃ e, s = .entry e ∧ e.key ∈ keys ∧ name = c.digest e.key ∧ ∀ t ∈ times, e.holds e.key t = true

variable {keys : Set String} {times : Set Instant} {c : FileCache} {now : Instant} {key data : String} {ttl : Duration}

theorem Lasting.empty (h : c.files = []) : c.Lasting keys times := by
  intro name s hs
  rw [h] at hs
  cases hs

theorem Lasting.mono (h : c.Lasting keys times) {times' : Set Instant} (hsub : times' ⊆ times) :
    c.Lasting keys times' := by
  intro name s hs
  obtain ⟨e, he, hkey, hname, hholds⟩ := h name s hs
  exact ⟨e, he, hkey, hname, fun t ht => hholds t (hsub ht)⟩

theorem Lasting.get_eq (h : c.Lasting keys times) (hinj : Set.InjOn c.digest keys) (hkey : key ∈ keys)
    (hnow : now ∈ times) : c.get now key = (c.find? key, c) := by
  rw [get, find?]
  cases hs : get? c.files (c.digest key) with
  | none => rfl
  | some s =>
    obtain ⟨e, rfl, he, hname, hholds⟩ := h _ _ hs
    -- The file is that of another key only if the names of their files collide.
    obtain rfl : key = e.key := hinj hkey he hname
    have hfilter : ( Stored.entry? (.entry e)).filter (·.holds e.key now) = some e :=
      filter_some_pos (hholds now hnow)
    simp only [hfilter]
    rfl

theorem Lasting.set (h : c.Lasting keys times) (hkey : key ∈ keys)
    (hlate : ∀ t ∈ times, t.nanoseconds ≤ now.nanoseconds + ttl.nanoseconds) :
    (c.set now key data ttl).Lasting keys times := by
  intro name s hs
  rw [FileCache.set, get?_put] at hs
  split at hs
  · next hname =>
    cases hs
    refine ⟨_, rfl, hkey, hname, fun t ht => ?_⟩
    have hle := hlate t ht
    simp only [Entry.holds, beq_self_eq_true, Bool.true_and]
    split
    · simpa using hle
    · rfl
  · exact h name s hs

theorem find?_set (hinj : Set.InjOn c.digest keys) (hkey : key ∈ keys) {key' : String} (hkey' : key' ∈ keys) :
    (c.set now key data ttl).find? key' = if key' = key then some data else c.find? key' := by
  rw [find?, set, get?_put]
  by_cases heq : key' = key
  · subst heq
    simp [ Stored.entry?]
  · rw [if_neg heq, if_neg fun hname => heq (hinj hkey' hkey hname)]
    rfl

end FileCache

/-! ## Entries in files -/

namespace Entry

/-- The data and the expiry of an entry are read back as they were written. -/
def Encodes (e : Entry) : Prop :=
  (Text.Base64.decode? (Text.Base64.encode (Text.bytes e.data))).map Text.ofBytes = some e.data
    ∧ ∀ t ∈ e.expires, Instant.parse? (String.ofList (Escape.encode false t.text.toList)) = some t ∧ t ≠ .zero

instance (e : Entry) : Decidable e.Encodes := inferInstanceAs (Decidable (_ ∧ _))

def schema : Schema (Entry × Reader.Slots UInt8) where
  fields := layout
  kept := fun p => p.1.data
  ext := by
    rintro ⟨⟨⟩, _⟩ ⟨⟨⟩, _⟩ h ⟨⟩
    simpa [and_assoc, and_left_comm, and_comm] using h

theorem read_toFragment {e : Entry} {bs : List UInt8} (h : e.Encodes)
    (hbs : Text.Base64.decode? (Text.Base64.encode (Text.bytes e.data)) = some bs) :
    Reader.fields layout e.toFragment ({}, {})
      = .read ({ key := e.key, expires := e.expires }, { items := some bs }) true := by
  refine schema.read_recordOf (.cons ⟨rfl, ?_⟩ (.cons ⟨rfl, ?_⟩ (.cons ⟨rfl, ?_⟩ .nil))) rfl
  · exact (Reader.takes_text e.key).restores _ _
  · intro old _
    refine ⟨{ items := some bs }, ?_, rfl⟩
    simp only [text, readData, unescape_encode, hbs]
    rfl
  · dsimp only [Field.first]
    cases hexpires : e.expires with
    | none => rfl
    | some t =>
      rintro old (rfl | hagain)
      · obtain ⟨hparse, hzero⟩ := h.2 t hexpires
        refine ⟨some t, ?_, rfl⟩
        simp only [text, readExpiry, hparse, if_neg hzero]
        rfl
      · exact hagain.elim

end Entry

/-! ## Entries that expire -/

inductive Operation where
  | set (key data : String) (ttl : Duration)
  | get (key : String)
  | delete (key : String)
  | clear

namespace Operation

/-- What is found under a key that an operation settled, by the times of the operation and of the look-up. -/
def found (time now : Instant) : Operation → Option String
  | set _ data ttl =>
    if ttl.nanoseconds ≤ 0 ∨ now.nanoseconds ≤ time.nanoseconds + ttl.nanoseconds then some data else none
  | _ => none

def apply (c : FileCache) (now : Instant) : Operation → FileCache
  | set key data ttl => c.set now key data ttl
  | get key => (c.get now key).2
  | delete key => c.delete key
  | clear => c.clear

end Operation

/-- What a look-up finds in the file of its key. -/
def Stored.find? (key : String) (now : Instant) (s : Stored) : Option Entry := s.entry?.filter (·.holds key now)

namespace FileCache

variable {c : FileCache} {now time : Instant} {key : String} {o : Operation} {ops : List (Instant × Operation)}

/-- The cache with its entries written to their files. -/
def saved (c : FileCache) : FileCache := { c with files := mapValues (fun s => .text s.render) c.files }

def step (c : FileCache) (o : Instant × Operation) : FileCache := (o.2.apply c o.1).saved

def run (c : FileCache) (ops : List (Instant × Operation)) : FileCache := ops.foldl step c

end FileCache

end AnimatedChart.Cache
