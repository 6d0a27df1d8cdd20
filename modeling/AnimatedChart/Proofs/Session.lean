import AnimatedChart.Proofs.Cache
import AnimatedChart.Session

/-!
# Steps of a session

What a step that is made of others does to a session is what they do one after the other (`Session.run_bind`).
-/

namespace AnimatedChart

namespace Session

variable {α β : Type} {s s' s'' : Session}

theorem run_bind (x : Step α) (f : α → Step β) :
    s.run (x >>= f) = match s.run x with
      | (.ok a, s') => s'.run (f a)
      | (.error e, s') => (.error e, s') := by
  unfold run
  rw [ExceptT.run_bind, StateT.run_bind]
  rcases (ExceptT.run x).run s with ⟨r, s'⟩
  cases r <;> rfl

@[simp]
theorem run_get : s.run (get : Step Session) = (.ok s, s) := rfl

@[simp]
theorem run_tell (e : Event) : s.run (tell e) = (.ok (), { s with events := s.events ++ [e] }) := rfl

@[simp]
theorem run_liftM (x : Except Error α) : s.run (liftM x : Step α) = (x, s) := by cases x <;> rfl

@[simp]
theorem run_within (context : String) (x : Step α) :
    s.run (x.within context) = ((s.run x).1.mapError (Error.within context), (s.run x).2) := rfl

/-! ## What is kept -/

def kept? (s : Session) (r : Cache.Request) : Option String :=
  match s.cache with
  | .null => none
  | .files c => c.find? (s.keyer.key r)

/-- The cache of a session has files for certain requests only, which are not mixed up and hold at all the times to
come. -/
structure Lasting (asked : Set Cache.Request) (times : Set Instant) (s : Session) : Prop where
  keys : Set.InjOn s.keyer.key asked
  files : ∃ c, s.cache = .files c ∧ c.Lasting (s.keyer.key '' asked) times
    ∧ Set.InjOn c.digest (s.keyer.key '' asked)

/-- A session passes into another by keeping `text?` for the request `r`, if it is anything. -/
structure Passes (asked : Set Cache.Request) (times : Set Instant) (r : Cache.Request) (text? : Option String)
    (s s' : Session) : Prop where
  lasting : s'.Lasting asked times
  keyer : s'.keyer = s.keyer
  now : s'.now = s.now
  ttl : s'.ttl = s.ttl
  kept : ∀ r' ∈ asked, s'.kept? r' = if r' = r then text?.or (s.kept? r') else s.kept? r'

variable {asked : Set Cache.Request} {times : Set Instant} {r : Cache.Request} {text? : Option String}

theorem Lasting.mono (h : s.Lasting asked times) {times' : Set Instant} (hsub : times' ⊆ times) :
    s.Lasting asked times' := by
  obtain ⟨c, hc, hlasting, hinj⟩ := h.files
  exact ⟨h.keys, c, hc, hlasting.mono hsub, hinj⟩

theorem Lasting.passes (h : s.Lasting asked times) (hcache : s'.cache = s.cache) (hkeyer : s'.keyer = s.keyer)
    (hnow : s'.now = s.now) (httl : s'.ttl = s.ttl) : Passes asked times r none s s' where
  lasting := ⟨hkeyer ▸ h.keys, by rw [hcache, hkeyer]; exact h.files⟩
  keyer := hkeyer
  now := hnow
  ttl := httl
  kept := fun r' _ => by
    have hkept : s'.kept? r' = s.kept? r' := by rw [kept?, kept?, hcache, hkeyer]
    rw [hkept, Option.none_or, ite_self]

theorem Lasting.told (h : s.Lasting asked times) (e : Event) :
    Lasting asked times { s with events := s.events ++ [e] } :=
  ⟨h.keys, h.files⟩

theorem Passes.after_told {e : Event} (h : Passes asked times r text? { s with events := s.events ++ [e] } s') :
    Passes asked times r text? s s' :=
  ⟨h.lasting, h.keyer, h.now, h.ttl, h.kept⟩

theorem Passes.trans (h : Passes asked times r none s s') (h' : Passes asked times r text? s' s'') :
    Passes asked times r text? s s'' where
  lasting := h'.lasting
  keyer := h'.keyer.trans h.keyer
  now := h'.now.trans h.now
  ttl := h'.ttl.trans h.ttl
  kept := fun r' hr' => by
    have hkept : s'.kept? r' = s.kept? r' := by rw [h.kept r' hr', Option.none_or, ite_self]
    rw [h'.kept r' hr', hkept]

theorem Passes.lifetime (h : Passes asked times r text? s s') : s'.lifetime = s.lifetime := by
  rw [Session.lifetime, h.ttl]
  rfl

def Outlasts (s : Session) (times : Set Instant) : Prop :=
  ∀ t ∈ times, t.nanoseconds ≤ s.now.nanoseconds + s.lifetime.nanoseconds

theorem Passes.outlasts (h : Passes asked times r text? s s') (hlate : s.Outlasts times) : s'.Outlasts times := by
  rw [Outlasts, h.now, h.lifetime]
  exact hlate

theorem run_findKept (h : s.Lasting asked times) (hr : r ∈ asked) (hnow : s.now ∈ times) :
    s.run (findKept r) = (.ok (s.kept? r), s) := by
  obtain ⟨c, hc, hlasting, hinj⟩ := h.files
  have hget := hlasting.get_eq hinj (Set.mem_image_of_mem _ hr) hnow
  have hcache : s.cache.get s.now (s.keyer.key r) = (s.kept? r, s.cache) := by
    rw [kept?, hc, Cache.get, hget]
    rfl
  show (Except.ok (s.cache.get s.now (s.keyer.key r)).1,
    { s with cache := (s.cache.get s.now (s.keyer.key r)).2 }) = _
  rw [hcache]

theorem run_answered (h : s.Lasting asked times) (hr : r ∈ asked) (hnow : s.now ∈ times)
    (read : String → Except Error α) :
    ∃ s', s.run (answered r read) = (.ok ((s.kept? r).bind fun data => (read data).toOption), s')
      ∧ Passes asked times r none s s' := by
  unfold answered
  rw [run_bind, run_findKept h hr hnow]
  dsimp only
  cases (s.kept? r).bind fun data => (read data).toOption with
  | some _ | none => exact ⟨_, rfl, h.passes rfl rfl rfl rfl⟩

theorem run_remembered (h : s.Lasting asked times) (hr : r ∈ asked) (hnow : s.now ∈ times)
    (read : String → Except Error α) (refresh : Bool) :
    ∃ a? s', s.run (remembered r read refresh) = (.ok a?, s') ∧ Passes asked times r none s s'
      ∧ (∀ a, a? = some a → refresh = false ∧ ∃ t, s.kept? r = some t ∧ read t = .ok a)
      ∧ (a? = none → refresh = true ∨ ∀ t, s.kept? r = some t → ∀ a, read t ≠ .ok a) := by
  cases refresh with
  | true => exact ⟨none, s, rfl, h.passes rfl rfl rfl rfl, by simp, fun _ => .inl rfl⟩
  | false =>
    obtain ⟨s', hrun, hpass⟩ := run_answered h hr hnow read
    refine ⟨_, s', hrun, hpass, fun a ha => ?_, fun hnone => .inr fun t ht a ha => ?_⟩
    · obtain ⟨t, ht, hread⟩ := Option.bind_eq_some_iff.mp ha
      exact ⟨rfl, t, ht, toOption_eq_some.mp hread⟩
    · rw [ht, Option.bind_some, toOption_eq_some.mpr ha] at hnone
      cases hnone

theorem run_keep (h : s.Lasting asked times) (hr : r ∈ asked) (data : String) {ttl : Duration}
    (hlate : ∀ t ∈ times, t.nanoseconds ≤ s.now.nanoseconds + ttl.nanoseconds) :
    ∃ s', s.run (keep r data ttl) = (.ok (), s') ∧ Passes asked times r (some data) s s' := by
  obtain ⟨c, hc, hlasting, hinj⟩ := h.files
  have hkey : s.keyer.key r ∈ s.keyer.key '' asked := Set.mem_image_of_mem _ hr
  refine ⟨_, rfl, ⟨h.keys, c.set s.now (s.keyer.key r) data ttl, ?_, hlasting.set hkey hlate, hinj⟩, rfl, rfl, rfl,
    fun r' hr' => ?_⟩
  · show s.cache.set _ _ _ _ = _
    rw [hc]
    rfl
  · have hfind : (c.set s.now (s.keyer.key r) data ttl).find? (s.keyer.key r')
        = if s.keyer.key r' = s.keyer.key r then some data else c.find? (s.keyer.key r') :=
      Cache.FileCache.find?_set hinj hkey (Set.mem_image_of_mem _ hr')
    simp only [h.keys.eq_iff hr' hr] at hfind
    simp only [kept?, hc]
    exact hfind

theorem run_keepText (h : s.Lasting asked times) (hr : r ∈ asked) (hlate : s.Outlasts times)
    (text : Except Error String) :
    ∃ s', s.run (keepText r text) = (.ok (), s') ∧ Passes asked times r text.toOption s s' := by
  cases text with
  | error e => exact ⟨s, rfl, h.passes rfl rfl rfl rfl⟩
  | ok text => exact run_keep h hr text hlate

theorem run_tell_keepText (h : s.Lasting asked times) (hr : r ∈ asked) (hlate : s.Outlasts times) (e : Event)
    (text : Except Error String) (a : α) :
    ∃ s', s.run (do tell e; keepText r text; return a) = (.ok a, s') ∧ Passes asked times r text.toOption s s' := by
  obtain ⟨s', hkeep, hpass⟩ := run_keepText (h.told e) hr hlate text
  refine ⟨s', ?_, hpass.after_told⟩
  rw [run_bind, run_tell]
  dsimp only
  rw [run_bind, hkeep]
  rfl

end Session

end AnimatedChart
