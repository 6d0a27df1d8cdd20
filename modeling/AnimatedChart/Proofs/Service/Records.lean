import Mathlib.Data.Bool.AllAny
import Mathlib.Data.List.TakeWhile
import AnimatedChart.Proofs.Pipeline
import AnimatedChart.Service.Basic

/-!
# Records of a service

The answer to a chart that was compiled names a record, and the graph of that record is the graph of the answer
(`handle_compiled`), through any number of requests: the store and the cache are filled separately, but all records of
a document have the graph that is kept of it (`Sound`), which never changes.
-/

open List AnimatedChart.Dict

namespace AnimatedChart.Service

open Text

def plainChars : List Char := "0123456789abcdef-/vgrphs".toList

theorem plainChars_spec : ∀ c ∈ plainChars, c ≠ '?' ∧ c ≠ '%' ∧ bytes (String.ofList [c]) = [UInt8.ofNat c.toNat]
    ∧ isPathByte (UInt8.ofNat c.toNat) = true ∧ Char.ofNat (UInt8.ofNat c.toNat).toNat = c
    ∧ UInt8.ofNat c.toNat < 0x80 :=
  all_iff_forall_prop.mp (by decide +kernel)

theorem unescape_plain {cs : List Char} (h : ∀ c ∈ cs, c ∈ plainChars) :
    ∃ bs, unescape false cs = some bs ∧ escapePath bs = cs ∧ charsOfBytes 0 bs = cs := by
  induction cs with
  | nil => exact ⟨[], rfl, rfl, rfl⟩
  | cons c cs ih =>
    obtain ⟨hc, hcs⟩ := forall_mem_cons.mp h
    obtain ⟨-, hpercent, hbytes, hpath, hchar, hsmall⟩ := plainChars_spec c hc
    obtain ⟨bs, hunescape, hescape, hchars⟩ := ih hcs
    refine ⟨UInt8.ofNat c.toNat :: bs, ?_, ?_, ?_⟩
    · rw [unescape, if_neg hpercent, hunescape]
      · show some (bytes (String.ofList [c]) ++ bs) = _
        rw [hbytes]
        rfl
      · intro a b rest heq
        exact absurd heq hpercent
    · rw [escapePath, flatMap_cons, if_pos hpath, hchar]
      exact congrArg (c :: ·) hescape
    · have hlead : leadingChar? (UInt8.ofNat c.toNat :: bs) = some (c, 1) := by
        simp only [leadingChar?, hchar]
        exact if_pos hsmall
      rw [charsOfBytes, hlead]
      exact congrArg (c :: ·) hchars

theorem path_ofTarget {cs : List Char} (h : ∀ c ∈ cs, c ∈ plainChars) :
    (Address.ofTarget (String.ofList cs)).path = String.ofList cs := by
  have hraw : cs.takeWhile (· != '?') = cs :=
    takeWhile_eq_self_iff.mpr fun c hc => bne_iff_ne.mpr (plainChars_spec c (h c hc)).1
  obtain ⟨bs, hunescape, hescape, hchars⟩ := unescape_plain h
  simp only [Address.ofTarget, String.toList_ofList, hraw, hunescape, hescape, beq_self_eq_true, if_true, ofBytes, hchars]

theorem cut_of_not_mem {separator : Char} {cs : List Char} (h : separator ∉ cs) : cut separator cs = (cs, []) := by
  induction cs with
  | nil => rfl
  | cons c cs ih =>
    rw [cut, ih fun hmem => h (mem_cons_of_mem c hmem)]
    exact if_neg fun heq : c = separator => h (heq ▸ mem_cons_self)

def graphTarget (id : String) : String := "/v1/graphs/" ++ id

theorem route_graphTarget {id : String} (hne : id ≠ "")
    (hdigits : id.toList.all ("0123456789abcdef-".toList.contains ·) = true) :
    Route.ofPath? (Address.ofTarget (graphTarget id)).path = some (.graph id) := by
  have h : ∀ c ∈ id.toList, c ∈ "0123456789abcdef-".toList :=
    fun c hc => contains_iff_mem.mp (all_eq_true.mp hdigits c hc)
  have hplain : ∀ c ∈ "/v1/graphs/".toList ++ id.toList, c ∈ plainChars := by
    have hwords : ∀ c ∈ "/v1/graphs/".toList, c ∈ plainChars := all_iff_forall_prop.mp (by decide)
    have hdigits : ∀ c ∈ "0123456789abcdef-".toList, c ∈ plainChars := all_iff_forall_prop.mp (by decide)
    exact forall_mem_append.mpr ⟨hwords, fun c hc => hdigits c (h c hc)⟩
  have hslash : '/' ∉ id.toList := fun hmem => absurd (h _ hmem) (by decide)
  have htarget : graphTarget id = String.ofList ("/v1/graphs/".toList ++ id.toList) := by
    rw [graphTarget, String.ofList_append, String.ofList_toList, String.ofList_toList]
  have hcut : cut '/' ("/v1/graphs/".toList ++ id.toList) = ([], ["v1".toList, "graphs".toList, id.toList]) := by
    show cut '/' ('/' :: 'v' :: '1' :: '/' :: 'g' :: 'r' :: 'a' :: 'p' :: 'h' :: 's' :: '/' :: id.toList) = _
    simp [cut, cut_of_not_mem hslash]
  rw [htarget, path_ofTarget hplain, Route.ofPath?, String.toList_ofList, parts, hcut]
  simp [hne]

end AnimatedChart.Service

open List

namespace AnimatedChart

open Json Pipeline

namespace Store

def IsPlain (id : String) : Prop :=
  checkId id = .ok () ∧ id.toList.all ("0123456789abcdef-".toList.contains ·) = true

theorem IsPlain.ne_empty {id : String} (h : IsPlain id) : id ≠ "" := by
  rintro rfl
  cases h.1

theorem foldl_newer {rs : List Record} {best : Option Record} {r : Record} (h : rs.foldl newer best = some r) :
    best = some r ∨ r ∈ rs := by
  induction rs generalizing best with
  | nil => exact .inl h
  | cons x rs ih =>
    rcases ih h with h | h
    · unfold newer at h
      split at h
      · exact .inr (Option.some.inj h ▸ mem_cons_self)
      · split at h
        · exact .inr (Option.some.inj h ▸ mem_cons_self)
        · exact .inl h
    · exact .inr (mem_cons_of_mem x h)

theorem lookup_eq_ok {s : Store} {document compiler : String} {r : Record} (h : s.lookup document compiler = .ok r) :
    r.document = document ∧ ∃ id, (id, r) ∈ s.records := by
  simp only [lookup] at h
  split at h
  · next found hfound =>
    cases h
    obtain ⟨hmem, hof⟩ := mem_filter.mp ((foldl_newer hfound).resolve_left (by simp))
    obtain ⟨e, he, rfl⟩ := mem_map.mp hmem
    exact ⟨(by simpa using hof : _ ∧ _).1, e.1, he⟩
  · cases h

end Store

namespace Service

/-! ## Calls -/

/-- A request, when it comes in, and the identifier for a record that it may make. -/
structure Call where
  now : Instant
  fresh : String
  request : Request

def Call.Compiles (c : Call) : Prop :=
  c.request.method = "POST" ∧ Route.ofPath? (Address.ofTarget c.request.target).path = some .compile

def clocked (s : Service) (now : Instant) : Service := { s with session := { s.session with now } }

def serve (s : Service) : List Call → List (Call × Response) × Service
  | [] => ([], s)
  | c :: cs =>
    let (r, s') := (s.clocked c.now).handle c.fresh c.request
    let (answers, s'') := s'.serve cs
    ((c, r) :: answers, s'')

def Response.member? (r : Response) (name : String) : Option Fragment :=
  match r.body with
  | .json f => (Reader.membersOf f).toOption.bind (get? · name)
  | .text _ => none

theorem member?_recordOf {status : Nat} {fields : List (String × Option Fragment)}
    (hdistinct : Reader.Distinct (fields.map (·.1))) {name : String} {o : Option Fragment} (h : (name, o) ∈ fields) :
    (Response.json status (.recordOf fields)).member? name = o := by
  have hmerges := Fragment.merges_written Sorted.nil hdistinct
  show ((Reader.membersOf (.recordOf fields)).toOption.bind (get? · name)) = o
  rw [Fragment.recordOf, Fragment.recordWith, Fragment.membersOf_record]
  exact hmerges.get?_field h (by simp)

theorem status_ofError (e : Error) : (Response.ofError e).status ≠ 200 := by
  unfold Response.ofError
  split
  · decide
  · show statusOf e.code? ≠ 200
    unfold statusOf
    split <;> decide

theorem member?_compiled (id : String) (graph : Fragment) (r : Result) :
    (compiled id graph r).member? "id" = some (.text id) ∧ (compiled id graph r).member? "graph" = some graph := by
  have hdistinct : Reader.Distinct ["id", "graph", "stats", "cached", "unresolved"] := by decide
  constructor
  · exact member?_recordOf (by exact hdistinct) mem_cons_self
  · exact member?_recordOf (by exact hdistinct) (mem_cons_of_mem _ mem_cons_self)

/-! ## One call -/

/-- All records of a service have the graph that is kept of their document. -/
structure Sound (base : Animation.BaseCompiler) (docs : Set String) (times : Set Instant) (s : Service) : Prop where
  session : Agrees base docs times s.session
  sorted : Sorted s.store.records
  records : ∀ e ∈ s.store.records, e.2.id = e.1 ∧ Store.IsPlain e.1 ∧ ∃ d ∈ docs,
    e.2.document = s.session.keyer.digest d ∧ graphKept? base s.session d = some e.2.graph

/-- A response has the identifier and the graph of a record of the document. -/
def Names (s : Service) (doc : String) (r : Response) : Prop :=
  ∃ kept : Store.Record, ∃ graph, get? s.store.records kept.id = some kept ∧ Store.IsPlain kept.id
    ∧ kept.document = s.session.keyer.digest doc ∧ Fragment.parse? kept.graph = some graph
    ∧ r.member? "id" = some (.text kept.id) ∧ r.member? "graph" = some graph

/-- A service goes on from another, and has at most one more record. -/
structure Follows (fresh : String) (s s' : Service) : Prop where
  options : s'.options = s.options
  keyer : s'.session.keyer = s.session.keyer
  ttl : s'.session.ttl = s.session.ttl
  records : ∀ id, id ≠ fresh → get? s'.store.records id = get? s.store.records id

variable {base : Animation.BaseCompiler} {docs : Set String} {times : Set Instant} {s : Service} {session : Session}
  {fresh graph doc : String} {result : Result}

theorem record_eq_ok {kept : Store.Record} {store : Store} (h : s.record fresh result graph = .ok (kept, store)) :
    kept.document = result.document ∧ ((store = s.store ∧ ∃ id, (id, kept) ∈ s.store.records)
      ∨ (kept.id = fresh ∧ kept.graph = graph ∧ store = { records := put fresh kept s.store.records })) := by
  unfold record at h
  dsimp only at h
  split at h
  · next found hfound =>
    obtain ⟨rfl, rfl⟩ := Prod.mk.inj (Except.ok.inj h)
    split at hfound
    · obtain ⟨hdocument, hmem⟩ := Store.lookup_eq_ok (toOption_eq_some.mp hfound)
      exact ⟨hdocument, .inl ⟨rfl, hmem⟩⟩
    · cases hfound
  · obtain ⟨store', hput, hpair⟩ := bind_eq_ok.mp h
    obtain ⟨rfl, rfl⟩ := Prod.mk.inj (Except.ok.inj hpair)
    obtain ⟨-, -, hstore⟩ := bind_eq_ok.mp hput
    exact ⟨rfl, .inr ⟨rfl, rfl, (Except.ok.inj hstore).symm⟩⟩

theorem Sound.publish (h : Sound base docs times { s with session }) (hd : doc ∈ docs) (hfresh : Store.IsPlain fresh)
    (hdocument : result.document = session.keyer.digest doc)
    (hkept : ∀ t, result.graph.encode = .ok t → graphKept? base session doc = some t) {response : Response}
    {store : Store} (hok : s.publish fresh result = .ok (response, store)) :
    Sound base docs times { s with session, store } ∧ Names { s with session, store } doc response
      ∧ ∀ id, id ≠ fresh → get? store.records id = get? s.store.records id := by
  obtain ⟨text, htext, hok⟩ := bind_eq_ok.mp hok
  have htext := hkept text (mapError_eq_ok.mp htext)
  obtain ⟨⟨kept, store'⟩, hrecord, hok⟩ := bind_eq_ok.mp hok
  dsimp only at hok
  split at hok
  · cases hok
  next graph hgraph =>
  obtain ⟨rfl, rfl⟩ := Prod.mk.inj (Except.ok.inj hok)
  obtain ⟨hof, hcases⟩ := record_eq_ok hrecord
  obtain ⟨hid, hgraphOf⟩ := member?_compiled kept.id graph result
  rcases hcases with ⟨rfl, id, hmem⟩ | ⟨rfl, rfl, rfl⟩
  · -- The record was stored for the same document, so that it has the graph that is kept.
    obtain ⟨heq, hplain, d, hd', hdigest, hgraph'⟩ := h.records _ hmem
    obtain rfl : kept.id = id := heq
    obtain rfl : d = doc := h.session.digest hd' hd (hdigest.symm.trans (hof.trans hdocument))
    obtain rfl : kept.graph = text := Option.some.inj (hgraph'.symm.trans htext)
    exact ⟨h, ⟨kept, graph, (get?_eq_some h.sorted).mpr hmem, hplain, hof.trans hdocument, hgraph, hid, hgraphOf⟩,
      fun _ _ => rfl⟩
  · refine ⟨⟨h.session, h.sorted.put _ _, fun e he => ?_⟩, ⟨kept, graph, ?_, hfresh, hof.trans hdocument, hgraph, hid,
      hgraphOf⟩, fun id hne => ?_⟩
    · rcases mem_of_mem_put he with rfl | he
      · exact ⟨rfl, hfresh, doc, hd, hof.trans hdocument, htext⟩
      · exact h.records e he
    · rw [get?_put, if_pos rfl]
    · rw [get?_put, if_neg hne]

theorem Sound.later (h : Sound base docs times s) (hagrees : Agrees base docs times session)
    (hcontinues : Continues base docs s.session session) : Sound base docs times { s with session } where
  session := hagrees
  sorted := h.sorted
  records := fun e he => by
    obtain ⟨hid, hplain, d, hd, hdigest, hgraph⟩ := h.records e he
    exact ⟨hid, hplain, d, hd, by rw [hdigest, ← hcontinues.keyer], hcontinues.graphs d hd _ hgraph⟩

theorem Sound.compile (h : Sound base docs times s) (hbase : s.options.withDefaults.baseCompiler = .ok base)
    {r : Request} (hd : r.body ∈ docs) (hnow : s.session.now ∈ times) (hlate : s.session.Outlasts times)
    (hstable : ∀ c, Source r.body c → ∀ g, graphOf base c = .ok g → g.Stable) (hfresh : Store.IsPlain fresh)
    (a : Address) : ∃ response s', s.compile fresh a r = (response, s') ∧ Sound base docs times s' ∧ Follows fresh s s'
      ∧ (response.status = 200 → Names s' r.body response) := by
  unfold Service.compile
  cases hdoc : document r with
  | error e => exact ⟨_, s, rfl, h, ⟨rfl, rfl, rfl, fun _ _ => rfl⟩, fun hok => absurd hok (status_ofError e)⟩
  | ok doc =>
    obtain rfl : r.body = doc := by
      unfold document at hdoc
      split at hdoc
      · cases hdoc
      · split at hdoc
        · cases hdoc
        · exact Except.ok.inj hdoc
    obtain ⟨result, session, hrun, hagrees, hcontinues, hresult⟩ := h.session.run_execute hd hnow hlate hstable
      (o := { s.options with check := a.flag "check" s.options.check, refresh := a.flag "refresh" s.options.refresh })
      hbase
    have hsound := h.later hagrees hcontinues
    have hfollows : Follows fresh s { s with session } :=
      ⟨rfl, hcontinues.keyer, hcontinues.ttl, fun _ _ => rfl⟩
    dsimp only
    rw [hrun]
    cases result with
    | error e => exact ⟨_, _, rfl, hsound, hfollows, fun hok => absurd hok (status_ofError e)⟩
    | ok result =>
      obtain ⟨hdocument, hkept⟩ := hresult result rfl
      dsimp only
      cases hpublish : s.publish fresh result with
      | error e => exact ⟨_, _, rfl, hsound, hfollows, fun hok => absurd hok (status_ofError e)⟩
      | ok published =>
        obtain ⟨response, store⟩ := published
        obtain ⟨hstored, hnames, hrecords⟩ := hsound.publish hd hfresh (by rw [hdocument, hcontinues.keyer]) hkept
          hpublish
        exact ⟨response, { s with session, store }, rfl, hstored, ⟨rfl, hcontinues.keyer, hcontinues.ttl, hrecords⟩,
          fun _ => hnames⟩

/-! ## Call after call -/

theorem handle_compiles {c : Call} (h : c.Compiles) (s : Service) :
    s.handle c.fresh c.request = s.compile c.fresh (Address.ofTarget c.request.target) c.request := by
  simp [handle, h.1, h.2, methods, Route.method]

theorem Sound.clocked (h : Sound base docs times s) (now : Instant) : Sound base docs times (s.clocked now) :=
  ⟨⟨⟨h.session.lasting.keys, h.session.lasting.files⟩, h.session.digest, h.session.kept⟩, h.sorted, h.records⟩

theorem Sound.mono (h : Sound base docs times s) {times' : Set Instant} (hsub : times' ⊆ times) :
    Sound base docs times' s :=
  ⟨⟨h.session.lasting.mono hsub, h.session.digest, h.session.kept⟩, h.sorted, h.records⟩

/-- A service is ready for calls that compile some documents: they have identifiers of their own, and none of them comes
so late that what was kept for an earlier one has expired. -/
structure Ready (base : Animation.BaseCompiler) (docs : Set String) (s : Service) (calls : List Call) : Prop where
  sound : Sound base docs { t | ∃ c ∈ calls, c.now = t } s
  compiler : s.options.withDefaults.baseCompiler = .ok base
  stable : ∀ d ∈ docs, ∀ c, Source d c → ∀ g, graphOf base c = .ok g → g.Stable
  compiles : ∀ c ∈ calls, c.Compiles ∧ c.request.body ∈ docs
  plain : ∀ c ∈ calls, Store.IsPlain c.fresh
  unused : ∀ c ∈ calls, get? s.store.records c.fresh = none
  distinct : (calls.map (·.fresh)).Nodup
  timely : calls.Pairwise fun c c' => c'.now.nanoseconds ≤ c.now.nanoseconds + s.session.lifetime.nanoseconds

theorem lifetime_nonneg (s : Session) : 0 ≤ s.lifetime.nanoseconds := by
  unfold Session.lifetime
  split
  · omega
  · decide

theorem Ready.step {c : Call} {cs : List Call} (h : Ready base docs s (c :: cs)) :
    ∃ r s', (s.clocked c.now).handle c.fresh c.request = (r, s') ∧ Ready base docs s' cs
      ∧ s'.session.keyer = s.session.keyer
      ∧ (∀ id k, get? s.store.records id = some k → get? s'.store.records id = some k)
      ∧ (r.status = 200 → Names s' c.request.body r) := by
  obtain ⟨hcompiles, hrest⟩ := forall_mem_cons.mp h.compiles
  obtain ⟨hplain, hplains⟩ := forall_mem_cons.mp h.plain
  obtain ⟨hunused, hunuseds⟩ := forall_mem_cons.mp h.unused
  obtain ⟨hother, hdistinct⟩ := nodup_cons.mp h.distinct
  obtain ⟨hlate, htimely⟩ := pairwise_cons.mp h.timely
  have hlate' : (s.clocked c.now).session.Outlasts { t | ∃ c' ∈ c :: cs, c'.now = t } := by
    rintro _ ⟨c', hc', rfl⟩
    rcases mem_cons.mp hc' with rfl | hc'
    · exact Int.le_add_of_nonneg_right (lifetime_nonneg s.session)
    · exact hlate c' hc'
  obtain ⟨r, s', hrun, hsound, hfollows, hnames⟩ := (h.sound.clocked c.now).compile h.compiler hcompiles.2
    ⟨c, mem_cons_self, rfl⟩ hlate' (h.stable _ hcompiles.2) hplain (Address.ofTarget c.request.target)
  have hlifetime : s'.session.lifetime = s.session.lifetime := by
    rw [Session.lifetime, hfollows.ttl]
    rfl
  have hne : ∀ c' ∈ cs, c'.fresh ≠ c.fresh := fun c' hc' heq => hother (mem_map.mpr ⟨c', hc', heq⟩)
  refine ⟨r, s', (handle_compiles hcompiles.1 _).trans hrun, ?_, hfollows.keyer, fun id k hk => ?_, hnames⟩
  · have hlater : { t | ∃ c' ∈ cs, c'.now = t } ⊆ { t | ∃ c' ∈ c :: cs, c'.now = t } := by
      rintro t ⟨c', hc', ht⟩
      exact ⟨c', mem_cons_of_mem c hc', ht⟩
    refine ⟨hsound.mono hlater, hfollows.options ▸ h.compiler, h.stable,
      hrest, hplains, fun c' hc' => ?_, hdistinct, hlifetime ▸ htimely⟩
    exact (hfollows.records _ (hne c' hc')).trans (hunuseds c' hc')
  · refine (hfollows.records id ?_).trans hk
    rintro rfl
    exact Option.some_ne_none k (hk.symm.trans hunused)

theorem Ready.serve {calls : List Call} (h : Ready base docs s calls) :
    (s.serve calls).2.session.keyer = s.session.keyer
      ∧ (∀ id k, get? s.store.records id = some k → get? (s.serve calls).2.store.records id = some k)
      ∧ ∀ x ∈ (s.serve calls).1, x.2.status = 200 → Names (s.serve calls).2 x.1.request.body x.2 := by
  induction calls generalizing s with
  | nil => exact ⟨rfl, fun _ _ hk => hk, nofun⟩
  | cons c cs ih =>
    obtain ⟨r, s', hrun, hready, hkeyer, hrecords, hnames⟩ := h.step
    obtain ⟨hkeyer', hrecords', hrest⟩ := ih hready
    rw [Service.serve, hrun]
    refine ⟨hkeyer'.trans hkeyer, fun id k hk => hrecords' id k (hrecords id k hk), ?_⟩
    refine forall_mem_cons.mpr ⟨fun hok => ?_, hrest⟩
    obtain ⟨kept, graph, hget, hplain, hdocument, hgraph, hmembers⟩ := hnames hok
    exact ⟨kept, graph, hrecords' _ _ hget, hplain, by rw [hdocument, ← hkeyer'], hgraph, hmembers⟩

theorem Names.handle {r : Response} (h : Names s doc r) : ∃ id graph, r.member? "id" = some (.text id)
    ∧ r.member? "graph" = some graph ∧ ∀ fresh, ∃ answer,
      s.handle fresh { method := "GET", target := graphTarget id } = (answer, s) ∧ answer.status = 200
        ∧ answer.member? "id" = some (.text id) ∧ answer.member? "doc_hash" = some (.text (s.session.keyer.digest doc))
        ∧ answer.member? "graph" = some graph := by
  obtain ⟨kept, graph, hget, hplain, hdocument, hgraph, hid, hof⟩ := h
  refine ⟨kept.id, graph, hid, hof, fun fresh => ⟨s.graph kept.id, ?_, ?_⟩⟩
  · simp [Service.handle, methods, Route.method, route_graphTarget hplain.ne_empty hplain.2]
  · have hfragment : kept.toFragment = .ok (.recordOf [("id", some (.text kept.id)),
        ("doc_hash", some (.text (s.session.keyer.digest doc))), ("compiler", some (.text kept.compiler)),
        ("graph", some graph), ("stats", some kept.stats.toFragment),
        ("created_at", some (.text kept.created.text))]) := by
      rw [Store.Record.toFragment, hgraph, ← hdocument]
      rfl
    have hstored : s.store.get kept.id = .ok kept := by rw [Store.get, hget]
    have hdistinct : Reader.Distinct ["id", "doc_hash", "compiler", "graph", "stats", "created_at"] := by decide
    simp only [Service.graph, hplain.1, hstored, bind, Except.bind, hfragment]
    exact ⟨rfl, member?_recordOf (by exact hdistinct) (by simp), member?_recordOf (by exact hdistinct) (by simp),
      member?_recordOf (by exact hdistinct) (by simp)⟩

/-! ## A new service -/

def documents (calls : List Call) : Set String := { d | ∃ x ∈ calls, x.request.body = d }

/-- Calls to a new service that compile documents. -/
structure Begins (base : Animation.BaseCompiler) (c : Cache.FileCache) (s : Service) (calls : List Call) : Prop where
  cache : s.session.cache = .files c
  files : c.files = []
  store : s.store.records = []
  compiler : s.options.withDefaults.baseCompiler = .ok base
  compiles : ∀ x ∈ calls, x.Compiles
  plain : ∀ x ∈ calls, Store.IsPlain x.fresh
  distinct : (calls.map (·.fresh)).Nodup
  timely : calls.Pairwise fun x y => y.now.nanoseconds ≤ x.now.nanoseconds + s.session.lifetime.nanoseconds
  digests : Set.InjOn s.session.keyer.digest
    (documents calls ∪ Cache.Request.text '' requests s.session.keyer base (documents calls))
  names : Set.InjOn c.digest (s.session.keyer.key '' requests s.session.keyer base (documents calls))
  stable : ∀ d ∈ documents calls, ∀ c, Source d c → ∀ g, graphOf base c = .ok g → g.Stable

variable {c : Cache.FileCache} {calls : List Call}

theorem Begins.ready (h : Begins base c s calls) : Ready base (documents calls) s calls := by
  have hnone : ∀ r, s.session.kept? r = none := by
    intro r
    simp only [Session.kept?, h.cache, Cache.FileCache.find?, h.files]
    rfl
  refine ⟨⟨⟨⟨?_, c, h.cache, .empty h.files, h.names⟩, ?_, fun d _ => ?_⟩, ?_, ?_⟩, h.compiler, h.stable, fun x hx =>
    ⟨h.compiles x hx, x, hx, rfl⟩, h.plain, fun x _ => ?_, h.distinct, h.timely⟩
  · exact Cache.Keyer.key_injOn (h.digests.mono Set.subset_union_right)
  · exact h.digests.mono Set.subset_union_left
  · rw [chartKept?, graphKept?, hnone, hnone]
    exact .none
  · rw [h.store]
    exact .nil
  · rw [h.store]
    simp
  · rw [h.store]
    rfl

/-- After any calls that compile documents, every answer that all is well names a record of its own document, and whoever
asks for that record gets the graph of the answer. -/
theorem compiled_named (h : Begins base c s calls) : ∀ x ∈ (s.serve calls).1, x.2.status = 200 →
    ∃ id graph, x.2.member? "id" = some (.text id) ∧ x.2.member? "graph" = some graph ∧ ∀ fresh, ∃ answer,
      (s.serve calls).2.handle fresh { method := "GET", target := graphTarget id } = (answer, (s.serve calls).2)
        ∧ answer.status = 200 ∧ answer.member? "id" = some (.text id)
        ∧ answer.member? "doc_hash" = some (.text (s.session.keyer.digest x.1.request.body))
        ∧ answer.member? "graph" = some graph := by
  intro x hx hok
  obtain ⟨hkeyer, -, hnames⟩ := h.ready.serve
  rw [← hkeyer]
  exact (hnames x hx hok).handle

def forgetful : Animation.BaseCompiler where
  name := "forgetful"
  compile _ _ := (Graph.parse "\x7b\"signals\": [\x7b\"name\": \"a\", \"update\": \"b\"\x7d]\x7d").map some

def trial : Service where
  session := { cache := .files { digest := id }, keyer := { digest := id } }
  options := { base := some forgetful }

def still : String := "\x7b\"mark\": \"point\"\x7d"

def post (now : Int) (digit query : String) : Call where
  now := ⟨now⟩
  fresh := "00000000-0000-4000-8000-00000000000" ++ digit
  request := { method := "POST", target := "/v1/compile" ++ query, body := still }

/-- It is posted to be checked, as it is, to be compiled anew, and once more as it is. -/
def trialCalls : List Call := [post 0 "a" "?check=true", post 5 "b" "", post 9 "c" "?refresh=true", post 9 "d" ""]

/-- The graph of a chart is stable, in a form that can be decided. -/
abbrev Restores (c : Spec.Chart) : Prop := ∀ g ∈ (graphOf forgetful c).toOption, ∀ t ∈ g.encode.toOption,
  ∃ g' ∈ (Graph.parse t).toOption, g'.encode.toOption = some t

theorem begins_trial : Begins forgetful { digest := id } trial trialCalls where
  cache := rfl
  files := rfl
  store := rfl
  compiler := rfl
  compiles := by
    show ∀ x ∈ trialCalls, x.request.method = "POST" ∧ Route.ofPath? (Address.ofTarget x.request.target).path = some .compile
    decide +kernel
  plain := by
    have hplain : ∀ x ∈ trialCalls, (Store.checkId x.fresh).toOption = some ()
        ∧ x.fresh.toList.all ("0123456789abcdef-".toList.contains ·) = true := by
      decide +kernel
    exact fun x hx => ⟨toOption_eq_some.mp (hplain x hx).1, (hplain x hx).2⟩
  distinct := by decide +kernel
  timely := by decide +kernel
  digests := Function.injective_id.injOn
  names := Function.injective_id.injOn
  stable := by
    have hcheck : ∀ c₀ ∈ (Spec.Chart.parse still).toOption, Restores c₀.elaborate
        ∧ ∀ t ∈ c₀.elaborate.encode.toOption, ∀ c ∈ (Spec.Chart.parse t).toOption, Restores c := by
      decide +kernel
    have hbody : ∀ x ∈ trialCalls, x.request.body = still := by simp [trialCalls, post]
    rintro d ⟨x, hx, rfl⟩ c ⟨c₀, hc₀, hc⟩ g hg t ht
    rw [hbody x hx] at hc₀
    obtain ⟨hmade, hread⟩ := hcheck c₀ (toOption_eq_some.mpr hc₀)
    have hrestores : Restores c := by
      rcases hc with rfl | ⟨t', ht', hc⟩
      · exact hmade
      · exact hread t' (toOption_eq_some.mpr ht') c (toOption_eq_some.mpr hc)
    obtain ⟨g', hg', ht'⟩ := hrestores g (toOption_eq_some.mpr hg) t (toOption_eq_some.mpr ht)
    exact ⟨g', toOption_eq_some.mp hg', toOption_eq_some.mp ht'⟩

/-- The first answer is an error, and the last one names a record that was made before. -/
theorem compiled_named_trial : Begins forgetful { digest := id } trial trialCalls
    ∧ (trial.serve trialCalls).1.map (·.2.status) = [400, 200, 200, 200]
    ∧ ∀ x ∈ (trial.serve trialCalls).1, x.2.status = 200 →
      ∃ id graph, x.2.member? "id" = some (.text id) ∧ x.2.member? "graph" = some graph ∧ ∀ fresh, ∃ answer,
        (trial.serve trialCalls).2.handle fresh { method := "GET", target := graphTarget id }
            = (answer, (trial.serve trialCalls).2)
          ∧ answer.status = 200 ∧ answer.member? "id" = some (.text id)
          ∧ answer.member? "doc_hash" = some (.text x.1.request.body) ∧ answer.member? "graph" = some graph :=
  ⟨begins_trial, by decide +kernel, compiled_named begins_trial⟩

end Service

end AnimatedChart
