import AnimatedChart.Proofs.Animation.Clock
import AnimatedChart.Proofs.Dependency.Mentions
import AnimatedChart.Proofs.Scope.Names

/-!
# Time fields in expressions

The field that a scope animates through may be any text, and the signal of the time values is named by it as it is.
-/

open List

namespace AnimatedChart.Dependency

open Animation Token

variable {before : Option Char} {e n : String} {ts : List Token}

/-! ## Signals are identifiers -/

theorem Token.isIdentifier_of_mem_scan {cs : List Char} (h : ident n ∈ scan cs) : isIdentifier n = true := by
  fun_induction scan cs with
  | case1 => cases h
  | case2 c cs _ ih => exact ih h
  | case3 c cs _ _ ih => exact ih (by simpa using h)
  | case4 c cs _ _ hstart ih =>
    rcases mem_cons.mp h with heq | h
    · obtain rfl := ident.inj heq
      rw [isIdentifier, String.toList_ofList, spellsIdentifier, ← isStart_eq, hstart, Bool.true_and, all_eq_true]
      intro d hd
      rw [← isPart_eq]
      exact mem_takeWhile_imp hd
    · exact ih h
  | case5 c cs _ _ _ _ ih => exact ih (by simpa using h)
  | case6 c cs _ _ _ _ ih => exact ih (by simpa using h)

theorem identReference?_signal {m : String} {after : List Token} (h : ⟨.signal, n⟩ ∈ identReference? before m after) :
    n = m := by
  by_cases hopen : after.head? = some (symbol '(')
  · -- What the argument of a function names is never a signal.
    obtain ⟨after, rfl⟩ : ∃ ts, after = symbol '(' :: ts := by
      cases after with
      | nil => cases hopen
      | cons t ts => exact ⟨ts, by rw [Option.some.inj hopen]⟩
    have hkind (k : Kind) (hk : argumentKind? m = some k) : k ≠ .signal := by
      unfold argumentKind? at hk
      split at hk
      · cases hk; decide
      · split at hk
        · cases hk; decide
        · cases hk
    unfold identReference? at h
    split at h
    · cases h
    · split at h
      · obtain ⟨k, hk, heq⟩ := Option.map_eq_some_iff.mp h
        exact absurd (congrArg Ref.kind heq) (hkind k hk)
      · cases h
      · next _ hne => exact absurd rfl (hne after)
  · exact congrArg Ref.name (mem_identReference? hopen h).2

theorem mem_tokenReferences_signal (h : ⟨.signal, n⟩ ∈ tokenReferences before ts) : ident n ∈ ts := by
  fun_induction tokenReferences before ts with
  | case1 => cases h
  | case2 before m ts ih =>
    rcases mem_append.mp h with h | h
    · rw [identReference?_signal (Option.mem_toList.mp h)]
      exact mem_cons_self
    · exact mem_cons_of_mem _ (ih h)
  | case3 before t ts _ ih => exact mem_cons_of_mem _ (ih h)

theorem isIdentifier_of_mem_references (h : ⟨.signal, n⟩ ∈ references e) : isIdentifier n = true :=
  isIdentifier_of_mem_scan (mem_tokenReferences_signal (mem_filter.mp (mem_eraseDups.mp h)).1)

/-- The last character of tokens, where it can decide how the next token is read. -/
def Token.lastOf (before : Option Char) : List Token → Option Char
  | [] => before
  | t :: ts => lastOf t.last ts

theorem mem_tokenReferences_append {r : Ref} {us : List Token} (h : r ∈ tokenReferences (lastOf before ts) us) :
    r ∈ tokenReferences before (ts ++ us) := by
  induction ts generalizing before with
  | nil => exact h
  | cons t ts ih =>
    cases t with
    | ident n => exact mem_append_right _ (ih h)
    | string t => exact ih h
    | number t => exact ih h
    | symbol c => exact ih h

theorem mem_references_name {a rest : List Char} {c : Char} (he : e.toList = a ++ (n.toList ++ c :: rest))
    (ha : ∀ rest, scan (a ++ rest) = ts ++ scan rest) (hlast : lastOf none ts ≠ some '.') (hn : isIdentifier n = true)
    (hreserved : isReserved n = false) (hc : c ∈ [')', '[', ',']) : ⟨.signal, n⟩ ∈ references e := by
  obtain ⟨hpart, hblank, hquote, hopen, hcolon⟩ :
      isPart c = false ∧ isBlank c = false ∧ ¬(c = '\'' ∨ c = '"') ∧ c ≠ '(' ∧ c ≠ ':' := by
    simp only [mem_cons, not_mem_nil, or_false] at hc
    rcases hc with rfl | rfl | rfl <;> exact ⟨by decide, by decide, by decide, by decide, by decide⟩
  have hscan : scan e.toList = ts ++ ident n :: symbol c :: scan rest := by
    rw [he, ha, scan_identifier hn (.cons hpart), String.ofList_toList, scan_symbol hblank hquote hpart]
  have hne : n.isEmpty = false := by
    rw [← Bool.not_eq_true, String.isEmpty_iff]
    rintro rfl
    cases hn
  have hname : identReference? (lastOf none ts) n (symbol c :: scan rest) = some ⟨.signal, n⟩ := by
    unfold identReference?
    rw [if_neg hlast]
    split
    · next h => exact absurd (symbol.inj (List.cons.inj h).1) hopen
    · next h => exact absurd (symbol.inj (List.cons.inj h).1) hopen
    · rw [if_neg (fun h => hcolon (symbol.inj (Option.some.inj h.1))), hreserved, if_neg Bool.false_ne_true]
  rw [references, mem_eraseDups, mem_filter, hscan]
  refine ⟨mem_tokenReferences_append ?_, by rw [hne]; rfl⟩
  rw [tokenReferences, hname]
  exact mem_append_left _ mem_cons_self

end AnimatedChart.Dependency

namespace AnimatedChart.Animation

open Spec Dependency Token

variable {s : Scope} {x : Signal} {data : String}

/-! ## The signal of the time values -/

theorem isIdentifier_domain_iff (hs : s.id.IsSpelled) (hfield : s.field ≠ "") :
    isIdentifier s.domain = true ↔ isIdentifier s.field = true := by
  refine ⟨fun h => ?_, isIdentifier_domain hs⟩
  cases hlist : s.field.toList with
  | nil => exact absurd (String.toList_inj.mp hlist) hfield
  | cons c cs =>
    have hdomain : s.domain.toList = c :: (cs ++ ("_domain".toList ++ s.id.suffix.toList)) := by
      rw [Scope.domain, Scope.qualify, ScopeId.name, String.toList_append, String.toList_append, hlist]
      simp
    rw [isIdentifier, hdomain, spellsIdentifier, all_append, Bool.and_eq_true, Bool.and_eq_true] at h
    rw [isIdentifier, hlist, spellsIdentifier, h.1, h.2.1]
    rfl

theorem isReserved_domain (s : Scope) : isReserved s.domain = false := by
  have hinfix : "_domain".toList <:+: s.domain.toList := by
    rw [Scope.domain, Scope.qualify, ScopeId.name, String.toList_append, String.toList_append]
    exact ⟨s.field.toList, s.id.suffix.toList, rfl⟩
  rw [← Bool.not_eq_true]
  intro hreserved
  have hmem := contains_iff_mem.mp hreserved
  exact (by decide +kernel : ∀ w ∈ _, ¬"_domain".toList <:+: w.toList) _ hmem hinfix

/-- The name of the time values stands in the expression, before a bracket or a comma. -/
def Splices (s : Scope) (e : String) : Prop :=
  ∃ (a rest : List Char) (ts : List Token) (c : Char), e.toList = a ++ (s.domain.toList ++ c :: rest)
    ∧ (∀ rest, scan (a ++ rest) = ts ++ scan rest) ∧ lastOf none ts ≠ some '.' ∧ c ∈ [')', '[', ',']

theorem Splices.mem_references {e : String} (h : Splices s e) (hdomain : isIdentifier s.domain = true) :
    ⟨.signal, s.domain⟩ ∈ references e := by
  obtain ⟨a, rest, ts, c, he, ha, hlast, hc⟩ := h
  exact mem_references_name he ha hlast hdomain (isReserved_domain s) hc

theorem splices_behind (before : String) (c : Char) {e : String}
    (he : ∃ rest, e.toList = before.toList ++ (s.domain.toList ++ c :: rest)) (hc : c ∈ [')', '[', ','] := by decide)
    (h : isClosed before.toList = true := by decide)
    (hlast : lastOf none (scan before.toList) ≠ some '.' := by decide +kernel) : Splices s e := by
  obtain ⟨rest, he⟩ := he
  exact ⟨before.toList, rest, _, c, he, scan_append h, hlast, hc⟩

theorem splices_item (s : Scope) (i : String) : Splices s (s.domain ++ "[" ++ i ++ "]") :=
  splices_behind "" '[' (by simp)

theorem splices_next (hs : s.id.IsSpelled) (last : String) : Splices s
    (s.index ++ " + 1 < length(" ++ s.domain ++ ") ? " ++ s.domain ++ "[" ++ s.index ++ " + 1] : " ++ last) := by
  have hindex : isIdentifier s.index = true := hs.name (by decide)
  have hlast : lastOf none (scan " + 1 < length(".toList) ≠ some '.' := by decide +kernel
  refine ⟨s.index.toList ++ " + 1 < length(".toList, (" ? " ++ s.domain ++ "[" ++ s.index ++ " + 1] : " ++ last).toList,
    ident s.index :: scan " + 1 < length(".toList, ')', by simp, fun rest => ?_, hlast, by decide⟩
  have hstops : Stops (" + 1 < length(".toList ++ rest) := .cons (by decide)
  rw [append_assoc, scan_identifier hindex hstops, String.ofList_toList, cons_append,
    scan_append (by decide) rest]

def readerWords : List String :=
  ["t_index", "anim_value", "anim_val_curr", "min_extent", "max_extent", "anim_val_next"]

theorem mem_readerWords {w : String} (h : s.qualify w ∈ domainReaders s) : w ∈ readerWords := by
  have hwords : domainReaders s ⊆ readerWords.map s.qualify := by
    unfold domainReaders
    split <;> simp [readerWords, Scope.current, Scope.index, Scope.value, Scope.minExtent, Scope.maxExtent, Scope.next]
  obtain ⟨v, hv, heq⟩ := mem_map.mp (hwords h)
  exact Scope.qualify_inj.mp heq ▸ hv

theorem domain_notMem_readers (s : Scope) : s.domain ∉ domainReaders s := by
  intro hmem
  have hfixed : readerWords ⊆ Scope.clockWords ++ (Scope.holdWords ++ Scope.datasetWords) := by decide
  exact Scope.domainWord_ne (hfixed (mem_readerWords hmem)) rfl

theorem splices_bandTime (hlinear : s.isLinear = false)
    (hx : x ∈ (bandTime s data).signals) (hname : x.name ∈ domainReaders s) :
    Splices s x.update ∨ ∃ h ∈ x.on, Splices s h.update := by
  simp only [bandTime, mem_cons, not_mem_nil, or_false] at hx
  rcases hx with rfl | rfl | rfl | rfl
  · exact absurd hname (domain_notMem_readers s)
  · refine .inr ⟨_, mem_singleton_self _, ?_⟩
    show Splices s ("max(0, indexof(" ++ s.domain ++ ", invert(" ++ stringLiteral s.timeScale ++ ", " ++ s.eased
      ++ ")))")
    exact splices_behind "max(0, indexof(" ',' (by simp)
  · exact .inl (splices_item s s.index)
  · simp [domainReaders, hlinear, Scope.current, Scope.index, Scope.value, Scope.minExtent, Scope.maxExtent,
      Scope.next] at hname

theorem splices_linearTime (hlinear : s.isLinear = true)
    (hx : x ∈ (linearTime s data).signals) (hname : x.name ∈ domainReaders s) : Splices s x.update := by
  simp only [linearTime, mem_cons, not_mem_nil, or_false] at hx
  rcases hx with rfl | rfl | rfl | rfl
  · simp [domainReaders, hlinear, Scope.current, Scope.value, Scope.minExtent, Scope.maxExtent, Scope.next] at hname
  · exact absurd hname (domain_notMem_readers s)
  · simp [domainReaders, hlinear, Scope.current, Scope.index, Scope.minExtent, Scope.maxExtent, Scope.next] at hname
  · exact splices_item s s.index

theorem splices_timeScale (hs : s.id.IsSpelled) (hx : x ∈ (timeScale s data).signals)
    (hname : x.name ∈ domainReaders s) : Splices s x.update ∨ ∃ h ∈ x.on, Splices s h.update := by
  rw [timeScale, mem_append] at hx
  rcases hx with hx | hx
  · split at hx
    · next h => exact .inl (splices_linearTime h hx hname)
    · next h => exact splices_bandTime (Bool.not_eq_true _ ▸ h) hx hname
  · simp only [mem_cons, not_mem_nil, or_false] at hx
    rcases hx with rfl | rfl | rfl | rfl | rfl
    · have hend : (rangeEnd s).name = s.maxRange := by
        unfold rangeEnd
        split <;> rfl
      rw [hend] at hname
      exact absurd (mem_readerWords hname) (by decide)
    · left
      show Splices s ("extent(" ++ s.domain ++ ")[0]")
      exact splices_behind "extent(" ')' (by simp)
    · left
      show Splices s ("extent(" ++ s.domain ++ ")[1]")
      exact splices_behind "extent(" ')' (by simp)
    · exact .inl (splices_next hs _)
    · exact absurd (mem_readerWords hname) (by decide)

theorem mem_signalRefs_of_splices (h : Splices s x.update ∨ ∃ h ∈ x.on, Splices s h.update)
    (hdomain : isIdentifier s.domain = true) : ⟨.signal, s.domain⟩ ∈ signalRefs x := by
  rcases h with h | ⟨h, hon, hsplices⟩
  · exact mem_append_left _ (mem_append_right _ (h.mem_references hdomain))
  · refine mem_append_right _ (mem_flatMap.mpr ⟨h, hon, ?_⟩)
    exact mem_append_right _ (hsplices.mem_references hdomain)

/-! ## Time scales -/

/-- The names of the signals that a scope's clock, time scale and holds define. -/
def ownSignals (s : Scope) (data : String) : List String :=
  ((clock s).signals ++ (timeScale s data).signals ++ (pause s).signals).map (·.name)

def Owned (s : Scope) (data : String) (r : Ref) : Prop := r.kind = .signal → r.name ∈ ownSignals s data

theorem owned_clockSignals (data : String) : ∀ n ∈ clockSignals s, Owned s data ⟨.signal, n⟩ := by
  intro n hn _
  simpa [ownSignals, or_assoc] using mem_names_clockSignals data hn

theorem isIdentifier_of_mem_signalRefs {n : String} (h : ⟨.signal, n⟩ ∈ signalRefs x) : isIdentifier n = true := by
  rcases mem_signalRefs.mp h with h | h | ⟨-, h⟩ | ⟨-, h⟩
  · exact isIdentifier_of_mem_references h
  · exact isIdentifier_of_mem_references h
  · obtain ⟨e, h⟩ | h | h := h.origin
    · exact isIdentifier_of_mem_references h
    · cases h
    · cases h
  · exact isIdentifier_of_mem_references h

/-- The signals that hold the name of the time values refer to them if and only if the field is an identifier. All other
references of the time scale to signals, and those of these signals if the field is an identifier, are to signals that
the clock, the time scale and the holds of the scope define. -/
theorem timeScale_references {c : Chart} {s : Scope} (hs : s ∈ c.elaborate.scopes) (hfield : s.field ≠ "")
    (data : String) :
    (∀ x ∈ (timeScale s data).signals, x.name ∈ domainReaders s →
      (⟨.signal, s.domain⟩ ∈ signalRefs x ↔ isIdentifier s.field = true))
    ∧ (∀ x ∈ (timeScale s data).signals, isIdentifier s.field = true ∨ x.name ∉ domainReaders s →
      ∀ n, ⟨.signal, n⟩ ∈ signalRefs x → n ∈ ownSignals s data)
    ∧ ∀ d ∈ (timeScale s data).data, ∀ n, ⟨.signal, n⟩ ∈ datasetRefs d → n ∈ ownSignals s data := by
  have hid := Chart.isSpelled_scopes hs
  have hsignals := owned_clockSignals (s := s) data
  have v : FixedOperands (Owned s data) s := .of_signals hid hsignals
  refine ⟨fun x hx hname => ⟨fun h => ?_, fun h => ?_⟩, fun x hx hwhich n hn => ?_, fun d hd n hn => ?_⟩
  · exact (isIdentifier_domain_iff hid hfield).mp (isIdentifier_of_mem_signalRefs h)
  · exact mem_signalRefs_of_splices (splices_timeScale hid hx hname) ((isIdentifier_domain_iff hid hfield).mpr h)
  · refine only_signals_timeScale v (fun h => nomatch h) (fun _ => ⟨nofun, nofun⟩) hx (fun hreader => ?_) _ hn rfl
    rcases hwhich with hfield | hother
    · exact (ClockOperands.of_signals hid hfield hsignals).domain
    · exact absurd hreader hother
  · have honly : ∀ d ∈ (timeScale s data).data, Only (Owned s data) (datasetRefs d) := by
      show ∀ d ∈ (if s.isLinear then linearTime s data else bandTime s data).data, _
      split
      · exact only_data_linearTime v nofun nofun
      · nofun
    exact honly d hd _ hn rfl

def spacedYears : Chart :=
  .view (.unit { mark := some (.text "point"), encoding := some { time := some { field := "my year" } } })

/-- The first time value is looked up under two names, of which none is that of the time values. -/
theorem timeScale_references_spacedYears : ∃ s ∈ spacedYears.elaborate.scopes, s.field = "my year"
      ∧ (∀ x ∈ (timeScale s "data_0").signals, x.name ∈ domainReaders s → ⟨.signal, s.domain⟩ ∉ signalRefs x)
      ∧ ∃ x ∈ (timeScale s "data_0").signals, x.name = s.minExtent
        ∧ signalRefs x = [⟨.signal, "my"⟩, ⟨.signal, "year_domain"⟩]
        ∧ "my" ∉ ownSignals s "data_0" ∧ "year_domain" ∉ ownSignals s "data_0" := by
  have hcheck : spacedYears.elaborate.scopes[0]?.any (fun s => s.field == "my year"
      && (timeScale s "data_0").signals.any (fun x => x.name == s.minExtent
        && signalRefs x == [⟨.signal, "my"⟩, ⟨.signal, "year_domain"⟩])
      && !(ownSignals s "data_0").contains "my" && !(ownSignals s "data_0").contains "year_domain") = true := by
    decide +kernel
  obtain ⟨s, hs, hcheck⟩ := (Option.any_eq_true _ _).mp hcheck
  simp only [Bool.and_eq_true, beq_iff_eq, any_eq_true, Bool.not_eq_true', contains_eq_mem,
    decide_eq_false_iff_not] at hcheck
  obtain ⟨⟨⟨hfield, x, hx, hname, hrefs⟩, hmy⟩, hyear⟩ := hcheck
  have hmem := mem_of_getElem? hs
  have hreaders := (timeScale_references hmem (by rw [hfield]; decide) "data_0").1
  refine ⟨s, hmem, hfield, fun y hy hreader href => ?_, x, hx, hname, hrefs, hmy, hyear⟩
  have hidentifier := (hreaders y hy hreader).mp href
  rw [hfield] at hidentifier
  exact absurd hidentifier (by decide)

end AnimatedChart.Animation
