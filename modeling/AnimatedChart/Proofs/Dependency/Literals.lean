import AnimatedChart.Proofs.Dependency.Expression
import AnimatedChart.Proofs.Json.Values

/-!
# Values in expressions

A value that is written into an expression refers to nothing (`Operand.valueLiteral`): its numbers and strings are
tokens of their own, and the words it is written with are reserved.
-/

open List

namespace AnimatedChart.Dependency

open Animation Json Token

variable {S : Ref → Prop}

/-! ## Numbers -/

namespace Token

def Continues (last : Char) (cs : List Char) : Prop :=
  ∀ tail, numberRest last (cs ++ tail)
    = (cs ++ (numberRest (cs.getLastD last) tail).1, (numberRest (cs.getLastD last) tail).2)

theorem Continues.nil (last : Char) : Continues last [] := fun _ => rfl

theorem Continues.cons {last c : Char} {cs : List Char}
    (hc : (isPart c || c == '.' || ((c == '-' || c == '+') && (last == 'e' || last == 'E'))) = true)
    (hcs : Continues c cs) : Continues last (c :: cs) := fun tail => by
  rw [cons_append, numberRest, if_pos hc, hcs tail, getLastD_cons]
  rfl

theorem Continues.append {last : Char} {cs ds : List Char} (hcs : Continues last cs)
    (hds : Continues (cs.getLastD last) ds) : Continues last (cs ++ ds) := by
  have hlast : (cs ++ ds).getLastD last = ds.getLastD (cs.getLastD last) := by
    simp only [getLastD_eq_getLast?, List.getLast?_append]
    cases ds.getLast? <;> simp
  intro tail
  rw [append_assoc, hcs, hds, hlast, append_assoc]

theorem Continues.digits {ds : List Char} (hall : ds.all Char.isDigit = true) (last : Char) : Continues last ds := by
  induction ds generalizing last with
  | nil => exact .nil last
  | cons d ds ih =>
    rw [all_cons, Bool.and_eq_true] at hall
    exact .cons (by rw [isPart, hall.1, Bool.or_true]; rfl) (ih hall.2 d)

theorem Continues.fraction {f : List Char} (h : Json.Token.IsFraction f) (last : Char) : Continues last f := by
  rcases h with rfl | ⟨ds, rfl, hds⟩
  · exact .nil last
  · exact .cons (by simp) (.digits hds.2 _)

theorem Continues.exponent {x : List Char} (h : Json.Token.IsExponent x) (last : Char) : Continues last x := by
  rcases h with rfl | ⟨c, s, ds, rfl, hc, hs, hds⟩
  · exact .nil last
  · have hpart : isPart c = true := by rcases hc with rfl | rfl <;> decide
    refine .cons (by rw [hpart]; rfl) (.append ?_ (.digits hds.2 _))
    rcases hs with rfl | rfl | rfl
    · exact .nil c
    · exact .cons (by rcases hc with rfl | rfl <;> decide) (.nil _)
    · exact .cons (by rcases hc with rfl | rfl <;> decide) (.nil _)

theorem not_isStart_of_isDigit {c : Char} (h : c.isDigit = true) : isStart c = false := by
  rw [Bool.eq_false_iff]
  intro hstart
  simp only [isStart, Bool.or_eq_true, beq_iff_eq] at hstart
  rcases hstart with (rfl | rfl) | halpha
  · exact absurd h (by decide)
  · exact absurd h (by decide)
  · simp only [Char.isDigit, Char.isAlpha, Char.isUpper, Char.isLower, Bool.and_eq_true, Bool.or_eq_true,
      decide_eq_true_eq, ge_iff_le, UInt32.le_iff_toNat_le, Char.reduceVal, UInt32.reduceToNat] at h halpha
    omega

theorem scan_magnitude {m rest : List Char} (h : Json.Token.IsMagnitude m) (hrest : Stops rest)
    (hpoint : rest.head? ≠ some '.') : scan (m ++ rest) = number (String.ofList m) :: scan rest := by
  obtain ⟨d, hd, hdigit⟩ := (Option.any_eq_true _ _).mp (h.last [])
  obtain ⟨c, cs, rfl, hc⟩ := h.head
  have hcontinues : Continues c cs := by
    obtain ⟨w, f, x, heq, hw, hf, hx⟩ := h
    cases w with
    | nil => rcases hw with hw | hw <;> simp [Json.Token.IsDigits] at hw
    | cons c' w =>
      obtain ⟨rfl, rfl⟩ := List.cons.inj heq
      have hall : (c :: w).all Char.isDigit = true := by
        rcases hw with hw | hw
        · rw [hw]
          decide
        · exact hw.1.2
      rw [all_cons, Bool.and_eq_true] at hall
      exact (Continues.digits hall.2 c).append ((Continues.fraction hf _).append (.exponent hx _))
  have hlast : cs.getLastD c = d := by
    rw [nil_append, getLast?_cons, ← getLastD_eq_getLast?] at hd
    exact Option.some.inj hd
  -- The last character is a digit, so that a sign after it belongs to no exponent.
  have hstop : numberRest d rest = ([], rest) := by
    cases rest with
    | nil => rfl
    | cons e es =>
      have he : isPart e = false := hrest e rfl
      have hne : e ≠ '.' := fun h => hpoint (by rw [h]; rfl)
      have hexp : d ≠ 'e' ∧ d ≠ 'E' := by
        constructor
        · rintro rfl
          exact absurd hdigit (by decide)
        · rintro rfl
          exact absurd hdigit (by decide)
      rw [numberRest, if_neg]
      simp [he, hne, hexp.1, hexp.2]
  have hblank : isBlank c = false := by
    rw [Bool.eq_false_iff]
    intro hblank
    simp only [isBlank, Bool.or_eq_true, beq_iff_eq] at hblank
    rcases hblank with ((rfl | rfl) | rfl) | rfl <;> exact absurd hc (by decide)
  have hquote : ¬(c = '\'' ∨ c = '"') := by rintro (rfl | rfl) <;> exact absurd hc (by decide)
  rw [cons_append, scan, if_neg (by simp [hblank]), if_neg hquote, if_neg (by simp [not_isStart_of_isDigit hc]),
    if_pos hc, hcontinues, hlast, hstop, append_nil]

end Token

theorem Operand.number {l : String} (h : Json.Token.IsNumber l) : Operand S l := by
  obtain ⟨m, hm, hl⟩ := h
  have hplain : Operand S (String.ofList m) := by
    intro before rest _ hrest
    refine ⟨m.getLast?, ?_, fun r hr => .inr ?_⟩
    · obtain ⟨d, hd, hdigit⟩ := (Option.any_eq_true _ _).mp (hm.last [])
      rw [nil_append] at hd
      rw [hd]
      rintro ⟨⟩
      exact absurd hdigit (by decide)
    · rw [String.toList_ofList, refsAfter, scan_magnitude hm hrest.1 hrest.2.1, tokenReferences] at hr
      · simpa [Token.last, refsAfter] using hr
      · simp
  rcases hl with hl | hl
  · rwa [← hl, String.ofList_toList] at hplain
  · have hneg : l = "-" ++ String.ofList m := by
      rw [← String.toList_inj, hl]
      simp
    have hsign : Opening S "-" := .of_eq [] (some '-') (by decide) (by simp) fun before rest _ => by
      rw [refsAfter, show "-".toList ++ rest = '-' :: rest by simp, scan_symbol (by decide) (by decide) (by decide),
        tokenReferences_symbol]
      rfl
    rw [hneg]
    exact hsign.operand hplain

/-! ## Strings and containers -/

theorem Token.Inside.encodeChar (c : Char) : Inside (Escape.encodeChar false c) := by
  have hunit (n : Nat) : Inside (Escape.unitDigits n) := by
    have hdigit (k : Nat) := Inside.hexDigit (k % 16) (Nat.mod_lt k (by decide))
    exact .plain (hdigit _).1 (hdigit _).2 (.plain (hdigit _).1 (hdigit _).2
      (.plain (hdigit _).1 (hdigit _).2 (.plain (hdigit _).1 (hdigit _).2 .nil)))
  refine .ite (fun _ => .escape _ .nil) fun hquote => .ite (fun _ => .escape _ .nil) fun hslash => ?_
  refine .ite (fun _ => .escape _ .nil) fun _ => .ite (fun _ => .escape _ .nil) fun _ => ?_
  refine .ite (fun _ => .escape _ .nil) fun _ => .ite (fun _ => .escape _ .nil) fun _ => ?_
  exact .ite (fun _ => .escape _ .nil) fun _ => .ite (fun _ => .escape _ (hunit _)) fun _ => .plain hquote hslash .nil

def quotedText (s : String) : String := String.ofList (quoteBody (String.ofList (Escape.encode false s.toList)) [])

theorem Opening.quotedText (S : Ref → Prop) (s : String) : Opening S (quotedText s) := by
  obtain ⟨t, ht⟩ := (Inside.flatMap Inside.encodeChar s.toList).scan
  refine .of_eq [] none (by simp) (by simp) fun before rest _ => ?_
  have hlist : (Dependency.quotedText s).toList ++ rest
      = '"' :: (s.toList.flatMap (Escape.encodeChar false) ++ '"' :: rest) := by
    simp [Dependency.quotedText, quoteBody, Escape.encode]
  rw [hlist, refsAfter, ht, tokenReferences_string]
  rfl

def restItems (fs : List Fragment) : String := String.join (fs.map fun f => "," ++ f.compact)

def restMembers (ms : List (String × Fragment)) : String :=
  String.join (ms.map fun m => "," ++ (String.ofList (quoteBody m.1 []) ++ ":" ++ m.2.compact))

mutual

theorem write_compact : ∀ (f : Fragment) (depth : Nat) (rest : List Char),
    f.write .compact depth rest = f.compact.toList ++ rest
  | .null, _, _ | .bool true, _, _ | .bool false, _, _ | .array [] _, _, _ | .object [] _, _, _ => by
    simp [Fragment.compact, Fragment.write]
  | .number l, _, _ => by simp [Fragment.compact, Fragment.write]
  | .string b, _, _ => by simp [Fragment.compact, Fragment.write, quoteBody]
  | .array (v :: vs) bs, depth, rest => by
    have hwrite (depth : Nat) (rest : List Char) : (Fragment.array (v :: vs) bs).write .compact depth rest
        = '[' :: (v.compact.toList ++ ((restItems vs).toList ++ ']' :: rest)) := by
      rw [Fragment.write, Style.newline, Style.newline, write_compact v, write_restItems vs]
    have htext : (Fragment.array (v :: vs) bs).compact = String.ofList _ := rfl
    rw [htext, hwrite, hwrite, String.toList_ofList]
    simp
  | .object ((k, v) :: ms) bs, depth, rest => by
    have hwrite (depth : Nat) (rest : List Char) : (Fragment.object ((k, v) :: ms) bs).write .compact depth rest
        = '{' :: quoteBody k (':' :: (v.compact.toList ++ ((restMembers ms).toList ++ '}' :: rest))) := by
      rw [Fragment.write, Style.newline, Style.newline, Style.colon, write_compact v, write_restMembers ms]
    have htext : (Fragment.object ((k, v) :: ms) bs).compact = String.ofList _ := rfl
    rw [htext, hwrite, hwrite, String.toList_ofList]
    simp [quoteBody]

theorem write_restItems : ∀ (fs : List Fragment) (depth : Nat) (rest : List Char),
    Fragment.writeItems .compact depth fs rest = (restItems fs).toList ++ rest
  | [], _, _ => by simp [Fragment.writeItems, restItems]
  | f :: fs, _, _ => by simp [Fragment.writeItems, restItems, Style.newline, write_compact f, write_restItems fs]

theorem write_restMembers : ∀ (ms : List (String × Fragment)) (depth : Nat) (rest : List Char),
    Fragment.writeMembers .compact depth ms rest = (restMembers ms).toList ++ rest
  | [], _, _ => by simp [Fragment.writeMembers, restMembers]
  | (k, v) :: ms, _, _ => by
    simp [Fragment.writeMembers, restMembers, Style.newline, Style.colon, quoteBody, write_compact v,
      write_restMembers ms]

end

theorem compact_list (v : Fragment) (vs : List Fragment) :
    (Fragment.list (v :: vs)).compact = "[" ++ v.compact ++ restItems vs ++ "]" := by
  rw [← String.toList_inj, Fragment.compact, Fragment.list, Fragment.write, Style.newline, Style.newline,
    write_compact v, write_restItems vs]
  simp

theorem compact_record (k : String) (v : Fragment) (ms : List (String × Fragment)) :
    (Fragment.record ((k, v) :: ms)).compact = "\x7b" ++ quotedText k ++ ":" ++ v.compact
      ++ restMembers (ms.map fun m => (String.ofList (Escape.encode false m.1.toList), m.2)) ++ "\x7d" := by
  rw [← String.toList_inj, Fragment.compact, Fragment.record, map_cons, Fragment.write, Style.newline,
    Style.newline, Style.colon, write_compact v, write_restMembers]
  simp [quotedText, quoteBody]

mutual

theorem operand_value (S : Ref → Prop) : ∀ v : Value, v.Plain → Operand S v.toFragment.compact
  | .null, _ => .name (by decide) fun h => absurd h (by decide)
  | .bool true, _ => .name (by decide) fun h => absurd h (by decide)
  | .bool false, _ => .name (by decide) fun h => absurd h (by decide)
  | .number x, h => by
    have htext : (Value.literal x).compact = Decimal.Layout.json.write x := by
      rw [Value.literal, Fragment.compact, Fragment.write, append_nil, String.ofList_toList]
    rw [Value.toFragment, htext]
    exact .number (Value.spelled_literal h)
  | .string s, _ => (Opening.quotedText S s).toOperand
  | .array [], _ => (Opening.fixed).toOperand
  | .array (v :: vs), h => by
    rw [Value.toFragment, Value.toItems, compact_list]
    exact ((operand_items S vs h.2 ((Opening.fixed).operand (operand_value S v h.1))).joint .fixed).toOperand
  | .object [], _ => (Opening.fixed).toOperand
  | .object ((k, v) :: ms), h => by
    rw [Value.toFragment, Value.toMembers, compact_record]
    have hname : Operand S ("\x7b" ++ quotedText k) := ((Opening.fixed).opening (.quotedText S k)).toOperand
    exact ((operand_members S ms h.2.2 ((hname.joint .fixed).operand (operand_value S v h.2.1))).joint
      .fixed).toOperand

theorem operand_items (S : Ref → Prop) : ∀ (vs : List Value), Value.PlainAll vs → ∀ {a : String}, Operand S a →
    Operand S (a ++ restItems (Value.toItems vs))
  | [], _, _, ha => by simpa [restItems, Value.toItems] using ha
  | v :: vs, h, a, ha => by
    have htext : a ++ restItems (Value.toItems (v :: vs))
        = a ++ "," ++ v.toFragment.compact ++ restItems (Value.toItems vs) := by
      simp [restItems, Value.toItems, String.append_assoc]
    rw [htext]
    exact operand_items S vs h.2 ((ha.joint .fixed).operand (operand_value S v h.1))

theorem operand_members (S : Ref → Prop) : ∀ (ms : List (String × Value)), Value.PlainMembers ms →
    ∀ {a : String}, Operand S a → Operand S (a ++ restMembers
      ((Value.toMembers ms).map fun m => (String.ofList (Escape.encode false m.1.toList), m.2)))
  | [], _, _, ha => by simpa [restMembers, Value.toMembers] using ha
  | (k, v) :: ms, h, a, ha => by
    have htext : a ++ restMembers
          ((Value.toMembers ((k, v) :: ms)).map fun m => (String.ofList (Escape.encode false m.1.toList), m.2))
        = a ++ "," ++ quotedText k ++ ":" ++ v.toFragment.compact ++ restMembers
          ((Value.toMembers ms).map fun m => (String.ofList (Escape.encode false m.1.toList), m.2)) := by
      simp [restMembers, Value.toMembers, quotedText, String.append_assoc]
    rw [htext]
    exact operand_members S ms h.2 (((((ha.joint .fixed).opening (.quotedText S k)).toOperand.joint .fixed).operand
      (operand_value S v h.1)))

end

theorem Operand.valueLiteral {v : Value} (h : v.Plain) : Operand S (valueLiteral v) := operand_value S v h

end AnimatedChart.Dependency
