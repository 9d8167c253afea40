import Mathlib.Data.Bool.AllAny
import GraphQuery.Proofs.Binding.Reading
import GraphQuery.Proofs.Value.Text

/-!
# Printed values are read back

The text of a literal whose texts are plain is read as this literal: such texts are only put
between quotes, and a text in quotes has no escapes when it is read. Between its first and its last
character a literal opens as many brackets and quotes as it closes, and its commas are inside them,
so the text of a list is split where its items were joined.

## Main definitions

* `Binding.IsName`: what can stand before the equals sign.

## Main results

* `Binding.isItem_chars`: the text of a literal is an item.
* `Binding.readValue_chars`: the text of a literal is read as this literal.
* `Binding.read_text`: a name and the text of a literal are read back.
-/

namespace GraphQuery

namespace Binding

variable {depth : Nat} {quoted : Bool} {text : List Char} {v : Value}

/-! ### Literals are items -/

theorem leadsWithin_quote (depth : Nat) (quoted : Bool) :
    LeadsWithin depth quoted ['"'] depth !quoted :=
  leadsWithin_singleton_iff.2 ⟨leads_singleton_iff.2 rfl, by simp⟩

/-- Inside quotes all other characters are taken as they stand. -/
theorem leadsWithin_of_quoted (h : ∀ c ∈ text, c ≠ '"') :
    LeadsWithin depth true text depth true := by
  induction text with
  | nil => exact leadsWithin_nil
  | cons c rest ih =>
    obtain ⟨hc, hrest⟩ := List.forall_mem_cons.1 h
    have hfirst : LeadsWithin depth true [c] depth true :=
      leadsWithin_singleton_iff.2 ⟨leads_singleton_iff.2 (by simp [after?, hc]), by simp⟩
    exact hfirst.append (ih hrest)

/-- Inside brackets a comma is like any other character. -/
theorem leadsWithin_separator (depth : Nat) :
    LeadsWithin (depth + 1) false Value.separator (depth + 1) false := by
  have hcomma : LeadsWithin (depth + 1) false [','] (depth + 1) false :=
    leadsWithin_singleton_iff.2 ⟨leads_singleton_iff.2 rfl, by simp⟩
  have hblank : LeadsWithin (depth + 1) false [' '] (depth + 1) false :=
    leadsWithin_singleton_iff.2 ⟨leads_singleton_iff.2 rfl, by simp⟩
  exact hcomma.append hblank

theorem leadsWithin_self_of_forall (h : ∀ c ∈ text, c ≠ '"' ∧ c ≠ '[' ∧ c ≠ ']' ∧ c ≠ ',') :
    LeadsWithin depth false text depth false :=
  (leads_self_of_forall fun c hc => ⟨(h c hc).1, (h c hc).2.1, (h c hc).2.2.1⟩).within
    fun hcomma => (h ',' hcomma).2.2.2 rfl

theorem ne_of_isIntChar {c : Char} (h : Value.isIntChar c = true) :
    c ≠ '"' ∧ c ≠ '[' ∧ c ≠ ']' ∧ c ≠ ',' := by
  refine ⟨?_, ?_, ?_, ?_⟩ <;> rintro rfl <;> exact absurd h (by decide)

theorem leadsWithin_laterChars {vs : List Value}
    (h : ∀ v ∈ vs, LeadsWithin (depth + 1) false v.chars (depth + 1) false) :
    LeadsWithin (depth + 1) false (Value.laterChars vs) (depth + 1) false := by
  induction vs with
  | nil => exact leadsWithin_nil
  | cons v vs ih =>
    obtain ⟨hv, hvs⟩ := List.forall_mem_cons.1 h
    exact (leadsWithin_separator depth).append (hv.append (ih hvs))

/-- The text of a literal closes what it opens, and its commas are inside brackets or quotes. -/
theorem leadsWithin_chars (hv : v.Literal Text.IsPlain) :
    ∀ depth, LeadsWithin depth false v.chars depth false := by
  induction hv with
  | null => exact fun _ => leadsWithin_self_of_forall (by simp [Value.chars])
  | bool b => cases b <;> exact fun _ => leadsWithin_self_of_forall (by simp [Value.chars])
  | int n =>
    exact fun _ => leadsWithin_self_of_forall fun c hc =>
      ne_of_isIntChar (Value.isIntChar_of_mem_intChars hc)
  | string s hs =>
    intro depth
    have hinside : LeadsWithin depth true s.toList depth true :=
      leadsWithin_of_quoted fun c hc => (hs c hc).ne_doubleQuote
    rw [Value.chars, Text.quoted_of_isPlain hs]
    exact (leadsWithin_quote depth false).append (hinside.append (leadsWithin_quote depth true))
  | list items hitems ih =>
    intro depth
    have hopen : LeadsWithin depth false ['['] (depth + 1) false :=
      leadsWithin_singleton_iff.2 ⟨leads_singleton_iff.2 rfl, by simp⟩
    have hclose : LeadsWithin (depth + 1) false [']'] depth false :=
      leadsWithin_singleton_iff.2 ⟨leads_singleton_iff.2 rfl, by simp⟩
    have hinside : LeadsWithin (depth + 1) false (Value.itemChars items) (depth + 1) false := by
      cases items with
      | nil => exact leadsWithin_nil
      | cons v vs =>
        obtain ⟨hv, hvs⟩ := List.forall_mem_cons.1 ih
        rw [Value.itemChars_cons]
        exact (hv (depth + 1)).append (leadsWithin_laterChars fun w hw => hvs w hw (depth + 1))
    exact hopen.append (hinside.append hclose)

/-- The text of a literal is an item. -/
theorem isItem_chars (hv : v.Literal Text.IsPlain) : IsItem v.chars :=
  isItem_iff_leadsWithin.2 (leadsWithin_chars hv 0)

theorem isItem_blank_chars (hv : v.Literal Text.IsPlain) : IsItem (' ' :: v.chars) := by
  have hblank : LeadsWithin 0 false [' '] 0 false := leadsWithin_self_of_forall (by simp)
  exact isItem_iff_leadsWithin.2 (hblank.append (leadsWithin_chars hv 0))

/-- The text of a list is its items joined, those after the first one with a blank in front. -/
theorem intercalate_blank_chars (item : List Char) (vs : List Value) :
    [','].intercalate (item :: vs.map fun v => ' ' :: v.chars) = item ++ Value.laterChars vs := by
  induction vs generalizing item with
  | nil => simp [Value.laterChars]
  | cons v vs ih =>
    rw [List.map_cons, List.intercalate_cons_cons, ih]
    simp [Value.laterChars]

/-- The items of a list are split where they were joined. -/
theorem splitFrom_laterChars {item : List Char} {vs : List Value} (hitem : IsItem item)
    (hvs : ∀ v ∈ vs, v.Literal Text.IsPlain) :
    splitFrom 0 false (item ++ Value.laterChars vs) =
      .ok (item :: vs.map fun v => ' ' :: v.chars) := by
  rw [← intercalate_blank_chars]
  refine splitFrom_intercalate (List.cons_ne_nil _ _) (List.forall_mem_cons.2 ⟨hitem, ?_⟩)
  exact List.forall_mem_map.2 fun v hv => isItem_blank_chars (hvs v hv)

/-! ### Blanks around literals -/

theorem isBlank_of_isIntChar {c : Char} (h : Value.isIntChar c = true) :
    Text.isBlank c = false := by
  have hrange : 45 ≤ c.toNat ∧ c.toNat ≤ 57 := by
    rw [Value.isIntChar, Bool.or_eq_true, beq_iff_eq] at h
    rcases h with hdigit | rfl
    · simp only [Char.isDigit, Bool.and_eq_true, decide_eq_true_eq, UInt32.le_iff_toNat_le]
        at hdigit
      exact ⟨Nat.le_trans (by decide) hdigit.1, hdigit.2⟩
    · decide
  simp only [Text.isBlank, Text.blankRanges, List.any_cons, List.any_nil, Bool.or_false,
    Bool.or_eq_false_iff, Bool.and_eq_false_iff, decide_eq_false_iff_not]
  omega

/-- A literal has no blanks around it. -/
theorem trim_chars (hv : v.Literal Text.IsPlain) : Text.trim v.chars = v.chars := by
  cases hv with
  | null => rfl
  | bool b => cases b <;> rfl
  | int n =>
    refine Text.trim_eq_self (fun c hc => ?_) fun c hc => ?_
    · exact isBlank_of_isIntChar (Value.isIntChar_of_mem_intChars (List.mem_of_mem_head? hc))
    · exact isBlank_of_isIntChar (Value.isIntChar_of_mem_intChars (List.mem_of_mem_getLast? hc))
  | string s => exact Text.trim_between (by decide) (by decide)
  | list items => exact Text.trim_between (by decide) (by decide)

theorem trim_itemChars_ne_nil {vs : List Value} (hv : v.Literal Text.IsPlain) :
    Text.trim (Value.itemChars (v :: vs)) ≠ [] := by
  obtain ⟨c, rest, hcons, -⟩ := Value.exists_chars_eq_cons hv
  intro h
  have hblank := Text.trim_eq_nil_iff.1 h
  rw [Value.itemChars_cons] at hblank
  have hnil : Text.trim v.chars = [] :=
    Text.trim_eq_nil_iff.2 fun c hc => hblank c (List.mem_append_left _ hc)
  rw [trim_chars hv, hcons] at hnil
  cases hnil

/-! ### Literals are read back -/

theorem isBare_intChars (n : Int64) : IsBare (Value.intChars n.toInt) := by
  refine ⟨fun h => ?_, fun h => ?_⟩
  · exact absurd (Value.isIntChar_of_mem_intChars (List.mem_of_mem_head? h)) (by decide)
  · exact absurd (Value.isIntChar_of_mem_intChars (List.mem_of_mem_head? h)) (by decide)

/-- No word stands for an integer. -/
theorem readScalar_intChars (n : Int64) : readScalar (Value.intChars n.toInt) = .int n := by
  have hword (word : String) (h : Numeral.int64? word.toList = none) :
      String.ofList (Value.intChars n.toInt) ≠ word := by
    rintro rfl
    rw [String.toList_ofList, Numeral.int64?_intChars] at h
    cases h
  simp only [readScalar, hword "null" rfl, hword "NULL" rfl, hword "true" rfl, hword "false" rfl,
    or_self, if_false, Numeral.int64?_intChars]

/-- The text of a literal is read as this literal. -/
theorem readValue_chars (hv : v.Literal Text.IsPlain) : readValue v.chars = .ok v := by
  induction hv with
  | null => rfl
  | bool b => cases b <;> rfl
  | int n => rw [Value.chars, readValue_bare (isBare_intChars n), readScalar_intChars]
  | string s hs =>
    rw [Value.chars, Text.quoted_of_isPlain hs, readValue_quoted, String.ofList_toList]
  | list items hitems ih =>
    rw [Value.chars, List.cons_append, readValue_list]
    cases items with
    | nil => rfl
    | cons v vs =>
      obtain ⟨hv, hvs⟩ := List.forall_mem_cons.1 hitems
      have hparts : splitItems (Value.itemChars (v :: vs)) =
          .ok (v.chars :: vs.map fun w => ' ' :: w.chars) := by
        rw [splitItems_eq_ok, Value.itemChars_cons]
        exact splitFrom_laterChars (isItem_chars hv) hvs
      have htrim : (v.chars :: vs.map fun w => ' ' :: w.chars).map Text.trim =
          (v :: vs).map Value.chars := by
        rw [List.map_cons, List.map_cons, List.map_map, trim_chars hv]
        refine congrArg (v.chars :: ·) (List.map_congr_left fun w hw => ?_)
        exact (Text.trim_cons_of_isBlank rfl).trans (trim_chars (hvs w hw))
      rw [if_neg (by simpa using trim_itemChars_ne_nil hv), hparts]
      change Value.list <$> (List.map Text.trim _).mapM readValue = _
      rw [htrim, mapM_map_eq_ok ih]
      rfl

/-! ### Bindings -/

/-- What can stand before the equals sign: a text that is not empty, without equals signs and
without blanks at its ends. -/
structure IsName (name : String) : Prop where
  nonempty : name ≠ ""
  noEqualsSign : '=' ∉ name.toList
  first : ∀ c ∈ name.toList.head?, Text.isBlank c = false
  last : ∀ c ∈ name.toList.getLast?, Text.isBlank c = false

/-- A name and the text of a literal with an equals sign between them are read back. -/
theorem read_text {name : String} {v : Value} (hname : IsName name)
    (hv : v.Literal Text.IsPlain) : read (name ++ "=" ++ v.text) = .ok (name, v) := by
  have htext : (name ++ "=" ++ v.text).toList = name.toList ++ '=' :: v.chars := by
    simp [Value.text]
  have hbefore : ∀ c ∈ name.toList, decide (c ≠ '=') = true := fun c hc =>
    decide_eq_true (ne_of_mem_of_not_mem hc hname.noEqualsSign)
  have hnonempty : name.toList.isEmpty = false := by
    simpa using hname.nonempty
  simp only [read, htext, List.dropWhile_append_of_pos hbefore,
    List.takeWhile_append_of_pos hbefore, List.dropWhile_cons, List.takeWhile_cons]
  simp [Text.trim_eq_self hname.first hname.last, trim_chars hv, readValue_chars hv, hnonempty]

/-- Texts that look like lists, numbers and bindings, and empty texts and lists inside lists. -/
theorem read_text_nested :
    let v : Value := .list [.string "[1, =", .list [], .list [.string "", .list [.null]],
      .int (-9223372036854775808), .bool false]
    IsName "x y" ∧ v.Literal Text.IsPlain ∧ read ("x y" ++ "=" ++ v.text) = .ok ("x y", v) := by
  intro v
  have hname : IsName "x y" := by
    refine ⟨by decide, by decide, ?_, ?_⟩ <;> rintro _ ⟨⟩ <;> decide
  have hplain : ∀ c ∈ "[1, =".toList, Text.IsPlain c := List.all_iff_forall_prop.1 (by decide)
  have hinner : (Value.list [.string "", .list [.null]]).Literal Text.IsPlain :=
    .list _ (by simpa using ⟨.string "" (by simp), .list [.null] (by simpa using .null)⟩)
  have hv : v.Literal Text.IsPlain :=
    .list _ (by simpa using
      ⟨.string "[1, =" hplain, .list [] (by simp), hinner, .int _, .bool false⟩)
  exact ⟨hname, hv, read_text hname hv⟩

end Binding

end GraphQuery
