import GraphQuery.Proofs.Binding.Joining
import GraphQuery.Proofs.Text.Blank

/-!
# Which values are read

Lists are nested less deep than their text is long, so the levels of the reader never run out, and
the value of a list is made of the values of its items. A list is read only if its text is balanced,
and so are the texts of its items, of their items and so on. A text that begins like neither a list
nor a text in quotes is always read, and so is whatever stands between two quotes: these are the
texts that are read although they are not balanced.

## Main definitions

* `Binding.IsBare`, `Binding.IsQuoted`: the forms of texts that are no lists.
* `Binding.ItemOf`: the items of a list, their items and so on.

## Main results

* `Binding.readValue_list`, `Binding.readValue_quoted`, `Binding.readValue_bare`: what each form
  is read as.
* `Binding.balanced_of_readValue_list`: the text of a list is balanced.
* `Binding.readValue_unbalanced_iff`: which texts are read although they are not balanced.
-/

namespace GraphQuery

namespace Binding

variable {text rest items inner part : List Char} {v : Value}

/-! ### The ends of a text -/

theorem dropLast?_append (c : Char) (text : List Char) : dropLast? c (text ++ [c]) = some text := by
  rw [dropLast?, List.getLast?_concat, if_pos rfl, List.dropLast_concat]

theorem dropLast?_eq_some {c : Char} (h : dropLast? c text = some inner) : text = inner ++ [c] := by
  rw [dropLast?] at h
  split at h
  · next hlast => rw [← Option.some.inj h, List.dropLast_append_getLast? c hlast]
  · cases h

/-! ### The forms of texts -/

/-- A text that begins like neither a list nor a text in quotes. -/
def IsBare (text : List Char) : Prop := text.head? ≠ some '[' ∧ text.head? ≠ some '"'

/-- A text between two quotes. -/
def IsQuoted (text : List Char) : Prop := ∃ inner, text = '"' :: (inner ++ ['"'])

/-- A text is bare or begins with a bracket or a quote. -/
theorem isBare_or (text : List Char) :
    IsBare text ∨ (∃ rest, text = '[' :: rest) ∨ ∃ rest, text = '"' :: rest := by
  by_cases hopen : text.head? = some '['
  · exact .inr (.inl (List.head?_eq_some_iff.1 hopen))
  by_cases hquote : text.head? = some '"'
  · exact .inr (.inr (List.head?_eq_some_iff.1 hquote))
  · exact .inl ⟨hopen, hquote⟩

theorem readNested_bare (levels : Nat) (h : IsBare text) :
    readNested levels text = .ok (readScalar text) := by
  cases levels with
  | zero => rfl
  | succ levels =>
    rw [readNested]
    · rintro rest rfl
      exact h.1 rfl
    · rintro rest rfl
      exact h.2 rfl

theorem readNested_quoted (levels : Nat) (inner : List Char) :
    readNested (levels + 1) ('"' :: (inner ++ ['"'])) = .ok (.string (String.ofList inner)) := by
  rw [readNested, dropLast?_append]

theorem readNested_list (levels : Nat) (items : List Char) :
    readNested (levels + 1) ('[' :: (items ++ [']'])) =
      if (Text.trim items).isEmpty then .ok (.list [])
      else splitItems items >>= fun parts =>
        Value.list <$> (parts.map Text.trim).mapM (readNested levels) := by
  simp only [readNested, dropLast?_append, bind_pure_comp, List.mapM_map, Function.comp_def]

/-- Only what stands between brackets is read as a list. -/
theorem exists_items_of_readNested {levels : Nat}
    (h : readNested (levels + 1) ('[' :: rest) = .ok v) : ∃ items, rest = items ++ [']'] := by
  rw [readNested] at h
  split at h
  · cases h
  · next items hitems => exact ⟨items, dropLast?_eq_some hitems⟩

/-- Only what stands between quotes is read as a text in quotes. -/
theorem isQuoted_of_readNested {levels : Nat} (h : readNested (levels + 1) ('"' :: rest) = .ok v) :
    IsQuoted ('"' :: rest) := by
  rw [readNested] at h
  split at h
  · cases h
  · next inner hinner => exact ⟨inner, by rw [dropLast?_eq_some hinner]⟩

/-! ### Levels -/

/-- No part is longer than the text that is split. -/
theorem length_le_of_splitFrom {depth : Nat} {quoted : Bool} {parts : List (List Char)}
    (h : splitFrom depth quoted text = .ok parts) : ∀ part ∈ parts, part.length ≤ text.length := by
  rw [← intercalate_of_splitFrom h]
  exact length_le_intercalate

/-- The values of items are the same whether they are read in one way or another one that agrees
with it on texts that are no longer than all items together. -/
theorem mapM_trim_congr (read read' : List Char → Except ValueFault Value)
    {parts : List (List Char)} (hparts : splitItems items = .ok parts)
    (h : ∀ text : List Char, text.length ≤ items.length → read text = read' text) :
    (parts.map Text.trim).mapM read = (parts.map Text.trim).mapM read' := by
  refine mapM_congr fun text htext => h text ?_
  obtain ⟨part, hpart, rfl⟩ := List.mem_map.1 htext
  have hle := length_le_of_splitFrom (splitItems_eq_ok.1 hparts) part hpart
  exact (Text.length_trim_le part).trans hle

/-- A text is read in the same way with any number of levels that is not less than its length. -/
theorem readNested_eq_of_le (levels levels' : Nat) {text : List Char} (h : text.length ≤ levels)
    (h' : text.length ≤ levels') : readNested levels text = readNested levels' text := by
  induction levels generalizing levels' text with
  | zero =>
    have hbare : IsBare text := by simp [IsBare, List.length_eq_zero_iff.1 (Nat.le_zero.1 h)]
    rw [readNested_bare _ hbare, readNested_bare _ hbare]
  | succ levels ih =>
    cases levels' with
    | zero =>
      have hbare : IsBare text := by simp [IsBare, List.length_eq_zero_iff.1 (Nat.le_zero.1 h')]
      rw [readNested_bare _ hbare, readNested_bare _ hbare]
    | succ levels' =>
      rcases isBare_or text with hbare | ⟨rest, rfl⟩ | ⟨rest, rfl⟩
      · rw [readNested_bare _ hbare, readNested_bare _ hbare]
      · cases hclosed : dropLast? ']' rest with
        | none => rw [readNested, readNested, hclosed]
        | some items =>
          obtain rfl := dropLast?_eq_some hclosed
          rw [List.length_cons, List.length_append] at h h'
          have hsame := bind_congr_ok fun parts (hparts : splitItems items = .ok parts) =>
            congrArg (Value.list <$> ·) <| mapM_trim_congr (readNested levels)
              (readNested levels') hparts fun text htext => ih levels' (by omega) (by omega)
          rw [readNested_list, readNested_list, hsame]
      · rw [readNested, readNested]

/-! ### Values -/

theorem readValue_bare (h : IsBare text) : readValue text = .ok (readScalar text) :=
  readNested_bare _ h

theorem readValue_quoted (inner : List Char) :
    readValue ('"' :: (inner ++ ['"'])) = .ok (.string (String.ofList inner)) :=
  readNested_quoted _ inner

/-- The value of a list is made of the values of its items. -/
theorem readValue_list (items : List Char) :
    readValue ('[' :: (items ++ [']'])) =
      if (Text.trim items).isEmpty then .ok (.list [])
      else splitItems items >>= fun parts =>
        Value.list <$> (parts.map Text.trim).mapM readValue := by
  have hlevels : items.length ≤ (items ++ [']']).length := by
    rw [List.length_append]
    exact Nat.le_add_right _ _
  have hsame := bind_congr_ok fun parts (hparts : splitItems items = .ok parts) =>
    congrArg (Value.list <$> ·) <| mapM_trim_congr (readNested (items ++ [']']).length) readValue
      hparts fun text htext => readNested_eq_of_le _ _ (htext.trans hlevels) (Nat.le_refl _)
  rw [readValue, List.length_cons, readNested_list, hsame]

/-! ### Balanced texts are read, and others -/

/-- What is inside brackets may be balanced at any depth. -/
theorem Leads.deeper {depth depth' : Nat} {quoted quoted' : Bool}
    (h : Leads depth quoted text depth' quoted') (more : Nat) :
    Leads (depth + more) quoted text (depth' + more) quoted' := by
  have hbrackets := h.brackets
  refine ⟨h.quotes, by omega, fun start hstart => ?_⟩
  have hbelow := h.neverBelow start hstart
  omega

/-- A balanced text is balanced between brackets. -/
theorem Balanced.between (h : Balanced items) : Balanced ('[' :: (items ++ [']'])) := by
  have hopen : Leads 0 false ['['] 1 false := leads_singleton_iff.2 rfl
  have hclose : Leads 1 false [']'] 0 false := leads_singleton_iff.2 rfl
  exact balanced_iff_leads.2
    (hopen.append (((balanced_iff_leads.1 h).deeper 1).append hclose))

theorem ne_of_isBlank {c : Char} (h : Text.isBlank c = true) : c ≠ '"' ∧ c ≠ '[' ∧ c ≠ ']' := by
  refine ⟨?_, ?_, ?_⟩ <;> rintro rfl <;> exact absurd h (by decide)

/-- Blanks open and close nothing. -/
theorem Balanced.trim (h : Balanced text) : Balanced (Text.trim text) := by
  obtain ⟨before, after, htext, hbefore, hafter⟩ := Text.exists_eq_append_trim text
  have hlead := balanced_iff_leads.1 h
  rw [htext] at hlead
  obtain ⟨_, _, hstart, hrest⟩ := hlead.exists_of_append
  obtain ⟨rfl, rfl⟩ := hstart.unique
    (leads_self_of_forall fun c hc => ne_of_isBlank (hbefore c hc))
  obtain ⟨_, _, hmiddle, hend⟩ := hrest.exists_of_append
  obtain ⟨rfl, rfl⟩ := hend.unique
    (leads_self_of_forall fun c hc => ne_of_isBlank (hafter c hc))
  exact balanced_iff_leads.2 hmiddle

/-- The text of a list that is read is balanced. -/
theorem balanced_of_readValue_list (h : readValue ('[' :: (items ++ [']'])) = .ok v) :
    Balanced ('[' :: (items ++ [']'])) := by
  refine Balanced.between ?_
  rw [readValue_list] at h
  split at h
  · next hblank =>
    have hblank := Text.trim_eq_nil_iff.1 (List.isEmpty_iff.1 hblank)
    exact balanced_iff_leads.2
      (leads_self_of_forall fun c hc => ne_of_isBlank (hblank c hc))
  · obtain ⟨parts, hparts, -⟩ := bind_eq_ok.1 h
    exact (isItem_of_splitItems hparts).1

/-- The text of an item of a list, or of an item of such an item, and so on. -/
inductive ItemOf : List Char → List Char → Prop
  | item {items : List Char} {parts : List (List Char)} {part : List Char}
      (hnonblank : Text.trim items ≠ []) (hparts : splitItems items = .ok parts)
      (hpart : part ∈ parts) : ItemOf ('[' :: (items ++ [']'])) (Text.trim part)
  | inner {list item part : List Char} (hitem : ItemOf list item) (hpart : ItemOf item part) :
      ItemOf list part

/-- The items of a list that is read are balanced, and they are read. -/
theorem ItemOf.balanced_and_read (hitem : ItemOf text part) :
    ∀ {v : Value}, readValue text = .ok v → Balanced part ∧ ∃ w, readValue part = .ok w := by
  induction hitem with
  | item hnonblank hparts hpart =>
    intro v h
    rw [readValue_list, if_neg (by simpa using hnonblank), hparts] at h
    obtain ⟨_, hparts', hvalues⟩ := bind_eq_ok.1 h
    obtain rfl := Except.ok.inj hparts'
    obtain ⟨values, hvalues, -⟩ := map_eq_ok.1 hvalues
    exact ⟨((isItem_of_splitItems hparts).2 _ hpart).balanced.trim,
      exists_of_mapM_eq_ok hvalues _ (List.mem_map_of_mem hpart)⟩
  | inner _ _ ih ih' =>
    intro v h
    obtain ⟨-, w, hw⟩ := ih h
    exact ih' hw

/-- All items of a list that is read are balanced, at any depth. Of the texts that are not balanced,
those are read that begin like neither a list nor a text in quotes, and those that stand between two
quotes; a list is not read. -/
theorem readValue_unbalanced_iff (text : List Char) :
    (∀ v, readValue text = .ok v → ∀ part, ItemOf text part → Balanced part) ∧
    (¬Balanced text → ((∃ v, readValue text = .ok v) ↔ IsBare text ∨ IsQuoted text)) := by
  refine ⟨fun v h part hpart => (hpart.balanced_and_read h).1, fun hunbalanced => ⟨?_, ?_⟩⟩
  · rintro ⟨v, h⟩
    rcases isBare_or text with hbare | ⟨rest, rfl⟩ | ⟨rest, rfl⟩
    · exact .inl hbare
    · obtain ⟨items, rfl⟩ := exists_items_of_readNested h
      exact absurd (balanced_of_readValue_list h) hunbalanced
    · exact .inr (isQuoted_of_readNested h)
  · rintro (hbare | ⟨inner, rfl⟩)
    · exact ⟨_, readValue_bare hbare⟩
    · exact ⟨_, readValue_quoted inner⟩

/-- A closing bracket that nothing opens is not minded in a bare text, and not read in a list. -/
theorem readValue_unbalanced_iff_bracket :
    (∃ v, readValue ['x', ']'] = .ok v) ∧ ¬∃ v, readValue ['[', 'x', ']', ']'] = .ok v := by
  have hbare : ¬Balanced ['x', ']'] := fun h => absurd h.closed (by decide)
  have hlist : ¬Balanced ['[', 'x', ']', ']'] := fun h => absurd h.closed (by decide)
  refine ⟨((readValue_unbalanced_iff _).2 hbare).2 (.inl ⟨by simp, by simp⟩), fun hread => ?_⟩
  rcases ((readValue_unbalanced_iff _).2 hlist).1 hread with ⟨hopen, -⟩ | ⟨inner, hquoted⟩
  · exact hopen rfl
  · exact absurd (List.cons.inj hquoted).1 (by decide)

/-- Not only balanced texts are read: a third quote between two quotes is taken as it stands. -/
theorem readValue_third_quote :
    readValue ['"', 'a', '"', 'b', '"'] = .ok (.string "a\"b") ∧
      ¬Balanced ['"', 'a', '"', 'b', '"'] :=
  ⟨rfl, fun h => absurd h.quotes (by decide)⟩

end Binding

end GraphQuery
