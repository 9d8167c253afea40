import GraphQuery.Proofs.Binding.Splitting

/-!
# Splitting undoes joining

The inside of a list is split exactly if it is balanced. Its parts are then the one way to write it
as items with commas between them: the parts joined again are the text that was split, and items
that are joined are split where they were joined.

## Main results

* `Binding.exists_splitItems_iff`: what is balanced is split, and nothing else.
* `Binding.intercalate_of_splitFrom`, `Binding.splitFrom_intercalate`: splitting and joining undo
  each other.
* `Binding.splitItems_eq_ok_iff_intercalate`: the parts into which a text is split.
-/

namespace GraphQuery

namespace Binding

variable {items : List Char} {parts : List (List Char)}

/-! ### What is split -/

/-- What leads to nothing open is split. -/
theorem exists_splitFrom_of_leads : ∀ {text : List Char} {depth : Nat} {quoted : Bool},
    Leads depth quoted text 0 false → ∃ parts, splitFrom depth quoted text = .ok parts
  | [], _, _, h => by
    obtain ⟨rfl, rfl⟩ := leads_nil_iff.1 h
    exact ⟨[[]], rfl⟩
  | c :: rest, depth, quoted, h => by
    obtain ⟨depth', quoted', hc, hrest⟩ := Leads.exists_of_append (a := [c]) h
    obtain ⟨parts, hparts⟩ := exists_splitFrom_of_leads hrest
    have hafter := leads_singleton_iff.1 hc
    rw [splitFrom_cons_eq]
    split
    · next hcomma =>
      obtain ⟨rfl, rfl, rfl⟩ := hcomma
      -- A comma opens and closes nothing, so the rest is read with nothing open.
      obtain ⟨rfl, rfl⟩ : 0 = depth' ∧ false = quoted' := by simpa [after?] using hafter
      exact ⟨[] :: parts, by rw [hparts]; rfl⟩
    · rw [hafter]
      exact ⟨consFirst c parts, by simp only [hparts, Except.map]⟩

/-- What is balanced is split, and nothing else. -/
theorem exists_splitItems_iff : (∃ parts, splitItems items = .ok parts) ↔ Balanced items := by
  constructor
  · rintro ⟨parts, hparts⟩
    exact (isItem_of_splitItems hparts).1
  · intro h
    obtain ⟨parts, hparts⟩ := exists_splitFrom_of_leads (balanced_iff_leads.1 h)
    exact ⟨parts, splitItems_eq_ok.2 hparts⟩

/-! ### Joining -/

theorem intercalate_consFirst (c : Char) (parts : List (List Char)) :
    [','].intercalate (consFirst c parts) = c :: [','].intercalate parts := by
  cases parts with
  | nil => rfl
  | cons first later => cases later <;> rfl

/-- The parts with commas between them are the text that was split. -/
theorem intercalate_of_splitFrom : ∀ {text : List Char} {depth : Nat} {quoted : Bool}
    {parts : List (List Char)}, splitFrom depth quoted text = .ok parts →
      [','].intercalate parts = text
  | [], _, _, _, h => by
    obtain ⟨-, -, rfl⟩ := splitFrom_nil_eq_ok h
    rfl
  | c :: rest, _, _, _, h => by
    rcases splitFrom_cons_eq_ok h with ⟨parts, ⟨rfl, -, -⟩, hparts, rfl⟩ |
      ⟨_, _, parts, -, hparts, rfl⟩
    · obtain ⟨first, later, rfl, -⟩ := items_of_splitFrom hparts
      rw [List.intercalate_cons_cons, intercalate_of_splitFrom hparts]
      rfl
    · rw [intercalate_consFirst, intercalate_of_splitFrom hparts]

/-- Items are split where they were joined. -/
theorem splitFrom_intercalate (hne : parts ≠ []) (hparts : ∀ part ∈ parts, IsItem part) :
    splitFrom 0 false ([','].intercalate parts) = .ok parts := by
  induction parts with
  | nil => exact absurd rfl hne
  | cons first later ih =>
    obtain ⟨hfirst, hlater⟩ := List.forall_mem_cons.1 hparts
    cases later with
    | nil =>
      rw [List.intercalate_singleton]
      exact splitFrom_item hfirst
    | cons second later =>
      rw [List.intercalate_cons_cons, List.append_assoc, List.singleton_append,
        splitFrom_item_comma hfirst, ih (by simp) hlater]
      rfl

/-- The parts into which a text is split are the items that it joins. -/
theorem splitItems_eq_ok_iff_intercalate : splitItems items = .ok parts ↔
    parts ≠ [] ∧ (∀ part ∈ parts, IsItem part) ∧ [','].intercalate parts = items := by
  constructor
  · intro h
    have hfrom := splitItems_eq_ok.1 h
    obtain ⟨first, later, rfl, -⟩ := items_of_splitFrom hfrom
    exact ⟨List.cons_ne_nil first later, (isItem_of_splitItems h).2, intercalate_of_splitFrom hfrom⟩
  · rintro ⟨hne, hparts, rfl⟩
    exact splitItems_eq_ok.2 (splitFrom_intercalate hne hparts)

/-- No part is longer than all parts joined. -/
theorem length_le_intercalate : ∀ {parts : List (List Char)},
    ∀ part ∈ parts, part.length ≤ ([','].intercalate parts).length
  | [] => by simp
  | [only] => by simp [List.intercalate_singleton]
  | first :: second :: later => by
    rw [List.intercalate_cons_cons, List.append_assoc, List.length_append, List.length_append]
    refine List.forall_mem_cons.2 ⟨Nat.le_add_right _ _, fun part hpart => ?_⟩
    have hle := length_le_intercalate part hpart
    omega

end Binding

end GraphQuery
