import GraphQuery.Proofs.Decimal.Numeral
import GraphQuery.Proofs.Expr.Equality
import GraphQuery.Proofs.Text.Quoted

/-!
# Reading the text of a value in one way

The text of a literal, a value without floats and maps, tells by its first character which type it
has, and what follows it inside a list, a comma or a closing bracket, tells where it ends. Texts in
quotes may hold such characters, but their closing quote is known. So no two literals have the same
text.

## Main definitions

* `Value.Literal`: values without floats and maps, whose texts consist of certain characters.
* `Value.Unambiguous`: what begins with the text of a value is known to do so.

## Main results

* `Value.itemChars_cons`: the items of a list with a comma and a blank before all but the first.
* `Value.unambiguous_literal`: literals are read in one way.
* `Value.text_eq_iff`: literals with the same text are equal.
-/

namespace GraphQuery

namespace Value

variable {p : Char → Prop} {v w : Value} {c d : Char} {s t : List Char}

/-- The values that are written without floats and maps, in which all texts consist of characters
with a certain property. -/
inductive Literal (p : Char → Prop) : Value → Prop
  | null : Literal p .null
  | bool (b : Bool) : Literal p (.bool b)
  | int (n : Int64) : Literal p (.int n)
  | string (s : String) (h : ∀ c ∈ s.toList, p c) : Literal p (.string s)
  | list (items : List Value) (h : ∀ v ∈ items, Literal p v) : Literal p (.list items)

/-! ### The first character -/

/-- The type of the literals whose text begins with a character. -/
def typeOfFirst (c : Char) : ValueType :=
  if isIntChar c then .int
  else if c = 'N' then .null
  else if c = '"' then .string
  else if c = '[' then .list
  else .bool

theorem exists_chars_eq_cons (hv : v.Literal p) :
    ∃ c rest, v.chars = c :: rest ∧ typeOfFirst c = v.type := by
  cases hv with
  | null => exact ⟨'N', _, rfl, rfl⟩
  | bool b => cases b <;> exact ⟨_, _, rfl, rfl⟩
  | int n =>
    obtain ⟨c, rest, hcons⟩ := exists_intChars_eq_cons n.toInt
    have hc : isIntChar c = true := isIntChar_of_mem_intChars (hcons ▸ List.mem_cons_self)
    exact ⟨c, rest, hcons, if_pos hc⟩
  | string s => exact ⟨'"', _, rfl, rfl⟩
  | list items => exact ⟨'[', _, rfl, rfl⟩

/-- The first character tells the type. -/
theorem type_eq_of_chars_append (hv : v.Literal p) (hw : w.Literal p)
    (h : v.chars ++ s = w.chars ++ t) : v.type = w.type := by
  obtain ⟨c, rest, hc, htype⟩ := exists_chars_eq_cons hv
  obtain ⟨d, rest', hd, htype'⟩ := exists_chars_eq_cons hw
  rw [hc, hd] at h
  rw [← htype, ← htype', (List.cons.inj h).1]

/-- No literal begins with a closing bracket. -/
theorem closing_ne_chars_append (hw : w.Literal p) : ']' :: s ≠ w.chars ++ t := by
  obtain ⟨d, rest, hd, htype⟩ := exists_chars_eq_cons hw
  rw [hd, List.cons_append]
  intro h
  obtain ⟨rfl, -⟩ := List.cons.inj h
  have hbool : w.type = .bool := htype.symm
  cases hw with
  | bool b => cases b <;> cases (List.cons.inj hd).1
  | _ => cases hbool

/-! ### Items of a list -/

/-- The characters that follow an item of a list. -/
def EndsItem (c : Char) : Prop := c = ',' ∨ c = ']'

/-- What begins with the text of `v` and goes on like a list begins with the text of no other
literal. -/
def Unambiguous (p : Char → Prop) (v : Value) : Prop :=
  ∀ ⦃w : Value⦄ ⦃c d : Char⦄ ⦃s t : List Char⦄, w.Literal p → EndsItem c → EndsItem d →
    v.chars ++ c :: s = w.chars ++ d :: t → v = w ∧ c = d ∧ s = t

/-- The items of a list but the first, each with a comma and a blank before it. -/
def laterChars (vs : List Value) : List Char := vs.flatMap fun v => ',' :: ' ' :: v.chars

theorem itemChars_cons (v : Value) (vs : List Value) :
    itemChars (v :: vs) = v.chars ++ laterChars vs := by
  induction vs generalizing v with
  | nil => rw [itemChars, laterChars, List.flatMap_nil, List.append_nil]
  | cons w vs ih =>
    rw [itemChars, ih w, laterChars, laterChars, List.flatMap_cons, List.append_assoc]
    · rfl
    · simp

theorem exists_laterChars_append (vs : List Value) (s : List Char) :
    ∃ c rest, laterChars vs ++ ']' :: s = c :: rest ∧ EndsItem c := by
  cases vs with
  | nil => exact ⟨']', s, rfl, .inr rfl⟩
  | cons v vs => exact ⟨',', _, rfl, .inl rfl⟩

/-- An item of a list is followed by the comma before the next one or by the closing bracket. -/
theorem Unambiguous.eq_of_laterChars_append {vs ws : List Value} (hv : Unambiguous p v)
    (hw : w.Literal p)
    (h : v.chars ++ (laterChars vs ++ ']' :: s) = w.chars ++ (laterChars ws ++ ']' :: t)) :
    v = w ∧ laterChars vs ++ ']' :: s = laterChars ws ++ ']' :: t := by
  obtain ⟨c, rest, hc, hend⟩ := exists_laterChars_append vs s
  obtain ⟨d, rest', hd, hend'⟩ := exists_laterChars_append ws t
  rw [hc, hd] at h ⊢
  obtain ⟨rfl, rfl, rfl⟩ := hv hw hend hend' h
  exact ⟨rfl, rfl⟩

theorem eq_of_laterChars_append : ∀ {vs ws : List Value}, (∀ v ∈ vs, Unambiguous p v) →
    (∀ w ∈ ws, w.Literal p) → laterChars vs ++ ']' :: s = laterChars ws ++ ']' :: t →
      vs = ws ∧ s = t
  | [], [], _, _, h => ⟨rfl, (List.cons.inj h).2⟩
  | [], w :: ws, _, _, h => absurd (List.cons.inj h).1 (by decide)
  | v :: vs, [], _, _, h => absurd (List.cons.inj h).1 (by decide)
  | v :: vs, w :: ws, hvs, hws, h => by
    simp only [laterChars, List.flatMap_cons, List.append_assoc, List.cons_append, List.cons.injEq,
      true_and] at h
    obtain ⟨hv, hlater⟩ := List.forall_mem_cons.1 hvs
    obtain ⟨hw, hlater'⟩ := List.forall_mem_cons.1 hws
    obtain ⟨rfl, hrest⟩ := hv.eq_of_laterChars_append hw h
    obtain ⟨rfl, rfl⟩ := eq_of_laterChars_append hlater hlater' hrest
    exact ⟨rfl, rfl⟩

theorem eq_of_itemChars_append {vs ws : List Value} (hvs : ∀ v ∈ vs, Unambiguous p v)
    (hvs' : ∀ v ∈ vs, v.Literal p) (hws : ∀ w ∈ ws, w.Literal p)
    (h : itemChars vs ++ ']' :: s = itemChars ws ++ ']' :: t) : vs = ws ∧ s = t := by
  cases vs with
  | nil =>
    cases ws with
    | nil => exact ⟨rfl, (List.cons.inj h).2⟩
    | cons w ws =>
      rw [itemChars_cons, List.append_assoc] at h
      exact absurd h (closing_ne_chars_append (hws w List.mem_cons_self))
  | cons v vs =>
    cases ws with
    | nil =>
      rw [itemChars_cons, List.append_assoc] at h
      exact absurd h.symm (closing_ne_chars_append (hvs' v List.mem_cons_self))
    | cons w ws =>
      rw [itemChars_cons, itemChars_cons, List.append_assoc, List.append_assoc] at h
      obtain ⟨hv, hlater⟩ := List.forall_mem_cons.1 hvs
      obtain ⟨hw, hlater'⟩ := List.forall_mem_cons.1 hws
      obtain ⟨rfl, hrest⟩ := hv.eq_of_laterChars_append hw h
      obtain ⟨rfl, rfl⟩ := eq_of_laterChars_append hlater hlater' hrest
      exact ⟨rfl, rfl⟩

/-! ### Literals -/

theorem not_isIntChar_of_endsItem (hc : EndsItem c) : ¬isIntChar c = true := by
  rcases hc with rfl | rfl <;> decide

/-- Literals are read in one way. -/
theorem unambiguous_literal (hv : v.Literal p) : Unambiguous p v := by
  induction hv with
  | null =>
    intro w c d s t hw hc hd h
    have htype := type_eq_of_chars_append .null hw h
    cases hw with
    | null => exact ⟨rfl, List.cons.inj (List.append_cancel_left h)⟩
    | _ => cases htype
  | bool b =>
    intro w c d s t hw hc hd h
    have htype := type_eq_of_chars_append (.bool b) hw h
    cases hw with
    | bool b' =>
      cases b <;> cases b'
      · exact ⟨rfl, List.cons.inj (List.append_cancel_left h)⟩
      · exact absurd (List.cons.inj h).1 (by decide)
      · exact absurd (List.cons.inj h).1 (by decide)
      · exact ⟨rfl, List.cons.inj (List.append_cancel_left h)⟩
    | _ => cases htype
  | int n =>
    intro w c d s t hw hc hd h
    have htype := type_eq_of_chars_append (.int n) hw h
    cases hw with
    | int m =>
      obtain ⟨htext, hrest⟩ := Text.eq_of_append_cons (fun _ => isIntChar_of_mem_intChars)
        (fun _ => isIntChar_of_mem_intChars) (not_isIntChar_of_endsItem hc)
        (not_isIntChar_of_endsItem hd) h
      exact ⟨congrArg Value.int (intChars_inj htext), hrest⟩
    | _ => cases htype
  | string text htext =>
    intro w c d s t hw hc hd h
    have htype := type_eq_of_chars_append (.string text htext) hw h
    cases hw with
    | string text' =>
      obtain ⟨htext, hrest⟩ := Text.eq_of_quoted_append h
      exact ⟨congrArg Value.string (String.toList_inj.1 htext), List.cons.inj hrest⟩
    | _ => cases htype
  | list items hitems ih =>
    intro w c d s t hw hc hd h
    have htype := type_eq_of_chars_append (.list items hitems) hw h
    cases hw with
    | list items' hitems' =>
      simp only [chars, List.cons_append, List.append_assoc, List.nil_append, List.cons.injEq,
        true_and] at h
      obtain ⟨rfl, hrest⟩ := eq_of_itemChars_append ih hitems hitems' h
      exact ⟨rfl, List.cons.inj hrest⟩
    | _ => cases htype

/-- Literals have the same text exactly if they are equal, whatever characters their texts consist
of. -/
theorem text_eq_iff {v w : Value} (hv : v.Literal fun _ => True) (hw : w.Literal fun _ => True) :
    v.text = w.text ↔ (v == w) = true := by
  constructor
  · intro h
    have hchars : v.chars ++ [','] = w.chars ++ [','] := by rw [String.ofList_inj.1 h]
    exact beq_iff_eq.2 (unambiguous_literal hv hw (.inl rfl) (.inl rfl) hchars).1
  · intro h
    rw [beq_iff_eq.1 h]

/-- A list of two texts is told from the list of one text that has a separator in it. -/
theorem text_eq_iff_separator :
    let two : Value := .list [.string "a", .string "b"]
    let one : Value := .list [.string "a\", \"b"]
    two.Literal (fun _ => True) ∧ one.Literal (fun _ => True) ∧ two.text ≠ one.text := by
  intro two one
  have htwo : two.Literal fun _ => True :=
    .list _ (by simpa using ⟨.string _ fun _ _ => trivial, .string _ fun _ _ => trivial⟩)
  have hone : one.Literal fun _ => True :=
    .list _ (by simpa using .string _ fun _ _ => trivial)
  exact ⟨htwo, hone, mt (text_eq_iff htwo hone).1 (by decide)⟩

end Value

end GraphQuery
