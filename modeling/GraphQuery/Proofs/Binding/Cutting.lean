import GraphQuery.Binding.Cutting
import GraphQuery.Proofs.Binding.Joining

/-!
# Cutting a list at bytes

The items of a list can be cut out of its text by the bytes at which they begin and end. While the
text is read, the current item stands at the end of what has been read, and it begins at the byte
that is kept for it. So the text is cut between two characters only, and the same parts come out as
from splitting it.

## Main definitions

* `Binding.Scan.At`: how far a text has been read, and where its current item stands.
* `Binding.Scan.outcome`: what is left to come out then.

## Main results

* `Binding.Scan.At.step_eq`, `Binding.Scan.At.next`, `Binding.Scan.At.comma`: what one character
  does.
* `Binding.Scan.At.run_eq`: what reading the rest of a text comes to.
* `Binding.splitItems_inverse_intercalate`: splitting, cutting and joining.
-/

namespace GraphQuery

namespace Binding

variable {c : Char} {items before item rest : List Char} {scan : Scan}

/-! ### How far a text has been read -/

/-- A text has been read up to `rest`, and its current item is `item`, which begins after
`before`. -/
structure Scan.At (items : List Char) (scan : Scan) (before item rest : List Char) : Prop where
  text : items = before ++ item ++ rest
  start : scan.start = Text.byteLength before

/-- The current item is cut out as it is. -/
theorem Scan.At.item_eq (h : scan.At items before item rest) :
    scan.item items (Text.byteLength (before ++ item)) = .ok item := by
  rw [Scan.item, h.text, h.start, Text.slice?_append]

/-- A character that does not end the current item becomes a part of it. -/
theorem Scan.At.next (h : scan.At items before item (c :: rest)) (depth : Nat) (quoted : Bool) :
    Scan.At items { scan with depth := depth, quoted := quoted } before (item ++ [c]) rest :=
  ⟨by simpa using h.text, h.start⟩

/-- After a comma that ends the current item, the next one begins. -/
theorem Scan.At.comma (h : scan.At items before item (',' :: rest)) :
    Scan.At items
      { scan with
        parts := scan.parts ++ [item], start := Text.byteLength (before ++ item) + 1 }
      (before ++ item ++ [',']) [] rest :=
  ⟨by simpa using h.text, by rw [Text.byteLength_concat]; rfl⟩

/-- What one character does: a comma while nothing is open ends the current item. -/
theorem Scan.At.step_eq (h : scan.At items before item (c :: rest)) :
    scan.step items (Text.byteLength (before ++ item), c) =
      if c = ',' ∧ scan.depth = 0 ∧ scan.quoted = false then
        .ok { scan with
          parts := scan.parts ++ [item], start := Text.byteLength (before ++ item) + 1 }
      else match after? scan.depth scan.quoted c with
        | none => .error (.unbalanced (.strayBracket items))
        | some (depth, quoted) => .ok { scan with depth := depth, quoted := quoted } := by
  rw [Scan.step, h.item_eq, after?]
  obtain ⟨depth, quoted, start, parts⟩ := scan
  by_cases hquote : c = '"'
  · simp [hquote]
  cases quoted with
  | true => simp [hquote]
  | false =>
    by_cases hopen : c = '['
    · simp [hopen]
    by_cases hclose : c = ']'
    · by_cases hdepth : depth = 0 <;> simp [hclose, hdepth]
    · by_cases hcomma : c = ',' ∧ depth = 0 <;> simp [hquote, hopen, hclose, hcomma]

/-! ### What comes out -/

/-- The fault of the inside of a list. -/
def SplitFault.inItems (items : List Char) : SplitFault → ValueFault
  | .strayBracket => .strayBracket items
  | .openQuote => .openQuote items
  | .openBracket => .openBracket items

theorem splitItems_eq_mapError (items : List Char) :
    splitItems items = (splitFrom 0 false items).mapError (SplitFault.inItems items) := by
  rw [splitItems]
  cases splitFrom 0 false items with
  | ok parts => rfl
  | error fault => cases fault <;> rfl

/-- What is left to come out when a text has been read up to `rest`: the parts of the rest, the
first one after what has been read of the current item, and the items before it. -/
def Scan.outcome (items : List Char) (scan : Scan) (item rest : List Char) :
    Except CutFault (List (List Char)) :=
  ((splitFrom scan.depth scan.quoted rest).map fun parts =>
      scan.parts ++ item.foldr consFirst parts).mapError
    fun fault => .unbalanced (fault.inItems items)

/-- At the end of the text the current item is the last one. -/
theorem Scan.At.finish_eq (h : scan.At items before item []) :
    scan.finish items = scan.outcome items item [] := by
  have hend : before ++ item = items := by simpa using h.text.symm
  have hitem := h.item_eq
  rw [hend] at hitem
  rw [Scan.finish, Scan.outcome, hitem, splitFrom]
  cases scan.quoted with
  | true => rfl
  | false =>
    by_cases hdepth : scan.depth = 0
    · simp [hdepth, Except.map, Except.mapError, foldr_consFirst]
    · simp [hdepth, Except.map, Except.mapError, SplitFault.inItems]

/-- A comma that ends the current item changes nothing of what comes out. -/
theorem Scan.outcome_comma (start : Nat) (hdepth : scan.depth = 0) (hquoted : scan.quoted = false) :
    Scan.outcome items { scan with parts := scan.parts ++ [item], start := start } [] rest =
      scan.outcome items item (',' :: rest) := by
  rw [Scan.outcome, Scan.outcome, hdepth, hquoted, splitFrom_comma]
  cases splitFrom 0 false rest with
  | error fault => rfl
  | ok later => simp [Except.map, foldr_consFirst]

/-- Neither does a character of the current item. -/
theorem Scan.outcome_next {depth' : Nat} {quoted' : Bool}
    (h : LeadsWithin scan.depth scan.quoted [c] depth' quoted') :
    Scan.outcome items { scan with depth := depth', quoted := quoted' } (item ++ [c]) rest =
      scan.outcome items item (c :: rest) := by
  rw [Scan.outcome, Scan.outcome, splitFrom_cons h]
  cases splitFrom depth' quoted' rest with
  | error fault => rfl
  | ok later => simp [Except.map, List.foldr_append]

/-- Reading the rest of a text comes to what is left to come out. The induction is on the rest;
each character keeps both the place of the current item and what is left to come out. -/
theorem Scan.At.run_eq : ∀ {rest before item : List Char} {scan : Scan},
    scan.At items before item rest →
      ((Text.indexed (Text.byteLength (before ++ item)) rest).foldlM (Scan.step items) scan >>=
        Scan.finish items) = scan.outcome items item rest
  | [], _, _, _, h => h.finish_eq
  | c :: rest, before, item, scan, h => by
    rw [Text.indexed, List.foldlM_cons, h.step_eq]
    by_cases hcomma : c = ',' ∧ scan.depth = 0 ∧ scan.quoted = false
    · rw [if_pos hcomma]
      obtain ⟨rfl, hdepth, hquoted⟩ := hcomma
      have hrun := h.comma.run_eq
      rw [List.append_nil, Text.byteLength_concat] at hrun
      exact hrun.trans (Scan.outcome_comma _ hdepth hquoted)
    · rw [if_neg hcomma]
      cases hafter : after? scan.depth scan.quoted c with
      | none =>
        rw [Scan.outcome, splitFrom_cons_eq, if_neg hcomma, hafter]
        rfl
      | some state =>
        have hc := leadsWithin_singleton_iff.2 ⟨leads_singleton_iff.2 hafter, hcomma⟩
        have hrun := (h.next state.1 state.2).run_eq
        rw [← List.append_assoc, Text.byteLength_concat] at hrun
        exact hrun.trans (Scan.outcome_next hc)

/-- Cutting at bytes comes to the same parts and to the same faults, and it cuts no character. -/
theorem cutItems_eq (items : List Char) :
    cutItems items = (splitItems items).mapError .unbalanced := by
  have hstart : Scan.At items {} [] [] items := ⟨rfl, rfl⟩
  refine hstart.run_eq.trans ?_
  rw [splitItems_eq_mapError, Scan.outcome]
  cases splitFrom 0 false items <;> rfl

/-! ### Splitting and joining -/

/-- Splitting the inside of a list is the inverse of joining items. What is balanced is split, and
nothing else. A list of parts comes out exactly if it is a nonempty list of items that, joined with
commas, is the text. Cutting at bytes comes to the same parts or the same fault, and it never cuts
inside a character. -/
theorem splitItems_inverse_intercalate (items : List Char) :
    ((∃ parts, splitItems items = .ok parts) ↔ Balanced items) ∧
    (∀ parts, splitItems items = .ok parts ↔
      parts ≠ [] ∧ (∀ part ∈ parts, IsItem part) ∧ [','].intercalate parts = items) ∧
    cutItems items = (splitItems items).mapError .unbalanced :=
  ⟨exists_splitItems_iff, fun _ => splitItems_eq_ok_iff_intercalate, cutItems_eq items⟩

/-- Empty items at both ends, a comma and a bracket inside quotes, a quote inside brackets, and
characters of several bytes. -/
theorem splitItems_inverse_intercalate_multibyte :
    let items := ",\"é,]\",[😀,[\"[\"]],".toList
    let parts := ["", "\"é,]\"", "[😀,[\"[\"]]", ""].map String.toList
    Balanced items ∧ (∀ part ∈ parts, IsItem part) ∧ [','].intercalate parts = items ∧
      cutItems items = .ok parts := by
  intro items parts
  have hparts : splitItems items = .ok parts := by decide +kernel
  obtain ⟨hbalanced, hjoin, hcut⟩ := splitItems_inverse_intercalate items
  obtain ⟨-, hitems, htext⟩ := (hjoin parts).1 hparts
  refine ⟨hbalanced.1 ⟨parts, hparts⟩, hitems, htext, ?_⟩
  rw [hcut, hparts]
  rfl

end Binding

end GraphQuery
