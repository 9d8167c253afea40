import GraphQuery.Proofs.Binding.Balance
import GraphQuery.Proofs.Fallible

/-!
# Splitting the inside of a list

An item is a balanced text in which every comma is inside quotes or brackets. The inside of a list
is split only if it is balanced, and then into items. Conversely an item is not split, and where a
comma follows it that comma is the next one at which the text is split.

## Main definitions

* `Binding.IsItem`: a text that is one item of a list.
* `Binding.LeadsWithin`: what reading a part of an item leads to.

## Main results

* `Binding.leads_of_splitFrom`: only what is balanced is split.
* `Binding.isItem_of_splitItems`: the parts are items.
* `Binding.splitFrom_item`, `Binding.splitFrom_item_comma`: an item is split off as it is.
-/

namespace GraphQuery

namespace Binding

variable {depth depth' depth'' : Nat} {quoted quoted' quoted'' : Bool} {text a b : List Char}
  {c : Char} {parts : List (List Char)}

/-- A balanced text in which no comma stands where no quote and no bracket is open. -/
structure IsItem (text : List Char) : Prop where
  balanced : Balanced text
  commasInside : ∀ start rest, text = start ++ ',' :: rest → ¬Balanced start

/-- Reading a text leads from one state to another one and comes to no comma while neither a
bracket nor a quote is open. -/
structure LeadsWithin (depth : Nat) (quoted : Bool) (text : List Char) (depth' : Nat)
    (quoted' : Bool) : Prop extends Leads depth quoted text depth' quoted' where
  commasInside : ∀ start rest, text = start ++ ',' :: rest → ¬Leads depth quoted start 0 false

theorem isItem_iff_leadsWithin : IsItem text ↔ LeadsWithin 0 false text 0 false := by
  constructor
  · intro h
    exact ⟨balanced_iff_leads.1 h.balanced, fun start rest htext =>
      mt balanced_iff_leads.2 (h.commasInside start rest htext)⟩
  · intro h
    exact ⟨balanced_iff_leads.2 h.toLeads, fun start rest htext =>
      mt balanced_iff_leads.1 (h.commasInside start rest htext)⟩

/-! ### Parts of items -/

theorem leadsWithin_nil : LeadsWithin depth quoted [] depth quoted :=
  ⟨leads_nil_iff.2 ⟨rfl, rfl⟩, fun start rest h => absurd h.symm (by simp)⟩

theorem LeadsWithin.append (ha : LeadsWithin depth quoted a depth' quoted')
    (hb : LeadsWithin depth' quoted' b depth'' quoted'') :
    LeadsWithin depth quoted (a ++ b) depth'' quoted'' := by
  refine ⟨ha.toLeads.append hb.toLeads, fun start rest htext hstart => ?_⟩
  rcases List.append_eq_append_iff.1 htext with ⟨after, rfl, rfl⟩ | ⟨before, rfl, hrest⟩
  · obtain ⟨d, q, ha', hafter⟩ := hstart.exists_of_append
    obtain ⟨rfl, rfl⟩ := ha.toLeads.unique ha'
    exact hb.commasInside after rest rfl hafter
  · cases before with
    | nil =>
      rw [List.append_nil] at ha
      obtain ⟨rfl, rfl⟩ := ha.toLeads.unique hstart
      exact hb.commasInside [] rest hrest.symm (leads_nil_iff.2 ⟨rfl, rfl⟩)
    | cons x before =>
      obtain ⟨rfl, -⟩ := List.cons.inj hrest
      exact ha.commasInside start before rfl hstart

theorem LeadsWithin.exists_of_append (h : LeadsWithin depth quoted (a ++ b) depth'' quoted'') :
    ∃ depth' quoted', LeadsWithin depth quoted a depth' quoted' ∧
      LeadsWithin depth' quoted' b depth'' quoted'' := by
  obtain ⟨depth', quoted', ha, hb⟩ := h.toLeads.exists_of_append
  refine ⟨depth', quoted', ⟨ha, fun start rest hstart => ?_⟩, ⟨hb, fun start rest hrest hb' => ?_⟩⟩
  · refine h.commasInside start (rest ++ b) ?_
    rw [hstart, List.append_assoc, List.cons_append]
  · refine h.commasInside (a ++ start) rest ?_ (ha.append hb')
    rw [hrest, List.append_assoc]

theorem leadsWithin_singleton_iff : LeadsWithin depth quoted [c] depth' quoted' ↔
    Leads depth quoted [c] depth' quoted' ∧ ¬(c = ',' ∧ depth = 0 ∧ quoted = false) := by
  constructor
  · intro h
    refine ⟨h.toLeads, ?_⟩
    rintro ⟨rfl, rfl, rfl⟩
    exact h.commasInside [] [] rfl (leads_nil_iff.2 ⟨rfl, rfl⟩)
  · rintro ⟨h, hcomma⟩
    refine ⟨h, fun start rest htext hstart => ?_⟩
    cases start with
    | nil =>
      obtain ⟨rfl, rfl⟩ := leads_nil_iff.1 hstart
      exact hcomma ⟨(List.cons.inj htext).1, rfl, rfl⟩
    | cons x start => exact absurd (List.cons.inj htext).2.symm (by simp)

/-- A text without commas comes to no comma. -/
theorem Leads.within (h : Leads depth quoted text depth' quoted') (hcomma : ',' ∉ text) :
    LeadsWithin depth quoted text depth' quoted' := by
  refine ⟨h, fun start rest htext _ => hcomma ?_⟩
  rw [htext]
  exact List.mem_append_right start List.mem_cons_self

/-! ### What one character does to the parts -/

/-- A comma while nothing is open begins a new part; any other character is put in front of the
first part, unless it closes a bracket that is not open. -/
theorem splitFrom_cons_eq (depth : Nat) (quoted : Bool) (c : Char) (rest : List Char) :
    splitFrom depth quoted (c :: rest) =
      if c = ',' ∧ depth = 0 ∧ quoted = false then (splitFrom depth quoted rest).map ([] :: ·)
      else match after? depth quoted c with
        | none => .error .strayBracket
        | some (depth', quoted') => (splitFrom depth' quoted' rest).map (consFirst c) := by
  rw [splitFrom, after?]
  by_cases hquote : c = '"'
  · simp [hquote]
  cases quoted with
  | true => simp [hquote]
  | false =>
    by_cases hopen : c = '['
    · simp [hopen]
    by_cases hclose : c = ']'
    · by_cases hdepth : depth = 0 <;> simp [hclose, hdepth]
    · simp [hquote, hopen, hclose]

theorem splitFrom_comma (rest : List Char) :
    splitFrom 0 false (',' :: rest) = (splitFrom 0 false rest).map ([] :: ·) := by
  rw [splitFrom_cons_eq, if_pos ⟨rfl, rfl, rfl⟩]

/-- A character of an item is put in front of the first part. -/
theorem splitFrom_cons (h : LeadsWithin depth quoted [c] depth' quoted') (rest : List Char) :
    splitFrom depth quoted (c :: rest) = (splitFrom depth' quoted' rest).map (consFirst c) := by
  obtain ⟨hlead, hcomma⟩ := leadsWithin_singleton_iff.1 h
  rw [splitFrom_cons_eq, if_neg hcomma, leads_singleton_iff.1 hlead]

/-- The ways in which a text is split that begins with a certain character. -/
theorem splitFrom_cons_eq_ok {rest : List Char}
    (h : splitFrom depth quoted (c :: rest) = .ok parts) :
    (∃ later, (c = ',' ∧ depth = 0 ∧ quoted = false) ∧ splitFrom 0 false rest = .ok later ∧
      parts = [] :: later) ∨
    ∃ depth' quoted' later, LeadsWithin depth quoted [c] depth' quoted' ∧
      splitFrom depth' quoted' rest = .ok later ∧ parts = consFirst c later := by
  rw [splitFrom_cons_eq] at h
  split at h
  · next hcomma =>
    obtain ⟨rfl, rfl, rfl⟩ := hcomma
    obtain ⟨later, hlater, rfl⟩ := map_eq_ok.1 h
    exact .inl ⟨later, ⟨rfl, rfl, rfl⟩, hlater, rfl⟩
  · next hcomma =>
    cases hafter : after? depth quoted c with
    | none => rw [hafter] at h; cases h
    | some state =>
      rw [hafter] at h
      obtain ⟨later, hlater, rfl⟩ := map_eq_ok.1 h
      exact .inr ⟨_, _, later,
        leadsWithin_singleton_iff.2 ⟨leads_singleton_iff.2 hafter, hcomma⟩, hlater, rfl⟩

/-! ### Parts and items -/

/-- The empty text has one part if nothing is open. -/
theorem splitFrom_nil_eq_ok (h : splitFrom depth quoted [] = .ok parts) :
    depth = 0 ∧ quoted = false ∧ parts = [[]] := by
  rw [splitFrom] at h
  split at h
  · cases h
  split at h
  · cases h
  · exact ⟨by simp_all, by simp_all, (Except.ok.inj h).symm⟩

/-- Only what leads to nothing open is split. -/
theorem leads_of_splitFrom : ∀ {text : List Char} {depth : Nat} {quoted : Bool}
    {parts : List (List Char)}, splitFrom depth quoted text = .ok parts →
      Leads depth quoted text 0 false
  | [], _, _, _, h => by
    obtain ⟨rfl, rfl, -⟩ := splitFrom_nil_eq_ok h
    exact leads_nil_iff.2 ⟨rfl, rfl⟩
  | c :: rest, _, _, _, h => by
    rcases splitFrom_cons_eq_ok h with ⟨later, ⟨rfl, rfl, rfl⟩, hlater, -⟩ |
      ⟨depth', quoted', later, hc, hlater, -⟩
    · have hcomma : Leads 0 false [','] 0 false := leads_self_of_forall (by simp)
      exact hcomma.append (leads_of_splitFrom hlater)
    · exact hc.toLeads.append (leads_of_splitFrom hlater)

/-- The first part goes on with the item that was begun, and the other parts are items. -/
theorem items_of_splitFrom : ∀ {text : List Char} {depth : Nat} {quoted : Bool}
    {parts : List (List Char)}, splitFrom depth quoted text = .ok parts →
      ∃ first later, parts = first :: later ∧ LeadsWithin depth quoted first 0 false ∧
        ∀ part ∈ later, IsItem part
  | [], _, _, _, h => by
    obtain ⟨rfl, rfl, rfl⟩ := splitFrom_nil_eq_ok h
    exact ⟨[], [], rfl, leadsWithin_nil, by simp⟩
  | c :: rest, _, _, _, h => by
    rcases splitFrom_cons_eq_ok h with ⟨parts, ⟨rfl, rfl, rfl⟩, hparts, rfl⟩ |
      ⟨depth', quoted', parts, hc, hparts, rfl⟩
    · obtain ⟨first, later, rfl, hfirst, hlater⟩ := items_of_splitFrom hparts
      exact ⟨[], first :: later, rfl, leadsWithin_nil,
        List.forall_mem_cons.2 ⟨isItem_iff_leadsWithin.2 hfirst, hlater⟩⟩
    · obtain ⟨first, later, rfl, hfirst, hlater⟩ := items_of_splitFrom hparts
      exact ⟨c :: first, later, rfl, hc.append hfirst, hlater⟩

/-- A part of an item is put in front of the first part. -/
theorem splitFrom_append : ∀ {a : List Char} {depth : Nat} {quoted : Bool},
    LeadsWithin depth quoted a depth' quoted' → ∀ rest, splitFrom depth quoted (a ++ rest) =
      (splitFrom depth' quoted' rest).map fun parts => a.foldr consFirst parts
  | [], depth, quoted, h, rest => by
    obtain ⟨rfl, rfl⟩ := leads_nil_iff.1 h.toLeads
    rw [List.nil_append]
    cases splitFrom depth quoted rest <;> rfl
  | c :: a, _, _, h, rest => by
    obtain ⟨depth, quoted, hc, ha⟩ := LeadsWithin.exists_of_append (a := [c]) h
    rw [List.cons_append, splitFrom_cons hc, splitFrom_append ha]
    cases splitFrom depth' quoted' rest <;> rfl

theorem foldr_consFirst (a first : List Char) (later : List (List Char)) :
    a.foldr consFirst (first :: later) = (a ++ first) :: later := by
  induction a with
  | nil => rfl
  | cons c a ih => rw [List.foldr_cons, ih, consFirst, List.cons_append]

/-- An item is not split. -/
theorem splitFrom_item (h : IsItem text) : splitFrom 0 false text = .ok [text] := by
  have happend := splitFrom_append (isItem_iff_leadsWithin.1 h) []
  rw [List.append_nil] at happend
  rw [happend, splitFrom]
  simp [Except.map, foldr_consFirst]

/-- An item with a comma after it is split off. -/
theorem splitFrom_item_comma (h : IsItem text) (rest : List Char) :
    splitFrom 0 false (text ++ ',' :: rest) = (splitFrom 0 false rest).map (text :: ·) := by
  rw [splitFrom_append (isItem_iff_leadsWithin.1 h), splitFrom_comma]
  cases splitFrom 0 false rest with
  | error fault => rfl
  | ok parts => simp [Except.map, foldr_consFirst]

theorem splitItems_eq_ok {items : List Char} :
    splitItems items = .ok parts ↔ splitFrom 0 false items = .ok parts := by
  rw [splitItems]
  cases splitFrom 0 false items with
  | ok found => simp
  | error fault => cases fault <;> simp

/-- The inside of a list is split only if it is balanced, and then into items. -/
theorem isItem_of_splitItems {items : List Char} (h : splitItems items = .ok parts) :
    Balanced items ∧ ∀ part ∈ parts, IsItem part := by
  have hfrom := splitItems_eq_ok.1 h
  obtain ⟨first, later, rfl, hfirst, hlater⟩ := items_of_splitFrom hfrom
  exact ⟨balanced_iff_leads.2 (leads_of_splitFrom hfrom),
    List.forall_mem_cons.2 ⟨isItem_iff_leadsWithin.2 hfirst, hlater⟩⟩

end Binding

end GraphQuery
