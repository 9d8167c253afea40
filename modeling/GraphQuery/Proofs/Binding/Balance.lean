import Mathlib.Data.List.Basic
import GraphQuery.Binding

/-!
# Balanced texts

A text is balanced if its double quotes pair up and the brackets outside of them do. Texts are read
from left to right, so this is a matter of what each character does to the number of open brackets
and to whether a quote is open: reading a text leads from one state of this kind to another one.

## Main definitions

* `Binding.Balanced`: quotes and brackets pair up.
* `Binding.Leads`: what reading a text leads to.

## Main results

* `Binding.balanced_iff_leads`: a balanced text leads from nothing open to nothing open.
* `Binding.Leads.append`, `Binding.Leads.exists_of_append`: texts are read one after the other.
* `Binding.leads_singleton_iff`: what one character does, given by `Binding.after?`.
-/

namespace GraphQuery

namespace Binding

variable {depth depth' depth'' : Nat} {quoted quoted' quoted'' : Bool} {text a b : List Char}
  {c : Char}

/-- The characters outside double quotes, given whether a quote is open before them. -/
def outside (quoted : Bool) : List Char → List Char
  | [] => []
  | c :: rest =>
    if c = '"' then outside (!quoted) rest
    else if quoted then outside quoted rest
    else c :: outside quoted rest

/-- The double quotes are even in number, and of the brackets outside of them there are never more
closing than opening ones, and equally many at the end. -/
structure Balanced (text : List Char) : Prop where
  quotes : text.count '"' % 2 = 0
  neverBelow : ∀ start, start <+: text →
    (outside false start).count ']' ≤ (outside false start).count '['
  closed : (outside false text).count ']' = (outside false text).count '['

/-- Reading a text leads from `depth` open brackets to `depth'`, and from an open quote or none to
an open quote or none. No bracket is closed that is not open. -/
structure Leads (depth : Nat) (quoted : Bool) (text : List Char) (depth' : Nat)
    (quoted' : Bool) : Prop where
  quotes : (quoted.toNat + text.count '"') % 2 = quoted'.toNat
  brackets : depth + (outside quoted text).count '[' = depth' + (outside quoted text).count ']'
  neverBelow : ∀ start, start <+: text →
    (outside quoted start).count ']' ≤ depth + (outside quoted start).count '['

/-- A balanced text leads from nothing open to nothing open. -/
theorem balanced_iff_leads : Balanced text ↔ Leads 0 false text 0 false := by
  constructor
  · intro h
    refine ⟨?_, ?_, fun start hstart => ?_⟩
    · rw [Bool.toNat_false, Nat.zero_add]
      exact h.quotes
    · rw [Nat.zero_add, Nat.zero_add]
      exact h.closed.symm
    · rw [Nat.zero_add]
      exact h.neverBelow start hstart
  · intro h
    refine ⟨?_, fun start hstart => ?_, ?_⟩
    · simpa using h.quotes
    · simpa using h.neverBelow start hstart
    · simpa using h.brackets.symm

/-! ### Texts one after the other -/

/-- Whether a quote is open after a text. -/
theorem quoted_cons : (quoted.toNat + (c :: text).count '"') % 2 =
    ((if c = '"' then !quoted else quoted).toNat + text.count '"') % 2 := by
  rw [List.count_cons]
  cases quoted <;> split <;> simp_all <;> omega

theorem outside_append : ∀ {quoted : Bool} {a : List Char},
    (quoted.toNat + a.count '"') % 2 = quoted'.toNat →
      outside quoted (a ++ b) = outside quoted a ++ outside quoted' b
  | quoted, [], h => by
    obtain rfl : quoted = quoted' := by cases quoted <;> cases quoted' <;> simp_all
    rfl
  | quoted, c :: a, h => by
    rw [quoted_cons] at h
    rw [List.cons_append, outside, outside]
    split
    · rw [if_pos ‹_›] at h
      exact outside_append h
    · rw [if_neg ‹_›] at h
      split
      · exact outside_append h
      · rw [outside_append h, List.cons_append]

theorem Leads.append (ha : Leads depth quoted a depth' quoted')
    (hb : Leads depth' quoted' b depth'' quoted'') :
    Leads depth quoted (a ++ b) depth'' quoted'' := by
  have hbrackets := ha.brackets
  refine ⟨?_, ?_, fun start hstart => ?_⟩
  · rw [List.count_append, ← Nat.add_assoc, Nat.add_mod, ha.quotes, ← hb.quotes]
    omega
  · have hbrackets' := hb.brackets
    rw [outside_append ha.quotes, List.count_append, List.count_append]
    omega
  · rcases List.prefix_or_prefix_of_prefix hstart (List.prefix_append a b) with hin | ⟨after, rfl⟩
    · exact ha.neverBelow start hin
    · have hafter := hb.neverBelow after ((List.prefix_append_right_inj a).1 hstart)
      rw [outside_append ha.quotes, List.count_append, List.count_append]
      omega

/-- Reading two texts one after the other comes through a state between them. -/
theorem Leads.exists_of_append (h : Leads depth quoted (a ++ b) depth'' quoted'') :
    ∃ depth' quoted', Leads depth quoted a depth' quoted' ∧
      Leads depth' quoted' b depth'' quoted'' := by
  have hbelow : ∀ start, start <+: a → _ := fun start hstart =>
    h.neverBelow start (hstart.trans (List.prefix_append a b))
  have ha := hbelow a (List.prefix_refl a)
  obtain ⟨quoted', hquotes⟩ :
      ∃ quoted' : Bool, (quoted.toNat + a.count '"') % 2 = quoted'.toNat := by
    rcases Nat.mod_two_eq_zero_or_one (quoted.toNat + a.count '"') with heven | hodd
    · exact ⟨false, heven⟩
    · exact ⟨true, hodd⟩
  refine ⟨depth + (outside quoted a).count '[' - (outside quoted a).count ']', quoted',
    ⟨hquotes, by omega, hbelow⟩, ⟨?_, ?_, fun start hstart => ?_⟩⟩
  · have hquotes' := h.quotes
    rw [List.count_append] at hquotes'
    omega
  · have hbrackets := h.brackets
    rw [outside_append hquotes, List.count_append, List.count_append] at hbrackets
    omega
  · have hstart' := h.neverBelow (a ++ start) ((List.prefix_append_right_inj a).2 hstart)
    rw [outside_append hquotes, List.count_append, List.count_append] at hstart'
    omega

/-- A text leads to one state only. -/
theorem Leads.unique (h : Leads depth quoted text depth' quoted')
    (h' : Leads depth quoted text depth'' quoted'') : depth' = depth'' ∧ quoted' = quoted'' := by
  have hbrackets := h.brackets
  have hbrackets' := h'.brackets
  refine ⟨by omega, ?_⟩
  have hquotes : quoted'.toNat = quoted''.toNat := h.quotes.symm.trans h'.quotes
  cases quoted' <;> cases quoted'' <;> simp_all

/-! ### Single characters -/

theorem leads_nil_iff :
    Leads depth quoted [] depth' quoted' ↔ depth = depth' ∧ quoted = quoted' := by
  constructor
  · intro h
    have hquotes := h.quotes
    refine ⟨h.brackets, ?_⟩
    cases quoted <;> cases quoted' <;> simp_all
  · rintro ⟨rfl, rfl⟩
    refine ⟨by cases quoted <;> rfl, rfl, fun start hstart => ?_⟩
    rw [List.prefix_nil.1 hstart]
    exact Nat.zero_le _

/-- A single character has two beginnings, nothing and itself. -/
theorem leads_singleton : Leads depth quoted [c] depth' quoted' ↔
    (quoted.toNat + [c].count '"') % 2 = quoted'.toNat ∧
      depth + (outside quoted [c]).count '[' = depth' + (outside quoted [c]).count ']' ∧
      (outside quoted [c]).count ']' ≤ depth + (outside quoted [c]).count '[' := by
  constructor
  · exact fun h => ⟨h.quotes, h.brackets, h.neverBelow [c] (List.prefix_refl [c])⟩
  · rintro ⟨hquotes, hbrackets, hbelow⟩
    refine ⟨hquotes, hbrackets, fun start hstart => ?_⟩
    rcases List.prefix_cons_iff.1 hstart with rfl | ⟨after, rfl, hafter⟩
    · exact Nat.zero_le _
    · rw [List.prefix_nil.1 hafter]
      exact hbelow

/-- The number of open brackets after a character and whether a quote is open then, unless the
character closes a bracket that is not open. -/
def after? (depth : Nat) (quoted : Bool) (c : Char) : Option (Nat × Bool) :=
  if c = '"' then some (depth, !quoted)
  else if quoted then some (depth, quoted)
  else if c = '[' then some (depth + 1, quoted)
  else if c = ']' then if depth = 0 then none else some (depth - 1, quoted)
  else some (depth, quoted)

/-- What one character does. -/
theorem leads_singleton_iff :
    Leads depth quoted [c] depth' quoted' ↔ after? depth quoted c = some (depth', quoted') := by
  rw [leads_singleton]
  by_cases hquote : c = '"'
  · subst hquote
    cases quoted <;> cases quoted' <;> simp [outside, after?]
  cases quoted with
  | true => cases quoted' <;> simp [outside, after?, hquote]
  | false =>
    by_cases hopen : c = '['
    · subst hopen
      cases quoted' <;> simp [outside, after?]
    by_cases hclose : c = ']'
    · subst hclose
      cases quoted' <;> simp [outside, after?]
      omega
    · cases quoted' <;> simp [outside, after?, hquote, hopen, hclose]

/-- Characters that are neither quotes nor brackets change nothing. -/
theorem leads_self_of_forall (h : ∀ c ∈ text, c ≠ '"' ∧ c ≠ '[' ∧ c ≠ ']') :
    Leads depth quoted text depth quoted := by
  induction text with
  | nil => exact leads_nil_iff.2 ⟨rfl, rfl⟩
  | cons c rest ih =>
    obtain ⟨⟨hquote, hopen, hclose⟩, hrest⟩ := List.forall_mem_cons.1 h
    have hc : Leads depth quoted [c] depth quoted :=
      leads_singleton_iff.2 (by simp [after?, hquote, hopen, hclose])
    exact hc.append (ih hrest)

end Binding

end GraphQuery
