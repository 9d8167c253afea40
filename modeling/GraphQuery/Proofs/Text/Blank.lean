import Mathlib.Data.List.TakeWhile
import GraphQuery.Text.Blank

/-!
# Texts without the blanks at their ends

## Main results

* `Text.exists_eq_append_trim`: a text is a text without blanks at its ends, between blanks.
* `Text.trim_eq_self`: a text without blanks at its ends is left as it is.
* `Text.trim_eq_nil_iff`: nothing is left of blanks only.
-/

namespace GraphQuery

namespace Text

variable {text : List Char} {c : Char}

theorem exists_eq_append_trimStart (text : List Char) :
    ∃ blanks, text = blanks ++ trimStart text ∧ ∀ c ∈ blanks, isBlank c = true :=
  ⟨text.takeWhile isBlank, List.takeWhile_append_dropWhile.symm,
    fun _ => List.mem_takeWhile_imp⟩

/-- A text is what is left of it between the blanks at its ends. -/
theorem exists_eq_append_trim (text : List Char) :
    ∃ before after, text = before ++ (trim text ++ after) ∧ (∀ c ∈ before, isBlank c = true) ∧
      ∀ c ∈ after, isBlank c = true := by
  obtain ⟨before, hbefore, hblank⟩ := exists_eq_append_trimStart text
  obtain ⟨after, hafter, hblank'⟩ := exists_eq_append_trimStart (trimStart text).reverse
  refine ⟨before, after.reverse, ?_, hblank, fun c hc => hblank' c (List.mem_reverse.1 hc)⟩
  have hrest : trimStart text = trim text ++ after.reverse := by
    rw [trim, ← List.reverse_append, ← hafter, List.reverse_reverse]
  rw [← hrest]
  exact hbefore

/-- Nothing is left of a text exactly if it consists of blanks. -/
theorem trim_eq_nil_iff : trim text = [] ↔ ∀ c ∈ text, isBlank c = true := by
  constructor
  · intro h
    obtain ⟨before, after, htext, hbefore, hafter⟩ := exists_eq_append_trim text
    rw [htext, h, List.nil_append]
    exact List.forall_mem_append.2 ⟨hbefore, hafter⟩
  · intro h
    have hstart : trimStart text = [] := List.dropWhile_eq_nil_iff.2 h
    rw [trim, hstart]
    rfl

theorem trimStart_eq_self (h : ∀ c ∈ text.head?, isBlank c = false) : trimStart text = text := by
  cases text with
  | nil => rfl
  | cons c rest => exact List.dropWhile_cons_of_neg (by simp [h c rfl])

/-- A text without blanks at its ends is left as it is. -/
theorem trim_eq_self (hfirst : ∀ c ∈ text.head?, isBlank c = false)
    (hlast : ∀ c ∈ text.getLast?, isBlank c = false) : trim text = text := by
  have hreverse : trimStart text.reverse = text.reverse :=
    trimStart_eq_self (by rwa [List.head?_reverse])
  rw [trim, trimStart_eq_self hfirst, hreverse, List.reverse_reverse]

/-- A text between two characters that are no blanks is left as it is. -/
theorem trim_between {d : Char} (hc : isBlank c = false) (hd : isBlank d = false) :
    trim (c :: (text ++ [d])) = c :: (text ++ [d]) := by
  refine trim_eq_self (fun x hx => ?_) fun x hx => ?_
  · rwa [← Option.some.inj hx]
  · rw [← List.cons_append, List.getLast?_concat] at hx
    rwa [← Option.some.inj hx]

theorem trim_cons_of_isBlank (h : isBlank c = true) : trim (c :: text) = trim text := by
  have hstart : trimStart (c :: text) = trimStart text := List.dropWhile_cons_of_pos h
  rw [trim, hstart, trim]

theorem length_trim_le (text : List Char) : (trim text).length ≤ text.length := by
  obtain ⟨before, after, htext, -⟩ := exists_eq_append_trim text
  have hlength := congrArg List.length htext
  simp only [List.length_append] at hlength
  omega

end Text

end GraphQuery
