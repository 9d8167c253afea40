import Mathlib.Data.List.Basic
import GraphQuery.Text.Quoted

/-!
# Reading quoted texts in one way

The form of a character inside quotes tells where it ends and which character it is the form of,
and it does not begin with a quote. So a quoted text is recognised by its first closing quote, and
no two texts are the same when quoted.

## Main definitions

* `Text.EscapedAs`: the three kinds of forms that characters have inside quotes.
* `Text.IsPlain`: a character that stands for itself inside quotes.

## Main results

* `Text.eq_of_append_cons`: a text that ends at the first character of another kind.
* `Text.toDigits_inj`: different numbers have different digits.
* `Text.eq_of_quoted_append`: quoted texts are read in one way.
-/

namespace GraphQuery

namespace Text

/-- A text that ends at the first character without a property is known where it ends. -/
theorem eq_of_append_cons {p : Char → Prop} {a b s t : List Char} {c d : Char}
    (ha : ∀ x ∈ a, p x) (hb : ∀ x ∈ b, p x) (hc : ¬p c) (hd : ¬p d)
    (h : a ++ c :: s = b ++ d :: t) : a = b ∧ c = d ∧ s = t := by
  rcases List.append_eq_append_iff.1 h with ⟨middle, rfl, hrest⟩ | ⟨middle, rfl, hrest⟩
  · cases middle with
    | nil => exact ⟨(List.append_nil a).symm, List.cons.inj hrest⟩
    | cons x middle =>
      obtain ⟨rfl, -⟩ := List.cons.inj hrest
      exact absurd (hb c (List.mem_append_right a List.mem_cons_self)) hc
  · cases middle with
    | nil =>
      obtain ⟨rfl, rfl⟩ := List.cons.inj hrest
      exact ⟨List.append_nil b, rfl, rfl⟩
    | cons x middle =>
      obtain ⟨rfl, -⟩ := List.cons.inj hrest
      exact absurd (ha d (List.mem_append_right b List.mem_cons_self)) hd

/-! ### Digits -/

theorem digitChar_inj : ∀ m < 16, ∀ n < 16, Nat.digitChar m = Nat.digitChar n → m = n := by
  decide

theorem brace_ne_digitChar : ∀ n < 16, Nat.digitChar n ≠ '}' := by decide

/-- Different numbers have different digits. -/
theorem toDigits_inj {b : Nat} (hb : 1 < b) (hb' : b ≤ 16) {m n : Nat}
    (h : Nat.toDigits b m = Nat.toDigits b n) : m = n := by
  induction m using Nat.strongRecOn generalizing n with
  | _ m ih =>
    have hmod (k : Nat) : k % b < 16 := Nat.lt_of_lt_of_le (Nat.mod_lt k (by omega)) hb'
    have hne (k : Nat) (x y : Char) : [x] ≠ Nat.toDigits b k ++ [y] := fun heq =>
      Nat.toDigits_ne_nil (List.append_inj' ((List.nil_append [x]).trans heq) rfl).1.symm
    rw [Nat.toDigits_eq_if (n := m) hb, Nat.toDigits_eq_if (n := n) hb] at h
    split at h
    · split at h
      · exact digitChar_inj m (by omega) n (by omega) (List.singleton_inj.1 h)
      · exact absurd h (hne _ _ _)
    · split at h
      · exact absurd h.symm (hne _ _ _)
      · obtain ⟨hinit, hlast⟩ := List.append_inj' h rfl
        have hdiv : m / b = n / b := ih (m / b) (Nat.div_lt_self (by omega) hb) hinit
        have hrem : m % b = n % b :=
          digitChar_inj _ (hmod m) _ (hmod n) (List.singleton_inj.1 hlast)
        rw [← Nat.div_add_mod m b, ← Nat.div_add_mod n b, hdiv, hrem]

theorem brace_notMem_toDigits (n : Nat) : '}' ∉ Nat.toDigits 16 n := by
  induction n using Nat.strongRecOn with
  | _ n ih =>
    rw [Nat.toDigits_eq_if (by omega)]
    split
    · exact fun h => brace_ne_digitChar n (by omega) (List.mem_singleton.1 h).symm
    · intro h
      rcases List.mem_append.1 h with h | h
      · exact ih (n / 16) (by omega) h
      · exact brace_ne_digitChar (n % 16) (by omega) (List.mem_singleton.1 h).symm

/-! ### Escaped characters -/

/-- The characters with a letter of their own after the backslash, and these letters. -/
def escapeLetters : List (Char × Char) :=
  [('\t', 't'), ('\r', 'r'), ('\n', 'n'), ('\'', '\''), ('"', '"'), ('\\', '\\')]

theorem escapeLetters_inj :
    ∀ p ∈ escapeLetters, ∀ q ∈ escapeLetters, p.2 = q.2 → p.1 = q.1 := by decide

theorem escapeLetters_ne_u : ∀ p ∈ escapeLetters, p.2 ≠ 'u' := by decide

/-- The forms that characters have inside quotes: a backslash and a letter, the character itself,
or its code point in braces. -/
inductive EscapedAs : Char → List Char → Prop
  | letter {c letter : Char} (h : (c, letter) ∈ escapeLetters) : EscapedAs c ['\\', letter]
  | self {c : Char} (hslash : c ≠ '\\') (hquote : c ≠ '"') : EscapedAs c [c]
  | codePoint (c : Char) : EscapedAs c (escapeCodePoint c)

theorem escapedAs_escape (c : Char) : EscapedAs c (escape c) := by
  rw [escape]
  split
  · next h => exact h ▸ .letter (by decide)
  split
  · next h => exact h ▸ .letter (by decide)
  split
  · next h => exact h ▸ .letter (by decide)
  split
  · next h => rcases h with rfl | rfl | rfl <;> exact .letter (by decide)
  split
  · next h _ => exact .self (fun hc => h (.inr (.inr hc))) fun hc => h (.inr (.inl hc))
  · exact .codePoint c

/-- A form inside quotes does not begin with a quote. -/
theorem EscapedAs.exists_cons {c : Char} {w : List Char} (h : EscapedAs c w) :
    ∃ first rest, w = first :: rest ∧ first ≠ '"' := by
  cases h with
  | letter => exact ⟨'\\', _, rfl, by decide⟩
  | self hslash hquote => exact ⟨c, [], rfl, hquote⟩
  | codePoint => exact ⟨'\\', _, rfl, by decide⟩

theorem eq_of_escapeCodePoint_append {c d : Char} {s t : List Char}
    (h : escapeCodePoint c ++ s = escapeCodePoint d ++ t) : c = d ∧ s = t := by
  simp only [escapeCodePoint, List.append_assoc, List.append_cancel_left_eq, List.singleton_append]
    at h
  obtain ⟨hdigits, -, rfl⟩ := eq_of_append_cons (p := (· ≠ '}'))
    (fun x hx => ne_of_mem_of_not_mem hx (brace_notMem_toDigits _))
    (fun x hx => ne_of_mem_of_not_mem hx (brace_notMem_toDigits _)) (by simp) (by simp) h
  exact ⟨Char.toNat_inj.1 (toDigits_inj (by decide) (by decide) hdigits), rfl⟩

/-- The forms of characters are read in one way. -/
theorem EscapedAs.eq_of_append {c d : Char} {v w s t : List Char} (hv : EscapedAs c v)
    (hw : EscapedAs d w) (h : v ++ s = w ++ t) : c = d ∧ s = t := by
  cases hv with
  | letter hc =>
    cases hw with
    | letter hd =>
      obtain ⟨hletter, rfl⟩ := List.cons.inj (List.cons.inj h).2
      exact ⟨escapeLetters_inj _ hc _ hd hletter, rfl⟩
    | self hslash => exact absurd (List.cons.inj h).1.symm hslash
    | codePoint => exact absurd (List.cons.inj (List.cons.inj h).2).1 (escapeLetters_ne_u _ hc)
  | self hslash =>
    cases hw with
    | self => exact List.cons.inj h
    | letter | codePoint => exact absurd (List.cons.inj h).1 hslash
  | codePoint =>
    cases hw with
    | letter hd => exact absurd (List.cons.inj (List.cons.inj h).2).1.symm (escapeLetters_ne_u _ hd)
    | self hslash => exact absurd (List.cons.inj h).1.symm hslash
    | codePoint => exact eq_of_escapeCodePoint_append h

/-! ### Quoted texts -/

theorem eq_of_escapes_append : ∀ {a b s t : List Char},
    a.flatMap escape ++ '"' :: s = b.flatMap escape ++ '"' :: t → a = b ∧ s = t
  | [], [], _, _, h => ⟨rfl, (List.cons.inj h).2⟩
  | [], d :: b, _, _, h => by
    obtain ⟨first, rest, hd, hquote⟩ := (escapedAs_escape d).exists_cons
    rw [List.flatMap_cons, hd] at h
    exact absurd (List.cons.inj h).1.symm hquote
  | c :: a, [], _, _, h => by
    obtain ⟨first, rest, hc, hquote⟩ := (escapedAs_escape c).exists_cons
    rw [List.flatMap_cons, hc] at h
    exact absurd (List.cons.inj h).1 hquote
  | c :: a, d :: b, _, _, h => by
    rw [List.flatMap_cons, List.flatMap_cons, List.append_assoc, List.append_assoc] at h
    obtain ⟨rfl, hrest⟩ := (escapedAs_escape c).eq_of_append (escapedAs_escape d) h
    obtain ⟨rfl, rfl⟩ := eq_of_escapes_append hrest
    exact ⟨rfl, rfl⟩

/-- Quoted texts are read in one way. -/
theorem eq_of_quoted_append {a b s t : List Char} (h : quoted a ++ s = quoted b ++ t) :
    a = b ∧ s = t := by
  simp only [quoted, List.cons_append, List.append_assoc, List.nil_append, List.cons.injEq,
    true_and] at h
  exact eq_of_escapes_append h

/-! ### Plain characters -/

/-- A character that stands for itself inside quotes. -/
structure IsPlain (c : Char) : Prop where
  printable : isPrintableAscii c = true
  ne_doubleQuote : c ≠ '"'
  ne_singleQuote : c ≠ '\''
  ne_backslash : c ≠ '\\'

instance : DecidablePred IsPlain := fun c =>
  decidable_of_iff (isPrintableAscii c = true ∧ c ≠ '"' ∧ c ≠ '\'' ∧ c ≠ '\\')
    ⟨fun ⟨hprintable, hdouble, hsingle, hslash⟩ => ⟨hprintable, hdouble, hsingle, hslash⟩,
      fun h => ⟨h.printable, h.ne_doubleQuote, h.ne_singleQuote, h.ne_backslash⟩⟩

theorem IsPlain.escape_eq {c : Char} (h : IsPlain c) : escape c = [c] := by
  have hne {control : Char} (hcontrol : isPrintableAscii control = false) : c ≠ control := by
    rintro rfl
    exact absurd h.printable (by simp [hcontrol])
  rw [escape, if_neg (hne rfl), if_neg (hne rfl), if_neg (hne rfl), if_neg, if_pos h.printable]
  rintro (hc | hc | hc)
  · exact h.ne_singleQuote hc
  · exact h.ne_doubleQuote hc
  · exact h.ne_backslash hc

/-- Plain characters are only put between quotes. -/
theorem quoted_of_isPlain {text : List Char} (h : ∀ c ∈ text, IsPlain c) :
    quoted text = '"' :: (text ++ ['"']) := by
  have hself : text.flatMap escape = text.flatMap fun c => [c] :=
    List.flatMap_congr fun c hc => (h c hc).escape_eq
  rw [quoted, hself, List.flatMap_singleton']
  rfl

end Text

end GraphQuery
