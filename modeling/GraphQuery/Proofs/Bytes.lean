import Mathlib.Algebra.Group.Nat.Defs
import GraphQuery.Bytes.Reader
import GraphQuery.Bytes.Words

/-!
# Bytes and words

A list of bytes is cut in one way only, and a word is determined by its bytes and its bytes by the
word.

## Main results

* `Bytes.split?_eq_some`: what it means to cut off the first bytes of a list.
* `Bytes.ofBigEndian_bigEndian`, `Bytes.bigEndian_ofBigEndian`: words and their bytes.
-/

namespace GraphQuery

namespace Bytes

/-! ### Lists of bytes -/

theorem hasAtLeast_iff : ∀ {n : Nat} {bytes : List UInt8},
    hasAtLeast n bytes = true ↔ n ≤ bytes.length
  | 0, _ => by simp [hasAtLeast]
  | _ + 1, [] => by simp [hasAtLeast]
  | n + 1, _ :: rest => by
    rw [hasAtLeast, hasAtLeast_iff, List.length_cons]
    omega

theorem split?_append : ∀ (first rest : List UInt8),
    split? first.length (first ++ rest) = some (first, rest)
  | [], _ => rfl
  | byte :: first, rest => by
    simp only [List.length_cons, List.cons_append, split?, split?_append first rest]

theorem split?_isSome : ∀ {n : Nat} {bytes : List UInt8}, n ≤ bytes.length →
    ∃ first rest, split? n bytes = some (first, rest)
  | 0, bytes, _ => ⟨[], bytes, rfl⟩
  | n + 1, byte :: rest, h => by
    obtain ⟨first, others, hs⟩ := split?_isSome (Nat.le_of_succ_le_succ h)
    exact ⟨byte :: first, others, by simp only [split?, hs]⟩

/-- The first `n` bytes and the others make up the list. -/
theorem split?_eq_some : ∀ {n : Nat} {bytes first rest : List UInt8},
    split? n bytes = some (first, rest) ↔ first.length = n ∧ bytes = first ++ rest := by
  intro n bytes first rest
  constructor
  · intro h
    induction n generalizing bytes first with
    | zero =>
      obtain ⟨rfl, rfl⟩ := Prod.mk.inj (Option.some.inj h)
      exact ⟨rfl, rfl⟩
    | succ n ih =>
      cases bytes with
      | nil => exact nomatch h
      | cons byte bytes =>
        cases hs : split? n bytes with
        | none => simp only [split?, hs, reduceCtorEq] at h
        | some pair =>
          simp only [split?, hs, Option.some.injEq, Prod.mk.injEq] at h
          obtain ⟨rfl, rfl⟩ := h
          obtain ⟨hn, hb⟩ := ih hs
          exact ⟨by rw [List.length_cons, hn], by rw [hb, List.cons_append]⟩
  · rintro ⟨rfl, rfl⟩
    exact split?_append first rest

/-! ### Words -/

theorem length_littleEndian : ∀ (width n : Nat), (littleEndian width n).length = width
  | 0, _ => rfl
  | width + 1, n => by rw [littleEndian, List.length_cons, length_littleEndian]

theorem ofLittleEndian_lt : ∀ bytes : List UInt8, ofLittleEndian bytes < 256 ^ bytes.length
  | [] => by simp [ofLittleEndian]
  | byte :: rest => by
    have hb := byte.toNat_lt
    have hr := ofLittleEndian_lt rest
    rw [ofLittleEndian, List.length_cons, Nat.pow_succ]
    omega

theorem ofLittleEndian_littleEndian : ∀ (width n : Nat),
    ofLittleEndian (littleEndian width n) = n % 256 ^ width
  | 0, n => by simp [littleEndian, ofLittleEndian, Nat.mod_one]
  | width + 1, n => by
    have hb : (UInt8.ofNat (n % 256)).toNat = n % 256 := by simp
    rw [littleEndian, ofLittleEndian, hb, ofLittleEndian_littleEndian width, Nat.pow_succ',
      Nat.mod_mul]

theorem littleEndian_ofLittleEndian : ∀ bytes : List UInt8,
    littleEndian bytes.length (ofLittleEndian bytes) = bytes
  | [] => rfl
  | byte :: rest => by
    have hb := byte.toNat_lt
    have hlow : (byte.toNat + 256 * ofLittleEndian rest) % 256 = byte.toNat := by omega
    have hhigh : (byte.toNat + 256 * ofLittleEndian rest) / 256 = ofLittleEndian rest := by omega
    rw [List.length_cons, ofLittleEndian, littleEndian, hlow, hhigh,
      littleEndian_ofLittleEndian rest, UInt8.ofNat_toNat]

@[simp] theorem length_bigEndian (width n : Nat) : (bigEndian width n).length = width := by
  rw [bigEndian, List.length_reverse, length_littleEndian]

/-- A number that fits is read back from its bytes. -/
theorem ofBigEndian_bigEndian {width n : Nat} (h : n < 256 ^ width) :
    ofBigEndian (bigEndian width n) = n := by
  rw [ofBigEndian, bigEndian, List.reverse_reverse, ofLittleEndian_littleEndian,
    Nat.mod_eq_of_lt h]

theorem bigEndian_ofBigEndian (bytes : List UInt8) :
    bigEndian bytes.length (ofBigEndian bytes) = bytes := by
  rw [bigEndian, ofBigEndian, ← List.length_reverse, littleEndian_ofLittleEndian,
    List.reverse_reverse]

theorem ofBigEndian_lt (bytes : List UInt8) : ofBigEndian bytes < 256 ^ bytes.length := by
  rw [ofBigEndian, ← List.length_reverse]
  exact ofLittleEndian_lt _

/-- Eight bytes are those of the word that they make. -/
theorem bigEndian_ofNat_ofBigEndian {bytes : List UInt8} (h : bytes.length = 8) :
    bigEndian 8 (UInt64.ofNat (ofBigEndian bytes)).toNat = bytes := by
  have hlt := ofBigEndian_lt bytes
  have hbytes := bigEndian_ofBigEndian bytes
  rw [h] at hlt hbytes
  rw [UInt64.toNat_ofNat_of_lt' hlt, hbytes]

/-- A word is the one that its eight bytes make. -/
theorem ofNat_ofBigEndian_bigEndian (x : UInt64) :
    UInt64.ofNat (ofBigEndian (bigEndian 8 x.toNat)) = x := by
  rw [ofBigEndian_bigEndian x.toNat_lt, UInt64.ofNat_toNat]

end Bytes

end GraphQuery
