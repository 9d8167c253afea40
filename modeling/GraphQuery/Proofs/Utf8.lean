import GraphQuery.Text.Utf8

/-!
# Texts and their bytes

A text is determined by its UTF-8 bytes and valid bytes by their text, and texts have the order of
their bytes: the order of entries by their keys is the one in which the keys are written.

## Main results

* `Utf8.decode_eq_ok`: valid bytes are those of a text.
* `Utf8.encode_lt_encode_iff`: texts are ordered like their bytes.
-/

namespace GraphQuery

namespace Utf8

theorem decode_encode (text : String) : decode (encode text) = .ok text := by
  have hvalid : String.fromUTF8? text.toByteArray = some text := by
    rw [String.fromUTF8?, dif_pos text.isValidUTF8]
    rfl
  rw [decode, encode, Array.toArray_toList, hvalid]

/-- Bytes are read as a text exactly if they are the bytes of this text. -/
theorem decode_eq_ok {bytes : List UInt8} {text : String} :
    decode bytes = .ok text ↔ bytes = encode text := by
  constructor
  · intro h
    rw [decode] at h
    split at h
    · rename_i found hfound
      obtain rfl := Except.ok.inj h
      rw [String.fromUTF8?] at hfound
      split at hfound
      · obtain rfl := Option.some.inj hfound
        simp [encode, String.fromUTF8]
      · exact nomatch hfound
    · exact nomatch h
  · rintro rfl
    exact decode_encode text

/-! ### Order -/

theorem encode_eq_flatMap (text : String) :
    encode text = text.toList.flatMap String.utf8EncodeChar := by
  rw [encode, ← String.utf8Encode_toList, List.utf8Encode, List.data_toByteArray]

/-- Numbers of four digits to the base 64 are ordered by their digits. -/
theorem digits_lt {m n : Nat} (h : m < n) (P : Prop) :
    m / 262144 < n / 262144 ∨ m / 262144 = n / 262144 ∧ (m / 4096 % 64 < n / 4096 % 64 ∨
      m / 4096 % 64 = n / 4096 % 64 ∧ (m / 64 % 64 < n / 64 % 64 ∨ m / 64 % 64 = n / 64 % 64 ∧
        (m % 64 < n % 64 ∨ m % 64 = n % 64 ∧ P))) := by
  have hm : m = ((m / 262144 * 64 + m / 4096 % 64) * 64 + m / 64 % 64) * 64 + m % 64 := by omega
  have hn : n = ((n / 262144 * 64 + n / 4096 % 64) * 64 + n / 64 % 64) * 64 + n % 64 := by omega
  have hbound (k : Nat) : k % 64 < 64 := Nat.mod_lt k (by omega)
  have h₁ := hbound m
  have h₂ := hbound (m / 64)
  have h₃ := hbound (m / 4096)
  -- the digits are numbers of their own from here on
  generalize m / 262144 = a, m / 4096 % 64 = b, m / 64 % 64 = c, m % 64 = d at *
  have h₄ := hbound n
  have h₅ := hbound (n / 64)
  have h₆ := hbound (n / 4096)
  generalize n / 262144 = a', n / 4096 % 64 = b', n / 64 % 64 = c', n % 64 = d' at *
  omega

theorem cons_ofNat_lt {m n k : Nat} {s t : List UInt8} (hm : m + k < 256) (hn : n + k < 256)
    (h : m < n ∨ m = n ∧ s < t) : UInt8.ofNat (m + k) :: s < UInt8.ofNat (n + k) :: t := by
  rw [List.cons_lt_cons_iff, UInt8.lt_iff_toNat_lt, UInt8.toNat_ofNat_of_lt' hm,
    UInt8.toNat_ofNat_of_lt' hn]
  rcases h with hlt | ⟨rfl, hlt⟩
  · exact .inl (Nat.add_lt_add_right hlt k)
  · exact .inr ⟨rfl, hlt⟩

/-- The bytes of the lesser of two characters are less, whatever follows. -/
theorem encodeChar_append_lt {c d : Char} (h : c < d) (s t : List UInt8) :
    String.utf8EncodeChar c ++ s < String.utf8EncodeChar d ++ t := by
  have hlt : c.val.toNat < d.val.toNat := h
  have hd : d.val.toNat < 0x110000 := by
    have hvalid := d.valid
    simp only [UInt32.isValidChar, Nat.isValidChar] at hvalid
    omega
  simp only [String.utf8EncodeChar]
  generalize c.val.toNat = m, d.val.toNat = n at *
  by_cases hfour : 65535 < m
  · -- both characters take four bytes
    obtain ⟨hm₁, hm₂, hm₃⟩ : ¬m ≤ 127 ∧ ¬m ≤ 2047 ∧ ¬m ≤ 65535 := by omega
    obtain ⟨hn₁, hn₂, hn₃⟩ : ¬n ≤ 127 ∧ ¬n ≤ 2047 ∧ ¬n ≤ 65535 := by omega
    have hm : m / 262144 % 8 = m / 262144 := by omega
    have hn : n / 262144 % 8 = n / 262144 := by omega
    simp only [hm₁, hm₂, hm₃, hn₁, hn₂, hn₃, hm, hn, if_false, List.cons_append, List.nil_append]
    refine cons_ofNat_lt (by omega) (by omega) ((digits_lt hlt (s < t)).imp_right fun h₁ => ⟨h₁.1, ?_⟩)
    refine cons_ofNat_lt (by omega) (by omega) (h₁.2.imp_right fun h₂ => ⟨h₂.1, ?_⟩)
    refine cons_ofNat_lt (by omega) (by omega) (h₂.2.imp_right fun h₃ => ⟨h₃.1, ?_⟩)
    exact cons_ofNat_lt (by omega) (by omega) h₃.2
  · -- the first character takes at most three bytes, and a shorter one has a lesser first byte
    repeat' split
    all_goals
      try omega
    all_goals
      simp only [List.cons_append, List.nil_append, List.cons_lt_cons_iff, UInt8.lt_iff_toNat_lt,
        ← UInt8.toNat_inj, UInt8.toNat_ofNat']
      omega

theorem flatMap_encodeChar_lt : ∀ {s t : List Char}, s < t →
    s.flatMap String.utf8EncodeChar < t.flatMap String.utf8EncodeChar
  | [], [], h => absurd h (List.lt_irrefl [])
  | [], d :: t, _ => by
    rw [List.flatMap_nil, List.flatMap_cons]
    cases hd : String.utf8EncodeChar d with
    | nil => exact absurd hd String.utf8EncodeChar_ne_nil
    | cons byte rest => exact List.nil_lt_cons _ _
  | c :: s, [], h => absurd h (List.not_lt_nil _)
  | c :: s, d :: t, h => by
    rw [List.flatMap_cons, List.flatMap_cons]
    rcases List.cons_lt_cons_iff.1 h with hlt | ⟨rfl, hlt⟩
    · exact encodeChar_append_lt hlt _ _
    · exact List.append_left_lt (flatMap_encodeChar_lt hlt)

theorem encode_lt_encode {s t : String} (h : s < t) : encode s < encode t := by
  rw [encode_eq_flatMap, encode_eq_flatMap]
  exact flatMap_encodeChar_lt h

/-- Texts are ordered like their bytes. -/
theorem encode_lt_encode_iff {s t : String} : encode s < encode t ↔ s < t := by
  refine ⟨fun h => Decidable.byContradiction fun hst => ?_, encode_lt_encode⟩
  by_cases hts : t < s
  · exact List.lt_asymm h (encode_lt_encode hts)
  · obtain rfl : s = t := Std.Trichotomous.trichotomous (r := (· < ·)) s t hst hts
    exact List.lt_irrefl _ h

end Utf8

end GraphQuery
