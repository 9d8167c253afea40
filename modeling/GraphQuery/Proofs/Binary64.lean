import GraphQuery.Binary64.Basic

/-!
# Rounding and comparison of binary64 numbers

Numeric comparison is the comparison of signed magnitudes, wherever there is no NaN. Rounding keeps
the order: within one step of the exponent because a quotient does, and from one step to a later
one because a significand that is rounded up carries into the next exponent and no further.

## Main results

* `Binary64.compare?_eq_some_iff`: comparison as comparison of signed magnitudes.
* `Binary64.roundUnits_mono`: a greater quotient is not rounded to a lesser magnitude.
* `Binary64.signedMagnitude_ofInt_mono`: a greater integer is not rounded to a lesser number.
* `Binary64.signedMagnitude_ofInt_lt`: up to `2 ^ 53` in magnitude different integers stay apart.
-/

namespace GraphQuery

namespace Binary64

/-! ### Comparison -/

theorem compare?_eq_some_iff {x y : Binary64} {o : Ordering} :
    x.compare? y = some o ↔
      x.isNaN = false ∧ y.isNaN = false ∧ compare x.signedMagnitude y.signedMagnitude = o := by
  cases hx : x.isNaN <;> cases hy : y.isNaN <;> simp [compare?, hx, hy]

theorem compare?_eq_none_iff {x y : Binary64} :
    x.compare? y = none ↔ (x.isNaN || y.isNaN) = true := by
  rw [compare?]
  split <;> simp [*]

theorem numericEq_iff {x y : Binary64} :
    x.numericEq y = true ↔
      x.isNaN = false ∧ y.isNaN = false ∧ x.signedMagnitude = y.signedMagnitude := by
  rw [numericEq, beq_iff_eq, compare?_eq_some_iff, Int.compare_eq_eq]

/-- Comparison the other way round. -/
theorem compare?_swap (x y : Binary64) : y.compare? x = (x.compare? y).map Ordering.swap := by
  have hswap : compare y.signedMagnitude x.signedMagnitude =
      (compare x.signedMagnitude y.signedMagnitude).swap := Std.OrientedOrd.eq_swap
  cases hx : x.isNaN <;> cases hy : y.isNaN <;> simp [compare?, hx, hy, hswap]

theorem numericEq_comm (x y : Binary64) : x.numericEq y = y.numericEq x := by
  rw [Bool.eq_iff_iff, numericEq_iff, numericEq_iff]
  exact ⟨fun ⟨hx, hy, h⟩ => ⟨hy, hx, h.symm⟩, fun ⟨hy, hx, h⟩ => ⟨hx, hy, h.symm⟩⟩

theorem numericEq_trans {x y z : Binary64} (hxy : x.numericEq y = true)
    (hyz : y.numericEq z = true) : x.numericEq z = true := by
  obtain ⟨hx, -, hxy⟩ := numericEq_iff.1 hxy
  obtain ⟨-, hz, hyz⟩ := numericEq_iff.1 hyz
  exact numericEq_iff.2 ⟨hx, hz, hxy.trans hyz⟩

/-! ### Rounding -/

theorem div_le_roundHalfEven (num den : Nat) : num / den ≤ roundHalfEven num den := by
  simp only [roundHalfEven]
  split
  · exact Nat.le_refl _
  · split <;> omega

theorem roundHalfEven_le (num den : Nat) : roundHalfEven num den ≤ num / den + 1 := by
  simp only [roundHalfEven]
  split
  · omega
  · split <;> omega

theorem roundHalfEven_mono {m n : Nat} (h : m ≤ n) (den : Nat) :
    roundHalfEven m den ≤ roundHalfEven n den := by
  rcases Nat.lt_or_eq_of_le (Nat.div_le_div_right h : m / den ≤ n / den) with hlt | heq
  · have hm := roundHalfEven_le m den
    have hn := div_le_roundHalfEven n den
    omega
  · -- with the same quotient the remainders are in the order of the numerators
    have hm := Nat.div_add_mod m den
    have hn := Nat.div_add_mod n den
    have hmod : m % den ≤ n % den := by rw [heq] at hm; omega
    simp only [roundHalfEven, heq]
    repeat' split
    all_goals omega

theorem roundUnits_le (num den : Nat) : roundUnits num den ≤ infinityMagnitude :=
  Nat.min_le_right _ _

theorem log2_mono {m n : Nat} (h : m ≤ n) : m.log2 ≤ n.log2 := by
  rcases Nat.eq_zero_or_pos m with rfl | hm
  · exact Nat.zero_le _
  · exact (Nat.le_log2 (by omega)).2 (Nat.le_trans (Nat.log2_self_le (by omega)) h)

theorem div_lt_of_log2 {n shift : Nat} (h : n.log2 ≤ shift + 52) :
    n / Nat.pow 2 shift < 2 * binadeSize := by
  have hlt : n < 2 ^ (53 + shift) :=
    Nat.lt_of_lt_of_le Nat.lt_log2_self (Nat.pow_le_pow_right (by decide) (by omega))
  rw [Nat.pow_eq]
  refine Nat.div_lt_of_lt_mul ?_
  rwa [Nat.mul_comm, show 2 * binadeSize = 2 ^ 53 from rfl, ← Nat.pow_add]

theorem le_div_of_log2 {n shift : Nat} (h : shift + 52 ≤ n.log2) :
    binadeSize ≤ n / Nat.pow 2 shift := by
  have hpos : n ≠ 0 := by
    rintro rfl
    rw [Nat.log2_zero] at h
    omega
  rw [Nat.pow_eq, Nat.le_div_iff_mul_le (Nat.two_pow_pos shift),
    show binadeSize = 2 ^ 52 from rfl, ← Nat.pow_add, Nat.add_comm]
  exact (Nat.le_log2 hpos).1 h

/-- A quotient of at most `shift + 53` bits is rounded to at most 53 bits, or to the next power
of two. -/
theorem roundHalfEven_le_of_log2 {num den shift : Nat} (h : (num / den).log2 ≤ shift + 52) :
    roundHalfEven num (den * Nat.pow 2 shift) ≤ 2 * binadeSize := by
  refine Nat.le_trans (roundHalfEven_le _ _) ?_
  rw [← Nat.div_div_eq_div_mul]
  exact div_lt_of_log2 h

/-- A quotient of at least `shift + 53` bits is rounded to at least 53 bits. -/
theorem le_roundHalfEven_of_log2 {num den shift : Nat} (h : shift + 52 ≤ (num / den).log2) :
    binadeSize ≤ roundHalfEven num (den * Nat.pow 2 shift) := by
  refine Nat.le_trans ?_ (div_le_roundHalfEven _ _)
  rw [← Nat.div_div_eq_div_mul]
  exact le_div_of_log2 h

/-- A greater quotient is not rounded to a lesser magnitude. -/
theorem roundUnits_mono {m n : Nat} (h : m ≤ n) (den : Nat) :
    roundUnits m den ≤ roundUnits n den := by
  have hlog : (m / den).log2 ≤ (n / den).log2 := log2_mono (Nat.div_le_div_right h)
  simp only [roundUnits]
  refine Nat.le_min.2 ⟨Nat.le_trans (Nat.min_le_left _ _) ?_, Nat.min_le_right _ _⟩
  rcases Nat.lt_or_eq_of_le (Nat.sub_le_sub_right hlog 52) with hlt | heq
  · -- the lesser quotient may be carried into the next exponent, the greater one begins there
    have hm : roundHalfEven m (den * Nat.pow 2 ((m / den).log2 - 52)) ≤ 2 * binadeSize :=
      roundHalfEven_le_of_log2 (by omega)
    have hn : binadeSize ≤ roundHalfEven n (den * Nat.pow 2 ((n / den).log2 - 52)) :=
      le_roundHalfEven_of_log2 (by omega)
    have hstep := Nat.mul_le_mul_right binadeSize (Nat.succ_le_of_lt hlt)
    rw [Nat.succ_mul] at hstep
    omega
  · rw [heq]
    exact Nat.add_le_add_left (roundHalfEven_mono h _) _

/-! ### Numbers of 53 bits -/

/-- A quotient without remainder is not rounded. -/
theorem roundHalfEven_of_dvd {num den : Nat} (h : den ∣ num) :
    roundHalfEven num den = num / den := by
  rw [roundHalfEven, Nat.mod_eq_zero_of_dvd h]
  rcases Nat.eq_zero_or_pos den with rfl | hpos
  · simp
  · simp [hpos]

section Exact

variable {m n k : Nat}

/-- A number of 53 bits, or the next power of two, with `k` zeros after it: the exponent takes at
most one step more than there are zeros, and the number is divisible by as many powers of two. -/
theorem shift_le_and_dvd (h : n ≤ 2 * binadeSize) :
    (n * Nat.pow 2 k).log2 - 52 ≤ k + 1 ∧
      Nat.pow 2 ((n * Nat.pow 2 k).log2 - 52) ∣ n * Nat.pow 2 k := by
  rw [show 2 * binadeSize = 2 ^ 53 from rfl] at h
  rw [Nat.pow_eq, Nat.pow_eq]
  rcases Nat.lt_or_eq_of_le h with hlt | rfl
  · have hlog : (n * 2 ^ k).log2 - 52 ≤ k := by
      rcases Nat.eq_zero_or_pos n with rfl | hpos
      · rw [Nat.zero_mul, Nat.log2_zero]
        omega
      · have hlog : (n * 2 ^ k).log2 < 53 + k := by
          rw [Nat.log2_lt (Nat.ne_of_gt (Nat.mul_pos hpos (Nat.two_pow_pos _))), Nat.pow_add]
          exact Nat.mul_lt_mul_of_pos_right hlt (Nat.two_pow_pos _)
        omega
    exact ⟨Nat.le_succ_of_le hlog, Nat.dvd_mul_left_of_dvd (Nat.pow_dvd_pow 2 hlog) n⟩
  · rw [← Nat.pow_add, Nat.log2_two_pow]
    exact ⟨by omega, Nat.pow_dvd_pow 2 (by omega)⟩

/-- Such a number is not rounded. -/
theorem roundUnits_of_le (h : n ≤ 2 * binadeSize) (hk : k ≤ 2000) :
    roundUnits (n * Nat.pow 2 k) 1 = ((n * Nat.pow 2 k).log2 - 52) * binadeSize +
      n * Nat.pow 2 k / Nat.pow 2 ((n * Nat.pow 2 k).log2 - 52) := by
  obtain ⟨hshift, hdvd⟩ := shift_le_and_dvd (k := k) h
  have hquotient : n * Nat.pow 2 k / Nat.pow 2 ((n * Nat.pow 2 k).log2 - 52) < 2 * binadeSize :=
    div_lt_of_log2 (by omega)
  have hsteps := Nat.mul_le_mul_right binadeSize (Nat.le_trans hshift (Nat.succ_le_succ hk))
  simp only [roundUnits, Nat.div_one, Nat.one_mul, roundHalfEven_of_dvd hdvd]
  refine Nat.min_eq_left ?_
  simp only [infinityMagnitude]
  omega

/-- Such a number has a greater magnitude than a lesser one. -/
theorem roundUnits_lt (h : m < n) (hn : n ≤ 2 * binadeSize) (hk : k ≤ 2000) :
    roundUnits (m * Nat.pow 2 k) 1 < roundUnits (n * Nat.pow 2 k) 1 := by
  have hunits : m * Nat.pow 2 k < n * Nat.pow 2 k :=
    Nat.mul_lt_mul_of_pos_right h (Nat.two_pow_pos k)
  have hlog := log2_mono (Nat.le_of_lt hunits)
  rw [roundUnits_of_le hn hk, roundUnits_of_le (Nat.le_trans (Nat.le_of_lt h) hn) hk]
  rcases Nat.lt_or_eq_of_le (Nat.sub_le_sub_right hlog 52) with hlt | heq
  · have hm : m * Nat.pow 2 k / Nat.pow 2 ((m * Nat.pow 2 k).log2 - 52) < 2 * binadeSize :=
      div_lt_of_log2 (by omega)
    have hn : binadeSize ≤ n * Nat.pow 2 k / Nat.pow 2 ((n * Nat.pow 2 k).log2 - 52) :=
      le_div_of_log2 (by omega)
    have hsteps := Nat.mul_le_mul_right binadeSize (Nat.succ_le_of_lt hlt)
    rw [Nat.succ_mul] at hsteps
    omega
  · rw [heq]
    exact Nat.add_lt_add_left (Nat.div_lt_div_of_lt_of_dvd (shift_le_and_dvd hn).2 hunits) _

end Exact

/-! ### Integers -/

/-- The word of a magnitude below that of the NaNs and of a sign. -/
theorem toNat_ofSignMagnitude {m : Nat} (h : m ≤ infinityMagnitude) (negative : Bool) :
    (ofSignMagnitude negative m).bits.toNat = (if negative then signBit else 0) + m := by
  have hlt : (if negative then signBit else 0) + m < 2 ^ 64 := by
    simp only [infinityMagnitude, binadeSize] at h
    simp only [signBit]
    split <;> omega
  exact UInt64.toNat_ofNat_of_lt hlt

theorem magnitude_ofSignMagnitude {m : Nat} (h : m ≤ infinityMagnitude) (negative : Bool) :
    (ofSignMagnitude negative m).magnitude = m := by
  rw [magnitude, toNat_ofSignMagnitude h]
  simp only [infinityMagnitude, binadeSize] at h
  simp only [signBit]
  split <;> omega

theorem isNegative_ofSignMagnitude {m : Nat} (h : m ≤ infinityMagnitude) (negative : Bool) :
    (ofSignMagnitude negative m).isNegative = negative := by
  rw [isNegative, toNat_ofSignMagnitude h]
  simp only [infinityMagnitude, binadeSize] at h
  cases negative with
  | false => exact decide_eq_false (by simp only [signBit, Bool.false_eq_true, if_false]; omega)
  | true => exact decide_eq_true (Nat.le_add_right _ _)

/-- An integer is no NaN. -/
theorem isNaN_ofInt (n : Int) : (ofInt n).isNaN = false := by
  rw [isNaN, ofInt, magnitude_ofSignMagnitude (roundUnits_le _ _)]
  exact decide_eq_false (Nat.not_lt.2 (roundUnits_le _ _))

theorem signedMagnitude_ofInt (n : Int) :
    (ofInt n).signedMagnitude =
      if n < 0 then -(roundUnits (n.natAbs * unitsPerOne) 1 : Int)
      else roundUnits (n.natAbs * unitsPerOne) 1 := by
  simp only [signedMagnitude, ofInt, isNegative_ofSignMagnitude (roundUnits_le _ _),
    magnitude_ofSignMagnitude (roundUnits_le _ _), decide_eq_true_eq]

/-- A greater integer is not rounded to a lesser number. -/
theorem signedMagnitude_ofInt_mono {m n : Int} (h : m ≤ n) :
    (ofInt m).signedMagnitude ≤ (ofInt n).signedMagnitude := by
  have hmono {a b : Nat} (h : a ≤ b) :
      roundUnits (a * unitsPerOne) 1 ≤ roundUnits (b * unitsPerOne) 1 :=
    roundUnits_mono (Nat.mul_le_mul_right _ h) 1
  rw [signedMagnitude_ofInt, signedMagnitude_ofInt]
  split
  · split
    · have hrounded := hmono (a := n.natAbs) (b := m.natAbs) (by omega)
      omega
    · omega
  · have hrounded := hmono (a := m.natAbs) (b := n.natAbs) (by omega)
    rw [if_neg (by omega)]
    omega

/-- Up to `2 ^ 53` in magnitude a greater integer is a greater number. -/
theorem signedMagnitude_ofInt_lt {m n : Int} (h : m < n) (hm : m.natAbs ≤ 2 * binadeSize)
    (hn : n.natAbs ≤ 2 * binadeSize) : (ofInt m).signedMagnitude < (ofInt n).signedMagnitude := by
  have hlt {a b : Nat} (h : a < b) (hb : b ≤ 2 * binadeSize) :
      roundUnits (a * unitsPerOne) 1 < roundUnits (b * unitsPerOne) 1 := by
    obtain ⟨k, hk, hone⟩ : ∃ k ≤ 2000, unitsPerOne = Nat.pow 2 k := ⟨1074, by decide +kernel⟩
    rw [hone]
    exact roundUnits_lt h hb hk
  rw [signedMagnitude_ofInt, signedMagnitude_ofInt]
  split
  · have hrounded := hlt (a := 0) (b := m.natAbs) (by omega) hm
    split
    · have hrounded := hlt (a := n.natAbs) (b := m.natAbs) (by omega) hm
      omega
    · omega
  · have hrounded := hlt (a := m.natAbs) (b := n.natAbs) (by omega) hn
    rw [if_neg (by omega)]
    omega

end Binary64

end GraphQuery
