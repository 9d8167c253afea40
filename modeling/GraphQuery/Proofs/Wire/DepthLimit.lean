import GraphQuery.Proofs.Wire.Congruence

/-!
# The limit on the nesting

The limit does nothing but cut off: under a greater one, bytes are read as before, unless the limit
was what stopped the reading. And it does not stop the reading of bytes that are no more than the
levels allowed. For a byte is read before each level is entered, the version before the first one
and a tag before every other one; so while there are fewer bytes left than levels that may still be
entered, this stays so, and on the last level nothing is left that could ask for another.

## Main definitions

* `Wire.Shallow`: fewer bytes than levels are left, and no level is one too many.

## Main results

* `Wire.shallow_root`: what is read of no more bytes than levels.
* `Wire.reason_eq_tooDeep_iff`: the text of the error tells that the limit was exceeded.
* `Wire.decode_limit_only_cuts`: decoding under two limits, and under one that bytes cannot exceed.
-/

namespace GraphQuery

namespace Wire

variable {α β : Type} {bound depth limit : Nat}

/-! ### Readers with fewer bytes than levels -/

/-- No level was one too many; and after a result the level is a given one, and no more bytes are
left than there were. -/
def WithinLevels (depth left : Nat) : Except DecodeError (α × Cursor) → Prop
  | .ok (_, c) => c.depth = depth ∧ c.bytes.length ≤ left
  | .error e => ∀ limit, e ≠ .malformed (.tooDeep limit)

theorem WithinLevels.mono {left left' : Nat} {outcome : Except DecodeError (α × Cursor)}
    (h : WithinLevels depth left outcome) (hle : left ≤ left') :
    WithinLevels depth left' outcome := by
  cases outcome with
  | ok result => exact ⟨h.1, Nat.le_trans h.2 hle⟩
  | error e => exact h

/-- A reader at some level finds no level too many, if the bytes that are left and the levels that
were entered are together fewer than a bound. -/
def Shallow (bound depth : Nat) (reader : PartReader α) : Prop :=
  ∀ bytes, bytes.length + depth < bound → WithinLevels depth bytes.length (reader ⟨bytes, depth⟩)

theorem shallow_of_yields {reader : PartReader α} {post : α → List UInt8 → Prop}
    (h : Yields depth reader post)
    (herror : ∀ bytes e, reader ⟨bytes, depth⟩ = .error e →
      ∀ limit, e ≠ .malformed (.tooDeep limit)) :
    Shallow bound depth reader := by
  intro bytes _
  cases hrun : reader ⟨bytes, depth⟩ with
  | error e => exact herror bytes e hrun
  | ok result =>
      obtain ⟨w, hbytes, hdepth, -⟩ := h hrun
      refine ⟨hdepth, ?_⟩
      rw [hbytes, List.length_append]
      exact Nat.le_add_left _ _

theorem shallow_pure (a : α) : Shallow bound depth (pure a) := fun _ _ => ⟨rfl, Nat.le_refl _⟩

theorem Shallow.bind {reader : PartReader α} {next : α → PartReader β}
    (h : Shallow bound depth reader) (hnext : ∀ a, Shallow bound depth (next a)) :
    Shallow bound depth (reader >>= next) := by
  intro bytes hlt
  have hfirst := h bytes hlt
  rw [run_bind]
  cases hrun : reader ⟨bytes, depth⟩ with
  | error e =>
      rw [hrun] at hfirst
      exact hfirst
  | ok result =>
      rw [hrun] at hfirst
      obtain ⟨a, rest, depth'⟩ := result
      obtain ⟨hdepth, hle⟩ := hfirst
      obtain rfl : depth' = depth := hdepth
      have hrest : rest.length + depth' < bound :=
        Nat.lt_of_le_of_lt (Nat.add_le_add_right hle _) hlt
      exact (hnext a rest hrest).mono hle

theorem shallow_throw {e : DecodeError} (h : ∀ limit, e ≠ .malformed (.tooDeep limit)) :
    Shallow bound depth (throw e : PartReader α) :=
  fun _ _ => h

theorem shallow_needBytes (field : Field) (n : Nat) :
    Shallow bound depth (needBytes field n) := by
  refine shallow_of_yields (yields_needBytes field n) fun bytes e herror => ?_
  rw [needBytes] at herror
  split at herror
  · cases herror
  · cases herror
    exact IsContentFault.ne_tooDeep trivial

theorem shallow_advanceByte : Shallow bound depth advanceByte := by
  refine shallow_of_yields yields_advanceByte fun bytes e herror => ?_
  rw [advanceByte] at herror
  split at herror <;> cases herror
  rintro limit ⟨⟩

theorem shallow_advance (n : Nat) : Shallow bound depth (advance n) := by
  refine shallow_of_yields (yields_advance n) fun bytes e herror => ?_
  rw [advance] at herror
  split at herror <;> cases herror
  rintro limit ⟨⟩

theorem congruence_shallow (bound depth : Nat) :
    Congruence fun _ reader _ => Shallow bound depth reader where
  pure := shallow_pure
  bind := Shallow.bind
  throw h := shallow_throw h.ne_tooDeep
  needBytes := shallow_needBytes
  byte := (shallow_needBytes _ _).bind fun _ => shallow_advanceByte
  bytes field n := (shallow_needBytes field n).bind fun _ => shallow_advance n

/-- A byte that was read makes room for a level. -/
theorem shallow_byte_bind {next : UInt8 → PartReader α}
    (hnext : ∀ byte, Shallow bound depth (next byte)) :
    Shallow (bound + 1) depth (readByte >>= next) := by
  intro bytes hlt
  cases bytes with
  | nil => exact IsContentFault.ne_tooDeep (e := .malformed (.truncated .byte 1 0)) trivial
  | cons byte rest =>
      have hrest : rest.length + depth < bound := by
        rw [List.length_cons] at hlt
        omega
      exact (hnext byte rest hrest).mono (Nat.le_succ _)

/-- Behind the byte that a value begins with there is room for what is nested in it. -/
theorem Shallow.value {nested : PartReader Value} (h : Shallow bound depth nested) :
    Shallow (bound + 1) depth (readValue nested) :=
  @Congruence.value_of_byte _ (congruence_shallow bound depth)
    (fun reader _ => Shallow (bound + 1) depth reader) shallow_byte_bind nested nested h

theorem Shallow.expr {value : PartReader Value} {nested : PartReader Expr}
    (hvalue : Shallow bound depth value) (hnested : Shallow bound depth nested) :
    Shallow (bound + 1) depth (readExpr value nested) :=
  @Congruence.expr_of_byte _ (congruence_shallow bound depth)
    (fun reader _ => Shallow (bound + 1) depth reader) shallow_byte_bind value value nested nested
    hvalue hnested

/-! ### Levels -/

/-- While there are fewer bytes than levels left, another level may be entered. -/
theorem Shallow.inside {reader : PartReader α} (h : Shallow (limit + 1) (depth + 1) reader) :
    Shallow limit depth (readInside limit reader) := by
  intro bytes hlt
  have hinside := h bytes (by omega)
  rw [readInside_of_lt (by omega), run_bind]
  cases hrun : reader ⟨bytes, depth + 1⟩ with
  | error e =>
      rw [hrun] at hinside
      exact hinside
  | ok result =>
      rw [hrun] at hinside
      obtain ⟨a, rest, depth'⟩ := result
      obtain ⟨hdepth, hle⟩ := hinside
      obtain rfl : depth' = depth + 1 := hdepth
      exact ⟨rfl, hle⟩

theorem shallow_valueReader {levels : Nat} (h : depth + levels = limit) :
    Shallow limit depth (valueReader limit levels) := by
  induction levels generalizing depth with
  | zero =>
      intro bytes hlt
      omega
  | succ levels ih =>
      have hnested : Shallow limit (depth + 1) (valueReader limit levels) := ih (by omega)
      exact hnested.value.inside

theorem shallow_exprReader {levels : Nat} (h : depth + levels = limit) :
    Shallow limit depth (exprReader limit levels) := by
  induction levels generalizing depth with
  | zero =>
      intro bytes hlt
      omega
  | succ levels ih =>
      have hvalue : Shallow limit (depth + 1) (valueReader limit levels) :=
        shallow_valueReader (by omega)
      have hnested : Shallow limit (depth + 1) (exprReader limit levels) := ih (by omega)
      exact (hvalue.expr hnested).inside

/-- What is read of no more bytes than levels. -/
theorem shallow_root (limit : Nat) : Shallow (limit + 1) 0 (readRoot limit) := by
  refine shallow_byte_bind fun byte => ?_
  split
  · exact shallow_exprReader (Nat.zero_add limit)
  · exact shallow_throw (IsContentFault.ne_tooDeep trivial)

/-- Bytes that are no more than the levels allowed do not exceed the limit. -/
theorem decode_ne_tooDeep {bytes : List UInt8} (h : bytes.length ≤ limit) (limit' : Nat) :
    decode limit bytes ≠ .error (.malformed (.tooDeep limit')) := by
  have hroot := shallow_root limit bytes (Nat.lt_succ_of_le h)
  rw [decode]
  split
  · rename_i e hrun
    rw [hrun] at hroot
    exact fun he => hroot limit' (Except.error.inj he)
  · rintro ⟨⟩
  · rintro ⟨⟩

/-! ### The text of the error -/

theorem head?_append {s : String} {c : Char} (h : s.toList.head? = some c) (t : String) :
    (s ++ t).toList.head? = some c := by
  rw [String.toList_append, List.head?_append, h, Option.some_or]

theorem exists_head?_repr (n : Nat) : ∃ c, n.repr.toList.head? = some c ∧ c.isDigit = true := by
  obtain ⟨c, rest, hdigits⟩ := List.exists_cons_of_ne_nil (Nat.toDigits_ne_nil (n := n) (b := 10))
  refine ⟨c, ?_, Nat.isDigit_of_mem_toDigits (by omega) (by omega) (hdigits ▸ List.mem_cons_self)⟩
  rw [Nat.repr_eq_ofList_toDigits, String.toList_ofList, hdigits, List.head?_cons]

theorem eq_of_repr_eq {m n : Nat} (h : m.repr = n.repr) : m = n := by
  rw [Nat.repr_eq_ofList_toDigits, Nat.repr_eq_ofList_toDigits, String.ofList_inj] at h
  rw [← Nat.ofDigitChars_ten_toDigits (n := m), h, Nat.ofDigitChars_ten_toDigits]

/-- The text of a fault begins with another letter, unless a limit was exceeded. -/
theorem exists_head?_reason {fault : Fault} (h : ∀ limit, fault ≠ .tooDeep limit) :
    ∃ c, fault.reason.toList.head? = some c ∧ c ≠ 'n' := by
  cases fault with
  | truncated => exact ⟨'t', head?_append (head?_append rfl _) _, by decide⟩
  | badText | badPresence => exact ⟨'i', head?_append rfl _, by decide⟩
  | unknownSymbol => exact ⟨'u', head?_append (head?_append rfl _) _, by decide⟩
  | unknownType => exact ⟨'U', head?_append rfl _, by decide⟩
  | unknownVersion => exact ⟨'u', head?_append rfl _, by decide⟩
  | tooDeep limit => exact absurd rfl (h limit)
  | trailing count =>
      obtain ⟨c, hc, hdigit⟩ := exists_head?_repr count
      refine ⟨c, head?_append hc _, ?_⟩
      rintro rfl
      cases hdigit

/-- The text of a fault tells whether a limit was exceeded, and which one. -/
theorem reason_eq_tooDeep_iff {fault : Fault} :
    fault.reason = s!"nesting exceeds maximum depth {limit}" ↔ fault = .tooDeep limit := by
  constructor
  · intro heq
    have hhead : fault.reason.toList.head? = some 'n' := heq ▸ head?_append rfl _
    by_cases hdeep : ∃ limit', fault = .tooDeep limit'
    · obtain ⟨limit', rfl⟩ := hdeep
      rw [eq_of_repr_eq ((String.append_right_inj _).1 heq)]
    · obtain ⟨c, hc, hne⟩ := exists_head?_reason (not_exists.1 hdeep)
      rw [hc] at hhead
      exact absurd (Option.some.inj hhead) hne
  · rintro rfl
    rfl

/-! ### What the limit does -/

/-- Whatever bytes give under a limit they give under every greater one, be it an expression or an
error, unless it is the error that the limit was exceeded. And bytes that are no more than the
levels allowed never give this error. -/
theorem decode_limit_only_cuts (bytes : List UInt8) :
    (∀ limit limit', limit ≤ limit' →
      (∀ fault, decode limit bytes = .error (.malformed fault) →
        fault.reason ≠ s!"nesting exceeds maximum depth {limit}") →
      decode limit' bytes = decode limit bytes) ∧
    ∀ limit, bytes.length ≤ limit →
      ∀ fault, decode limit bytes = .error (.malformed fault) →
        ∀ other : Nat, fault.reason ≠ s!"nesting exceeds maximum depth {other}" := by
  refine ⟨fun limit limit' hle hnot => ?_, fun limit hlength fault hfault other hreason => ?_⟩
  · rcases decode_of_le hle bytes with hdeep | hsame
    · exact absurd rfl (hnot _ hdeep)
    · exact hsame.symm
  · obtain rfl := reason_eq_tooDeep_iff.1 hreason
    exact decode_ne_tooDeep hlength other hfault

/-- A negated label whose name is missing: on one level the label is one level too deep, and on two
levels or more the name is missing. There are eight bytes, and so eight levels are always enough. -/
theorem decode_limit_only_cuts_truncated :
    decode 1 [1, 3, 3, 2, 0, 0, 0, 1] = .error (.malformed (.tooDeep 1)) ∧
      (∀ fault, decode 2 [1, 3, 3, 2, 0, 0, 0, 1] = .error (.malformed fault) →
        fault.reason ≠ s!"nesting exceeds maximum depth {2}") ∧
      decode 512 [1, 3, 3, 2, 0, 0, 0, 1] = .error (.malformed (.truncated .string 1 0)) ∧
      [1, 3, 3, 2, 0, 0, 0, 1].length ≤ 8 ∧
      ∀ fault, decode 8 [1, 3, 3, 2, 0, 0, 0, 1] = .error (.malformed fault) →
        ∀ other : Nat, fault.reason ≠ s!"nesting exceeds maximum depth {other}" := by
  have htwo : decode 2 [1, 3, 3, 2, 0, 0, 0, 1] =
      .error (.malformed (.truncated .string 1 0)) := rfl
  have hnot : ∀ fault, decode 2 [1, 3, 3, 2, 0, 0, 0, 1] = .error (.malformed fault) →
      fault.reason ≠ s!"nesting exceeds maximum depth {2}" := by
    intro fault hfault hreason
    rw [reason_eq_tooDeep_iff.1 hreason] at hfault
    cases htwo.symm.trans hfault
  obtain ⟨hmore, hshort⟩ := decode_limit_only_cuts [1, 3, 3, 2, 0, 0, 0, 1]
  have hlength : [1, 3, 3, 2, 0, 0, 0, 1].length ≤ 8 := Nat.le_refl 8
  exact ⟨rfl, hnot, (hmore 2 512 (by decide) hnot).trans htwo, hlength, hshort 8 hlength⟩

end Wire

end GraphQuery
