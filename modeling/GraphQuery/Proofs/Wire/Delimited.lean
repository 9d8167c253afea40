import GraphQuery.Proofs.Wire.Congruence

/-!
# Where a wire form ends

A wire form tells where it ends. A reader that is given only the first of its bytes either finds
them truncated, before anything else can be wrong with them, or it does what it does on all of them
and leaves the same bytes behind. So bytes that are accepted are accepted neither in part nor with
more bytes behind them.

## Main definitions

* `Wire.IsTruncation`: bytes ended inside a field.
* `Wire.Prolongs`: a reader does on more bytes what another one does on the first of them.

## Main results

* `Wire.prolongs_root`: what a reader does on the first of its bytes.
* `Wire.decode_delimited`: accepted bytes, cut off and with more bytes behind them.
-/

namespace GraphQuery

namespace Wire

/-- Fewer bytes were left than a field needs. -/
def IsTruncation (e : DecodeError) : Prop :=
  ∃ field needed available, available < needed ∧ e = .malformed (.truncated field needed available)

/-- The same outcome, with more bytes behind those that were left. -/
def leavingMore {α : Type} (more : List UInt8) :
    Except DecodeError (α × Cursor) → Except DecodeError (α × Cursor)
  | .ok (a, c) => .ok (a, { c with bytes := c.bytes ++ more })
  | .error e => .error e

/-- A reader finds its bytes truncated, or else the other one, given more bytes behind them, has the
same outcome and leaves these bytes too. -/
def Prolongs ⦃α : Type⦄ (reader reader' : PartReader α) : Prop :=
  ∀ bytes depth more, (∃ e, reader ⟨bytes, depth⟩ = .error e ∧ IsTruncation e) ∨
    reader' ⟨bytes ++ more, depth⟩ = leavingMore more (reader ⟨bytes, depth⟩)

variable {α β : Type}

theorem prolongs_pure (a : α) : Prolongs (pure a) (pure a) := fun _ _ _ => .inr rfl

theorem prolongs_throw (e : DecodeError) : Prolongs (throw e : PartReader α) (throw e) :=
  fun _ _ _ => .inr rfl

theorem Prolongs.bind {reader reader' : PartReader α} {next next' : α → PartReader β}
    (h : Prolongs reader reader') (hnext : ∀ a, Prolongs (next a) (next' a)) :
    Prolongs (reader >>= next) (reader' >>= next') := by
  intro bytes depth more
  rw [run_bind, run_bind]
  rcases h bytes depth more with ⟨e, herror, htruncated⟩ | hsame
  · rw [herror]
    exact .inl ⟨e, rfl, htruncated⟩
  · rw [hsame]
    cases reader ⟨bytes, depth⟩ with
    | error e => exact .inr rfl
    | ok result =>
        obtain ⟨a, rest, depth'⟩ := result
        exact hnext a rest depth' more

/-- What is there stays there when more bytes follow, and what is missing is reported as missing. -/
theorem prolongs_needBytes (field : Field) (n : Nat) :
    Prolongs (needBytes field n) (needBytes field n) := by
  intro bytes depth more
  by_cases h : n ≤ bytes.length
  · have hmore : n ≤ (bytes ++ more).length := by
      rw [List.length_append]
      omega
    rw [needBytes_eq_ok h, needBytes_eq_ok hmore]
    exact .inr rfl
  · refine .inl ⟨_, ?_, field, n, bytes.length, Nat.lt_of_not_le h, rfl⟩
    rw [needBytes, if_neg (mt Bytes.hasAtLeast_iff.1 h)]

theorem prolongs_bytes (field : Field) (n : Nat) :
    Prolongs (readBytes field n) (readBytes field n) := by
  intro bytes depth more
  rw [run_readBytes, run_readBytes]
  rcases prolongs_needBytes field n bytes depth more with ⟨e, herror, htruncated⟩ | hsame
  · rw [herror]
    exact .inl ⟨e, rfl, htruncated⟩
  · rw [hsame, needBytes]
    split
    · rename_i hthere
      -- the bytes are there, so they are the same ones with more bytes behind
      obtain ⟨first, rest, hsplit⟩ := Bytes.split?_isSome (Bytes.hasAtLeast_iff.1 hthere)
      obtain ⟨rfl, rfl⟩ := Bytes.split?_eq_some.1 hsplit
      right
      simp only [leavingMore, bind, Except.bind, advance, Bytes.split?_append, List.append_assoc]
    · exact .inr rfl

theorem prolongs_byte : Prolongs readByte readByte := by
  intro bytes depth more
  cases bytes with
  | nil => exact .inl ⟨_, rfl, .byte, 1, 0, Nat.one_pos, rfl⟩
  | cons byte rest => exact .inr rfl

theorem congruence_prolongs : Congruence Prolongs where
  pure := prolongs_pure
  bind := Prolongs.bind
  throw _ := prolongs_throw _
  needBytes := prolongs_needBytes
  byte := prolongs_byte
  bytes := prolongs_bytes

/-! ### Levels -/

theorem prolongs_enter (limit : Nat) : Prolongs (enter limit) (enter limit) := by
  intro bytes depth more
  rw [enter_eq, enter_eq]
  split <;> exact .inr rfl

theorem prolongs_leave : Prolongs leave leave := by
  intro bytes depth more
  cases depth <;> exact .inr rfl

theorem Prolongs.inside {reader reader' : PartReader α} (h : Prolongs reader reader')
    (limit : Nat) : Prolongs (readInside limit reader) (readInside limit reader') :=
  (prolongs_enter limit).bind fun _ => h.bind fun a => prolongs_leave.bind fun _ => prolongs_pure a

theorem prolongs_valueReader (limit levels : Nat) :
    Prolongs (valueReader limit levels) (valueReader limit levels) := by
  induction levels with
  | zero => exact (prolongs_throw _).inside limit
  | succ levels ih => exact (congruence_prolongs.value ih).inside limit

theorem prolongs_exprReader (limit levels : Nat) :
    Prolongs (exprReader limit levels) (exprReader limit levels) := by
  induction levels with
  | zero => exact (prolongs_throw _).inside limit
  | succ levels ih =>
      exact (congruence_prolongs.expr (prolongs_valueReader limit levels) ih).inside limit

theorem prolongs_root (limit : Nat) : Prolongs (readRoot limit) (readRoot limit) := by
  refine prolongs_byte.bind fun byte => ?_
  split
  · exact prolongs_exprReader limit limit
  · exact congruence_prolongs.fail trivial

/-! ### Wire forms -/

/-- What is accepted is read to its end. -/
theorem readRoot_of_decode {limit : Nat} {bytes : List UInt8} {e : Expr}
    (h : decode limit bytes = .ok e) :
    ∃ depth, readRoot limit ⟨bytes, 0⟩ = .ok (e, ⟨[], depth⟩) := by
  rw [decode] at h
  split at h
  · cases h
  · rename_i found depth hroot
    obtain rfl := Except.ok.inj h
    exact ⟨depth, hroot⟩
  · cases h

/-- A part of what is accepted is truncated, wherever it was cut off. -/
theorem decode_truncated {limit : Nat} {start rest : List UInt8} {e : Expr}
    (h : decode limit (start ++ rest) = .ok e) (hrest : rest ≠ []) :
    ∃ field needed available, available < needed ∧
      decode limit start = .error (.malformed (.truncated field needed available)) := by
  obtain ⟨depth, hroot⟩ := readRoot_of_decode h
  rcases prolongs_root limit start 0 rest with
    ⟨_, herror, field, needed, available, hlt, rfl⟩ | hsame
  · exact ⟨field, needed, available, hlt, by rw [decode, herror]⟩
  · -- otherwise the bytes that were cut off would have been left over
    rw [hroot] at hsame
    cases hstart : readRoot limit ⟨start, 0⟩ with
    | error err =>
        rw [hstart] at hsame
        cases hsame
    | ok result =>
        rw [hstart] at hsame
        have hbytes := congrArg (fun c => c.2.bytes) (Except.ok.inj hsame)
        exact absurd (List.append_eq_nil_iff.1 hbytes.symm).2 hrest

/-- What follows accepted bytes is left over. -/
theorem decode_trailing {limit : Nat} {bytes more : List UInt8} {e : Expr}
    (h : decode limit bytes = .ok e) (hmore : more ≠ []) :
    decode limit (bytes ++ more) = .error (.malformed (.trailing more.length)) := by
  obtain ⟨depth, hroot⟩ := readRoot_of_decode h
  rcases prolongs_root limit bytes 0 more with ⟨err, herror, -⟩ | hsame
  · rw [hroot] at herror
    cases herror
  · rw [hroot] at hsame
    obtain ⟨byte, rest, rfl⟩ := List.exists_cons_of_ne_nil hmore
    rw [decode, hsame]
    rfl

/-- What is accepted under a limit is accepted under every greater one. -/
theorem decode_mono {limit limit' : Nat} (hle : limit ≤ limit') {bytes : List UInt8} {e : Expr}
    (h : decode limit bytes = .ok e) : decode limit' bytes = .ok e := by
  rcases decode_of_le hle bytes with hdeep | hsame
  · rw [h] at hdeep
    cases hdeep
  · rw [← hsame, h]

/-- Accepted bytes end where they have to: every proper part from their beginning is truncated, and
with more bytes behind them these are left over. So no accepted bytes are the beginning of longer
ones that are accepted, be it under another limit. -/
theorem decode_delimited {limit : Nat} {bytes : List UInt8} {e : Expr}
    (h : decode limit bytes = .ok e) :
    (∀ start, start <+: bytes → start ≠ bytes →
      ∃ fault field needed available, decode limit start = .error (.malformed fault) ∧
        available < needed ∧ fault = .truncated field needed available ∧
        fault.reason = "truncated input reading " ++ field.describe ++
          s!": need {needed} bytes, have {available}") ∧
      (∀ more, more ≠ [] → ∃ fault, decode limit (bytes ++ more) = .error (.malformed fault) ∧
        fault.reason = s!"{more.length} trailing bytes after expression") ∧
      ∀ limit' longer e', bytes <+: longer → decode limit' longer = .ok e' → longer = bytes := by
  refine ⟨?_, fun more hmore => ⟨_, decode_trailing h hmore, rfl⟩, ?_⟩
  · rintro start ⟨rest, rfl⟩ hne
    have hrest : rest ≠ [] := fun hnil => hne (by rw [hnil, List.append_nil])
    obtain ⟨field, needed, available, hlt, hdecode⟩ := decode_truncated h hrest
    exact ⟨_, field, needed, available, hdecode, hlt, rfl, rfl⟩
  · rintro limit' _ e' ⟨more, rfl⟩ h'
    cases more with
    | nil => exact List.append_nil bytes
    | cons byte rest =>
        -- under the greater of the two limits both would be accepted
        have hboth := decode_mono (Nat.le_max_right limit limit') h'
        have hfirst := decode_mono (Nat.le_max_left limit limit') h
        rw [decode_trailing hfirst (List.cons_ne_nil byte rest)] at hboth
        cases hboth

/-- A label whose name has a character of two bytes: cut off between them it is truncated, and a
byte behind it is left over. -/
theorem decode_delimited_label :
    decode 1 [1, 2, 0, 0, 0, 2, 0xc3, 0xa9] = .ok (.label "é") ∧
      (∃ fault field needed available,
        decode 1 [1, 2, 0, 0, 0, 2, 0xc3] = .error (.malformed fault) ∧ available < needed ∧
          fault = .truncated field needed available ∧
          fault.reason = "truncated input reading " ++ field.describe ++
            s!": need {needed} bytes, have {available}") ∧
      ∃ fault, decode 1 ([1, 2, 0, 0, 0, 2, 0xc3, 0xa9] ++ [0]) = .error (.malformed fault) ∧
        fault.reason = "1 trailing bytes after expression" := by
  have hdecode : decode 1 [1, 2, 0, 0, 0, 2, 0xc3, 0xa9] = .ok (.label "é") := rfl
  obtain ⟨hcut, hmore, -⟩ := decode_delimited hdecode
  exact ⟨hdecode, hcut _ (List.prefix_append _ [0xa9]) (by decide), hmore [0] (by decide)⟩

end Wire

end GraphQuery
