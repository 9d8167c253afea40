import GraphQuery.Proofs.Wire.Reading

/-!
# Relations between readers

Readers are put together from a few primitives, in sequence. A relation between readers that holds
of the primitives and is kept by sequences therefore holds of every reader put together from
related ones, and of the readers of values and expressions if it holds of what is nested in them.

## Main definitions

* `Wire.IsContentFault`: an error that is found in what is read.
* `Wire.Congruence`: a relation that holds of the primitives and is kept by sequences.
* `Wire.Safe`: a reader takes no bytes that are not there and comes back to its level.
* `Wire.Extends`: a reader does the same as one with a greater limit, or exceeds its own.

## Main results

* `Wire.Congruence.value`, `Wire.Congruence.expr`: the readers of values and expressions.
* `Wire.decode_of_le`: with a greater limit the result is the same, or the limit was exceeded.
* `Wire.decode_ne_outOfRange`: nothing is ever taken out of range.
-/

namespace GraphQuery

namespace Wire

/-- An error that is found in what is read: neither in the levels that are entered for it nor in
taking what is not there. -/
def IsContentFault : DecodeError → Prop
  | .malformed (.tooDeep _) | .outOfRange => False
  | _ => True

theorem IsContentFault.ne_outOfRange {e : DecodeError} (h : IsContentFault e) :
    e ≠ .outOfRange := by
  rintro rfl
  exact h

theorem IsContentFault.ne_tooDeep {e : DecodeError} (h : IsContentFault e) (limit : Nat) :
    e ≠ .malformed (.tooDeep limit) := by
  rintro rfl
  exact h

/-- A relation between readers that holds of the primitives and is kept by sequences. -/
structure Congruence (R : ∀ ⦃α : Type⦄, PartReader α → PartReader α → Prop) : Prop where
  pure : ∀ {α : Type} (a : α), R (pure a) (pure a)
  bind : ∀ {α β : Type} {reader reader' : PartReader α} {next next' : α → PartReader β},
    R reader reader' → (∀ a, R (next a) (next' a)) → R (reader >>= next) (reader' >>= next')
  throw : ∀ {α : Type} {e : DecodeError}, IsContentFault e →
    R (throw e : PartReader α) (throw e)
  needBytes : ∀ field n, R (needBytes field n) (needBytes field n)
  byte : R readByte readByte
  bytes : ∀ field n, R (readBytes field n) (readBytes field n)

namespace Congruence

variable {R : ∀ ⦃α : Type⦄, PartReader α → PartReader α → Prop} {α : Type}

theorem fail (h : Congruence R) {fault : Fault} (hfault : IsContentFault (.malformed fault)) :
    R (Wire.fail fault : PartReader α) (Wire.fail fault) :=
  h.throw hfault

theorem length (h : Congruence R) : R readLength readLength :=
  h.bind (h.bytes _ _) fun _ => h.pure _

theorem text (h : Congruence R) : R readText readText := by
  refine h.bind h.length fun _ => h.bind (h.bytes _ _) fun bytes => ?_
  split
  · exact h.pure _
  · exact h.fail trivial

theorem presence (h : Congruence R) : R readPresence readPresence := by
  refine h.bind h.byte fun byte => ?_
  split
  · exact h.pure _
  split
  · exact h.pure _
  · exact h.fail trivial

/-- What is read behind a symbol, as the symbol is read from one byte. -/
theorem symbol_bind {β : Type} (h : Congruence R) {S : PartReader β → PartReader β → Prop}
    (hbyte : ∀ {next next' : UInt8 → PartReader β}, (∀ byte, R (next byte) (next' byte)) →
      S (readByte >>= next) (readByte >>= next'))
    (set : SymbolSet) (ofTag? : UInt8 → Option α) {next next' : α → PartReader β}
    (hnext : ∀ a, R (next a) (next' a)) :
    S (readSymbol set ofTag? >>= next) (readSymbol set ofTag? >>= next') := by
  rw [readSymbol, bind_assoc, bind_assoc]
  refine hbyte fun byte => h.bind ?_ hnext
  split
  · exact h.pure _
  · exact h.fail trivial

theorem symbol (h : Congruence R) (set : SymbolSet) (ofTag? : UInt8 → Option α) :
    R (readSymbol set ofTag?) (readSymbol set ofTag?) := by
  have hsymbol := h.symbol_bind (h.bind h.byte) set ofTag? h.pure
  rwa [bind_pure] at hsymbol

theorem optional (h : Congruence R) {reader reader' : PartReader α} (hr : R reader reader') :
    R (readOptional reader) (readOptional reader') := by
  refine h.bind h.presence fun present => ?_
  split
  · exact h.bind hr fun _ => h.pure _
  · exact h.pure _

theorem origin (h : Congruence R) : R readOrigin readOrigin :=
  h.bind (h.optional h.text) fun _ => h.pure _

theorem times (h : Congruence R) {reader reader' : PartReader α} (hr : R reader reader') (n : Nat) :
    R (Reader.times reader n) (Reader.times reader' n) := by
  induction n with
  | zero => exact h.pure _
  | succ n ih => exact h.bind hr fun _ => h.bind ih fun _ => h.pure _

theorem list (h : Congruence R) (field : Field) {reader reader' : PartReader α}
    (hr : R reader reader') : R (readList field reader) (readList field reader') :=
  h.bind h.length fun _ => h.bind (h.needBytes _ _) fun _ => h.times hr _

theorem built (h : Congruence R) (result : Except ConstructionFault Expr) :
    R (Wire.built result) (Wire.built result) := by
  cases result with
  | ok e => exact h.pure e
  | error fault => exact h.throw trivial

/-- Readers of values are related if the readers of what is nested are. They begin with a byte, so
they stand in whatever relation this byte makes of the one that holds behind it. -/
theorem value_of_byte (h : Congruence R) {S : PartReader Value → PartReader Value → Prop}
    (hbyte : ∀ {next next' : UInt8 → PartReader Value}, (∀ byte, R (next byte) (next' byte)) →
      S (readByte >>= next) (readByte >>= next'))
    {nested nested' : PartReader Value} (hn : R nested nested') :
    S (readValue nested) (readValue nested') := by
  refine hbyte fun byte => ?_
  cases ValueType.ofTag? byte with
  | none => exact h.fail trivial
  | some t =>
    cases t with
    | null => exact h.pure _
    | bool => exact h.bind h.presence fun _ => h.pure _
    | int | float => exact h.bind (h.bytes _ _) fun _ => h.pure _
    | string => exact h.bind h.text fun _ => h.pure _
    | list => exact h.bind (h.list _ hn) fun _ => h.pure _
    | map =>
        have hentry : R (readEntry nested) (readEntry nested') :=
          h.bind h.text fun _ => h.bind hn fun _ => h.pure _
        exact h.bind (h.list _ hentry) fun _ => h.pure _

theorem value (h : Congruence R) {nested nested' : PartReader Value} (hn : R nested nested') :
    R (readValue nested) (readValue nested') :=
  h.value_of_byte (h.bind h.byte) hn

/-- Readers of expressions are related if the readers of what is nested are. They begin with a byte
too. -/
theorem expr_of_byte (h : Congruence R) {S : PartReader Expr → PartReader Expr → Prop}
    (hbyte : ∀ {next next' : UInt8 → PartReader Expr}, (∀ byte, R (next byte) (next' byte)) →
      S (readByte >>= next) (readByte >>= next'))
    {value value' : PartReader Value} {nested nested' : PartReader Expr}
    (hv : R value value') (hn : R nested nested') :
    S (readExpr value nested) (readExpr value' nested') := by
  refine h.symbol_bind hbyte _ _ fun form => ?_
  cases form with
  | constant => exact h.bind hv fun _ => h.pure _
  | label => exact h.bind h.text fun _ => h.pure _
  | unary => exact h.bind (h.symbol _ _) fun _ => h.bind hn fun _ => h.pure _
  | arithmetic | relational =>
      exact h.bind (h.symbol _ _) fun _ => h.bind hn fun _ => h.bind hn fun _ => h.pure _
  | logical => exact h.bind (h.symbol _ _) fun _ => h.bind (h.list _ hn) fun _ => h.built _
  | list => exact h.bind (h.list _ hn) fun _ => h.pure _
  | attr => exact h.bind hn fun _ => h.bind h.text fun _ => h.pure _
  | placeholder => exact h.throw trivial
  | comprehension =>
      refine h.bind h.text fun _ => h.bind hn fun _ => h.bind (h.built _) fun _ => ?_
      exact h.bind (h.optional hn) fun _ => h.bind (h.optional hn) fun _ =>
        h.bind h.origin fun _ => h.pure _
  | quantified =>
      refine h.bind (h.symbol _ _) fun _ => h.bind h.text fun _ => h.bind hn fun _ => ?_
      exact h.bind (h.optional hn) fun _ => h.bind (h.built _) fun _ =>
        h.bind h.origin fun _ => h.pure _
  | reduce =>
      refine h.bind h.text fun _ => h.bind hn fun _ => h.bind h.text fun _ => ?_
      exact h.bind hn fun _ => h.bind hn fun _ => h.bind (h.built _) fun _ =>
        h.bind h.origin fun _ => h.pure _

theorem expr (h : Congruence R) {value value' : PartReader Value} {nested nested' : PartReader Expr}
    (hv : R value value') (hn : R nested nested') :
    R (readExpr value nested) (readExpr value' nested') :=
  h.expr_of_byte (h.bind h.byte) hv hn

end Congruence

/-! ### Safe readers -/

/-- Nothing was taken out of range, and a result leaves the reader at a given level. -/
def Proper {α : Type} (depth : Nat) : Except DecodeError (α × Cursor) → Prop
  | .ok (_, c) => c.depth = depth
  | .error e => e ≠ .outOfRange

/-- A reader at some level takes nothing that is not there, and it comes back to this level. -/
def Safe {α : Type} (depth : Nat) (reader : PartReader α) : Prop :=
  ∀ bytes, Proper depth (reader ⟨bytes, depth⟩)

variable {α : Type} {depth : Nat}

theorem safe_pure (a : α) : Safe depth (pure a) := fun _ => rfl

theorem safe_throw {e : DecodeError} (h : e ≠ .outOfRange) :
    Safe depth (throw e : PartReader α) :=
  fun _ => h

theorem safe_needBytes (field : Field) (n : Nat) : Safe depth (needBytes field n) := by
  intro bytes
  rw [needBytes]
  split
  · rfl
  · intro h
    cases h

/-- What is asked for before it is taken is there. -/
theorem safe_bytes (field : Field) (n : Nat) : Safe depth (readBytes field n) := by
  intro bytes
  rw [run_readBytes, needBytes]
  split
  · rename_i hlength
    obtain ⟨first, rest, hsplit⟩ := Bytes.split?_isSome (Bytes.hasAtLeast_iff.1 hlength)
    simp [bind, Except.bind, advance, hsplit, Proper]
  · intro h
    cases h

theorem safe_byte : Safe depth readByte := by
  intro bytes
  cases bytes with
  | nil => exact nofun
  | cons byte rest => rfl

/-! ### Greater limits -/

/-- A reader either exceeds a limit, or it does the same as another one and is safe in it. -/
def Extends (limit depth : Nat) ⦃α : Type⦄ (reader reader' : PartReader α) : Prop :=
  ∀ bytes, reader ⟨bytes, depth⟩ = .error (.malformed (.tooDeep limit)) ∨
    reader ⟨bytes, depth⟩ = reader' ⟨bytes, depth⟩ ∧ Proper depth (reader ⟨bytes, depth⟩)

theorem Safe.extends_self {limit : Nat} {reader : PartReader α} (h : Safe depth reader) :
    Extends limit depth reader reader :=
  fun bytes => .inr ⟨rfl, h bytes⟩

theorem Extends.bind {β : Type} {limit : Nat} {reader reader' : PartReader α}
    {next next' : α → PartReader β} (h : Extends limit depth reader reader')
    (hnext : ∀ a, Extends limit depth (next a) (next' a)) :
    Extends limit depth (reader >>= next) (reader' >>= next') := by
  intro bytes
  rw [run_bind, run_bind]
  rcases h bytes with hdeep | ⟨hsame, hproper⟩
  · rw [hdeep]
    exact .inl rfl
  · rw [← hsame]
    cases hreader : reader ⟨bytes, depth⟩ with
    | error e =>
        rw [hreader] at hproper
        exact .inr ⟨rfl, hproper⟩
    | ok result =>
        rw [hreader] at hproper
        obtain ⟨a, rest, depth'⟩ := result
        obtain rfl : depth' = depth := hproper
        exact hnext a rest

theorem congruence_extends (limit depth : Nat) : Congruence (Extends limit depth) where
  pure a := (safe_pure a).extends_self
  bind := Extends.bind
  throw h := (safe_throw h.ne_outOfRange).extends_self
  needBytes field n := (safe_needBytes field n).extends_self
  byte := safe_byte.extends_self
  bytes field n := (safe_bytes field n).extends_self

theorem extends_inside_of_le {limit : Nat} {reader reader' : PartReader α} (h : limit ≤ depth) :
    Extends limit depth (readInside limit reader) reader' :=
  fun bytes => .inl (readInside_of_le h reader bytes)

/-- A level that is entered below both limits is left again. -/
theorem Extends.inside {limit limit' : Nat} {reader reader' : PartReader α}
    (h : Extends limit (depth + 1) reader reader') (hlt : depth < limit) (hle : limit ≤ limit') :
    Extends limit depth (readInside limit reader) (readInside limit' reader') := by
  intro bytes
  rw [readInside_of_lt hlt, readInside_of_lt (Nat.lt_of_lt_of_le hlt hle), run_bind, run_bind]
  rcases h bytes with hdeep | ⟨hsame, hproper⟩
  · rw [hdeep]
    exact .inl rfl
  · rw [← hsame]
    cases hreader : reader ⟨bytes, depth + 1⟩ with
    | error e =>
        rw [hreader] at hproper
        exact .inr ⟨rfl, hproper⟩
    | ok result =>
        rw [hreader] at hproper
        obtain ⟨a, rest, depth'⟩ := result
        obtain rfl : depth' = depth + 1 := hproper
        exact .inr ⟨rfl, rfl⟩

theorem extends_valueReader {limit limit' levels levels' : Nat} (h : depth + levels = limit)
    (h' : depth + levels' = limit') (hle : limit ≤ limit') :
    Extends limit depth (valueReader limit levels) (valueReader limit' levels') := by
  induction levels generalizing levels' depth with
  | zero => exact extends_inside_of_le (by omega)
  | succ levels ih =>
      obtain ⟨rest, rfl⟩ : ∃ rest, levels' = rest + 1 := ⟨levels' - 1, by omega⟩
      have hnested : Extends limit (depth + 1) (valueReader limit levels) (valueReader limit' rest) :=
        ih (by omega) (by omega)
      exact ((congruence_extends limit (depth + 1)).value hnested).inside (by omega) hle

theorem extends_exprReader {limit limit' levels levels' : Nat} (h : depth + levels = limit)
    (h' : depth + levels' = limit') (hle : limit ≤ limit') :
    Extends limit depth (exprReader limit levels) (exprReader limit' levels') := by
  induction levels generalizing levels' depth with
  | zero => exact extends_inside_of_le (by omega)
  | succ levels ih =>
      obtain ⟨rest, rfl⟩ : ∃ rest, levels' = rest + 1 := ⟨levels' - 1, by omega⟩
      have hvalue : Extends limit (depth + 1) (valueReader limit levels) (valueReader limit' rest) :=
        extends_valueReader (by omega) (by omega) hle
      have hnested : Extends limit (depth + 1) (exprReader limit levels) (exprReader limit' rest) :=
        ih (by omega) (by omega)
      exact ((congruence_extends limit (depth + 1)).expr hvalue hnested).inside (by omega) hle

theorem extends_root {limit limit' : Nat} (hle : limit ≤ limit') :
    Extends limit 0 (readRoot limit) (readRoot limit') := by
  refine safe_byte.extends_self.bind fun byte => ?_
  split
  · exact extends_exprReader (Nat.zero_add limit) (Nat.zero_add limit') hle
  · exact (congruence_extends limit 0).fail trivial

/-- With a greater limit the result is the same, unless the limit was exceeded. -/
theorem decode_of_le {limit limit' : Nat} (hle : limit ≤ limit') (bytes : List UInt8) :
    decode limit bytes = .error (.malformed (.tooDeep limit)) ∨
      decode limit bytes = decode limit' bytes := by
  rw [decode, decode]
  rcases extends_root hle bytes with hdeep | ⟨hsame, -⟩
  · rw [hdeep]
    exact .inl rfl
  · rw [hsame]
    exact .inr rfl

/-- No bytes make the decoder take what is not there. -/
theorem decode_ne_outOfRange (limit : Nat) (bytes : List UInt8) :
    decode limit bytes ≠ .error .outOfRange := by
  rw [decode]
  rcases extends_root (Nat.le_refl limit) bytes with hdeep | ⟨-, hproper⟩
  · rw [hdeep]
    exact nofun
  · split
    · rename_i e hrun
      rw [hrun] at hproper
      exact fun he => hproper (Except.error.inj he)
    · exact nofun
    · exact nofun

end Wire

end GraphQuery
