import Mathlib.Algebra.Group.Nat.Defs
import GraphQuery.Proofs.Bytes
import GraphQuery.Proofs.Entries
import GraphQuery.Proofs.Utf8
import GraphQuery.Response.Bytes

/-!
# What readers of records read

A reader is described by the bytes from which it gives a result: it gives the result whatever
follows them, and nothing shorter is enough, since the bytes end. Both are kept by sequences of
readers and so by the readers of every record. They hold for lists of bytes below a limit, as a
reader of values that has so many levels reads only these.

## Main definitions

* `Record.Fault.IsEnd`: the faults of bytes that end too early.
* `Record.Reads`: a reader gives a result from exactly certain bytes.
* `Entries.ListedAs`: entries in whatever order a map gives them.

## Main results

* `Record.Reads.bind`: readers in sequence.
* `Record.reads_optional`, `Record.reads_list`, `Record.reads_map`: readers of fields.
-/

namespace GraphQuery

/-- The entries of a map, each of them once, in the order in which the map happens to give them. -/
structure Entries.ListedAs {κ α : Type} [LT κ] (entries listing : List (κ × α)) : Prop where
  sorted : Entries.Sorted entries
  perm : listing.Perm entries

namespace Record

/-- The bytes ended before the record did. -/
def Fault.IsEnd (fault : Fault) : Prop := fault = .endOfBytes ∨ fault = .endOfText

variable {α β : Type} {limit limit' : Nat}

/-- A reader gives a result from certain bytes and leaves what follows them, and if there are only
some of the bytes then it stops at their end. There are fewer bytes than `limit` in all. Bytes that
no length could count are of no concern. -/
def Reads (limit : Nat) (reader : PartReader α) (a : α) (w : List UInt8) : Prop :=
  w.length < 2 ^ 64 →
    (∀ rest, (w ++ rest).length < limit → reader (w ++ rest) = .ok (a, rest)) ∧
    ∀ start rest, start ++ rest = w → rest ≠ [] → start.length < limit →
      ∃ fault, fault.IsEnd ∧ reader start = .error fault

/-! ### Sequences -/

theorem run_bind (reader : PartReader α) (next : α → PartReader β) (bytes : List UInt8) :
    (reader >>= next) bytes = reader bytes >>= fun result => next result.1 result.2 := rfl

theorem reads_zero (reader : PartReader α) (a : α) (w : List UInt8) : Reads 0 reader a w :=
  fun _ => ⟨fun _ h => absurd h (Nat.not_lt_zero _), fun _ _ _ _ h => absurd h (Nat.not_lt_zero _)⟩

theorem reads_pure (a : α) : Reads limit (pure a) a [] := by
  refine fun _ => ⟨fun _ _ => rfl, fun start rest heq hrest _ => ?_⟩
  exact absurd (List.append_eq_nil_iff.1 heq).2 hrest

theorem Reads.of_eq {reader : PartReader α} {a : α} {w w' : List UInt8}
    (h : Reads limit reader a w) (heq : w = w') : Reads limit reader a w' :=
  heq ▸ h

/-- What is read in sequence stands in sequence. The second reader sees fewer bytes than the
first. -/
theorem Reads.bind_of_le {reader : PartReader α} {next : α → PartReader β} {a : α} {b : β}
    {w w' : List UInt8} (h : Reads limit reader a w) (hlimit : limit ≤ w.length + limit')
    (hnext : Reads limit' (next a) b w') : Reads limit (reader >>= next) b (w ++ w') := by
  intro hlength
  rw [List.length_append] at hlength
  obtain ⟨hall, hpart⟩ := h (by omega)
  obtain ⟨hnextAll, hnextPart⟩ := hnext (by omega)
  have hrun (rest : List UInt8) (hrest : (w ++ rest).length < limit) :
      (reader >>= next) (w ++ rest) = next a rest ∧ rest.length < limit' := by
    refine ⟨by rw [run_bind, hall rest hrest]; rfl, ?_⟩
    rw [List.length_append] at hrest
    omega
  constructor
  · intro rest hrest
    rw [List.append_assoc] at hrest ⊢
    obtain ⟨hsecond, hlt⟩ := hrun (w' ++ rest) hrest
    rw [hsecond, hnextAll rest hlt]
  · intro start rest heq hrest hstart
    -- the cut is inside the first bytes, or it leaves them whole
    have hcut : (∃ others, start ++ others = w ∧ others ≠ []) ∨
        ∃ second, start = w ++ second ∧ second ++ rest = w' := by
      rcases List.append_eq_append_iff.1 heq with ⟨others, rfl, rfl⟩ | ⟨second, rfl, rfl⟩
      · cases others with
        | nil => exact .inr ⟨[], by simp, rfl⟩
        | cons byte others => exact .inl ⟨byte :: others, rfl, List.cons_ne_nil _ _⟩
      · exact .inr ⟨second, rfl, rfl⟩
    rcases hcut with ⟨others, heq', hothers⟩ | ⟨second, rfl, heq'⟩
    · obtain ⟨fault, hend, hfault⟩ := hpart start others heq' hothers hstart
      exact ⟨fault, hend, by rw [run_bind, hfault]; rfl⟩
    · obtain ⟨hsecond, hlt⟩ := hrun second hstart
      rw [hsecond]
      exact hnextPart second rest heq' hrest hlt

theorem Reads.bind {reader : PartReader α} {next : α → PartReader β} {a : α} {b : β}
    {w w' : List UInt8} (h : Reads limit reader a w) (hnext : Reads limit (next a) b w') :
    Reads limit (reader >>= next) b (w ++ w') :=
  h.bind_of_le (Nat.le_add_left _ _) hnext

theorem Reads.map {reader : PartReader α} {a : α} {w : List UInt8} (f : α → β)
    (h : Reads limit reader a w) : Reads limit (do return f (← reader)) (f a) w :=
  (h.bind (reads_pure (f a))).of_eq (List.append_nil w)

/-! ### Numbers and texts -/

theorem reads_take {fault : Nat → Fault} (hfault : ∀ left, (fault left).IsEnd)
    (w : List UInt8) : Reads limit (Reader.take w.length fault) w w := by
  refine fun _ => ⟨fun rest _ => ?_, fun start rest heq hrest _ => ?_⟩
  · rw [Reader.take, Bytes.split?_append]
  · have hshort : Bytes.split? w.length start = none := by
      refine Option.eq_none_iff_forall_ne_some.2 fun cut hcut => ?_
      obtain ⟨hlength, hstart⟩ := Bytes.split?_eq_some.1 hcut
      have hpos := List.length_pos_iff.2 hrest
      rw [← heq, hstart] at hlength
      simp only [List.length_append] at hlength
      omega
    refine ⟨fault start.length, hfault _, ?_⟩
    rw [Reader.take, hshort]

/-- A number that fits is read from its bytes. -/
theorem reads_word {width n : Nat} (h : n < 256 ^ width) :
    Reads limit (readWord width) n (Bytes.littleEndian width n) := by
  have htake := @reads_take limit (fun _ => .endOfBytes) (fun _ => .inl rfl)
    (Bytes.littleEndian width n)
  rw [Bytes.length_littleEndian] at htake
  have hread := htake.map Bytes.ofLittleEndian
  rwa [Bytes.ofLittleEndian_littleEndian, Nat.mod_eq_of_lt h] at hread

theorem reads_byte (byte : UInt8) : Reads limit readByte byte [byte] := by
  refine fun _ => ⟨fun rest _ => rfl, fun start rest heq hrest _ => ?_⟩
  cases start with
  | nil => exact ⟨.endOfBytes, .inl rfl, rfl⟩
  | cons first start =>
    have hnil := (List.cons.inj heq).2
    exact absurd (List.append_eq_nil_iff.1 hnil).2 hrest

theorem reads_bool (b : Bool) : Reads limit readBool b (writeBool b) := by
  refine ((reads_byte _).bind ?_).of_eq (List.append_nil _)
  cases b
  · exact reads_pure false
  · exact reads_pure true

theorem reads_int64 (n : Int64) : Reads limit readInt64 n (writeInt64 n) := by
  have hread := (@reads_word limit 8 _ n.toUInt64.toNat_lt).map fun m => Int64.ofUInt64 (.ofNat m)
  rwa [UInt64.ofNat_toNat] at hread

theorem reads_int32 (n : Int32) : Reads limit readInt32 n (writeInt32 n) := by
  have hread := (@reads_word limit 4 _ n.toUInt32.toNat_lt).map fun m => Int32.ofUInt32 (.ofNat m)
  rwa [UInt32.ofNat_toNat] at hread

/-- Every bit of a number is read, whatever number it is. -/
theorem reads_float (x : Binary64) :
    Reads limit readFloat x (Bytes.littleEndian 8 x.bits.toNat) := by
  have hread := (@reads_word limit 8 _ x.bits.toNat_lt).map fun m => Binary64.mk (.ofNat m)
  rwa [UInt64.ofNat_toNat] at hread

theorem reads_text (s : String) : Reads limit readText s (writeText s) := by
  intro hlength
  have hfits : (Utf8.encode s).length < 256 ^ 8 := by
    simp only [writeText, writeLength, List.length_append] at hlength
    omega
  have htake := @reads_take limit (fun _ => .endOfText) (fun _ => .inr rfl) (Utf8.encode s)
  refine ((reads_word hfits).bind ((htake.bind ?_).of_eq (List.append_nil _))) hlength
  simp only [Utf8.decode_encode]
  exact reads_pure s

/-- The position of a choice is read as the choice. -/
theorem reads_choice {choices : List α} {position : Nat} {choice : α}
    (h : choices[position]? = some choice) (hposition : position < 256 ^ 4) :
    Reads limit (readChoice choices) choice (writeChoice position) := by
  refine ((reads_word hposition).bind ?_).of_eq (List.append_nil _)
  simp only [h]
  exact reads_pure choice

/-! ### Fields -/

theorem reads_optional {reader : PartReader α} {write : β → List UInt8} {R : α → β → Prop}
    {field : Option α} {listed : Option β} (hread : ∀ a b, R a b → Reads limit reader a (write b))
    (h : Option.Rel R field listed) :
    Reads limit (readOptional reader) field (writeOptional write listed) := by
  cases h with
  | none => exact (reads_byte 0).bind (reads_pure none)
  | some hfield => exact (reads_byte 1).bind ((hread _ _ hfield).map some)

/-- A field that is read as it is written. -/
theorem reads_field {reader : PartReader α} {write : α → List UInt8} {field : Option α}
    (hread : ∀ a ∈ field, Reads limit reader a (write a)) :
    Reads limit (readOptional reader) field (writeOptional write field) := by
  cases field with
  | none => exact reads_optional (fun _ _ h => h) .none
  | some a => exact reads_optional (fun _ _ h => h) (.some (hread a rfl))

theorem reads_times {reader : PartReader α} {write : β → List UInt8} {R : α → β → Prop}
    (hread : ∀ a b, R a b → Reads limit reader a (write b)) :
    ∀ {items : List α} {listed : List β}, List.Forall₂ R items listed →
      Reads limit (Reader.times reader listed.length) items (listed.flatMap write)
  | _, _, .nil => reads_pure []
  | _, _, .cons hfirst hrest => (hread _ _ hfirst).bind ((reads_times hread hrest).map _)

theorem length_le_length_flatMap {write : α → List UInt8} (hwrite : ∀ a, 0 < (write a).length) :
    ∀ items : List α, items.length ≤ (items.flatMap write).length
  | [] => Nat.le_refl 0
  | a :: items => by
    have ha := hwrite a
    have hitems := length_le_length_flatMap hwrite items
    rw [List.flatMap_cons, List.length_append, List.length_cons]
    omega

/-- A list is read item by item. As an item takes a byte or more, there are no more items than a
length can count. -/
theorem reads_list {reader : PartReader α} {write : β → List UInt8} {R : α → β → Prop}
    {items : List α} {listed : List β} (hwrite : ∀ b, 0 < (write b).length)
    (hread : ∀ a b, R a b → Reads limit reader a (write b)) (h : List.Forall₂ R items listed) :
    Reads limit (readList reader) items (writeList write listed) := by
  intro hlength
  have hcount : listed.length < 256 ^ 8 := by
    have hle := length_le_length_flatMap hwrite listed
    simp only [writeList, List.length_append] at hlength
    omega
  exact ((reads_word hcount).bind (reads_times hread h)) hlength

/-- Items that are all read as they are written. -/
theorem reads_items {reader : PartReader α} {write : α → List UInt8} {items : List α}
    (hwrite : ∀ a, 0 < (write a).length) (hread : ∀ a ∈ items, Reads limit reader a (write a)) :
    Reads limit (readList reader) items (writeList write items) :=
  reads_list hwrite (fun _ _ h => h) (List.forall₂_same.2 hread)

theorem length_writePair_pos {writeFirst : α → List UInt8}
    (hfirst : ∀ a, 0 < (writeFirst a).length) (writeSecond : β → List UInt8) (pair : α × β) :
    0 < (writePair writeFirst writeSecond pair).length := by
  have ha := hfirst pair.1
  rw [writePair, List.length_append]
  omega

theorem reads_pair {first : PartReader α} {second : PartReader β} {writeFirst : α → List UInt8}
    {writeSecond : β → List UInt8} {pair : α × β}
    (hfirst : Reads limit first pair.1 (writeFirst pair.1))
    (hsecond : Reads limit second pair.2 (writeSecond pair.2)) :
    Reads limit (readPair first second) pair (writePair writeFirst writeSecond pair) :=
  hfirst.bind (hsecond.map (Prod.mk pair.1))

/-- A map is read from its entries in whatever order they are listed. -/
theorem reads_map {κ α : Type} [LT κ] [DecidableLT κ] [DecidableEq κ] [@Std.Asymm κ (· < ·)]
    [@Std.Trichotomous κ (· < ·)] [@Trans κ κ κ (· < ·) (· < ·) (· < ·)] {key : PartReader κ}
    {value : PartReader α} {writeKey : κ → List UInt8} {writeValue : α → List UInt8}
    {entries listing : List (κ × α)} (h : Entries.ListedAs entries listing)
    (hwrite : ∀ k, 0 < (writeKey k).length) (hkey : ∀ k, Reads limit key k (writeKey k))
    (hvalue : ∀ entry ∈ entries, Reads limit value entry.2 (writeValue entry.2)) :
    Reads limit (readMap key value) entries (writeList (writePair writeKey writeValue) listing) := by
  have hpair : ∀ entry ∈ listing,
      Reads limit (readPair key value) entry (writePair writeKey writeValue entry) :=
    fun entry he => reads_pair (hkey entry.1) (hvalue entry (h.perm.subset he))
  have hread := (reads_items (length_writePair_pos hwrite writeValue) hpair).map Entries.ofList
  rwa [Entries.ofList_of_perm h.perm h.sorted] at hread

end Record

end GraphQuery
