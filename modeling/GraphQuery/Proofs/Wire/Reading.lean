import GraphQuery.Proofs.Wire.Layout
import GraphQuery.Wire.Decode

/-!
# What readers read

A reader is described from two sides. If it gives a result, then it took some bytes from the front
and came back to the level at which it began, and the result and the bytes have a relation. And
there are bytes from which it gives a certain result, whatever follows them, unless something in
them must not be built.

## Main definitions

* `Wire.Yields`: what is known of a result and of the bytes taken for it.
* `Wire.Reads`: a reader gives a result from bytes and leaves what follows them, or it has one of
  certain faults of construction.

## Main results

* `Wire.Yields.bind`, `Wire.Reads.bind`: readers in sequence.
* `Wire.yields_list`, `Wire.reads_list`: readers of counted lists.
-/

namespace GraphQuery

namespace Wire

variable {α β : Type} {faults : ConstructionFault → Prop} {depth : Nat}

/-- Whenever a reader at some level gives a result, it is back at this level and has taken bytes
that stand in a given relation to the result. -/
def Yields (depth : Nat) (reader : PartReader α) (post : α → List UInt8 → Prop) : Prop :=
  ∀ ⦃bytes : List UInt8⦄ ⦃a : α⦄ ⦃c : Cursor⦄, reader ⟨bytes, depth⟩ = .ok (a, c) →
    ∃ w, bytes = w ++ c.bytes ∧ c.depth = depth ∧ post a w

/-- A reader at some level gives a result from bytes and leaves what follows them, or it stops with
one of certain faults of construction. -/
def Reads (faults : ConstructionFault → Prop) (depth : Nat) (reader : PartReader α) (a : α)
    (w : List UInt8) : Prop :=
  ∀ rest, reader ⟨w ++ rest, depth⟩ = .ok (a, ⟨rest, depth⟩) ∨
    ∃ fault, faults fault ∧ reader ⟨w ++ rest, depth⟩ = .error (.construction fault)

/-! ### Sequences -/

theorem run_bind (reader : PartReader α) (next : α → PartReader β) (c : Cursor) :
    (reader >>= next) c = reader c >>= fun result => next result.1 result.2 := rfl

theorem run_readBytes (field : Field) (n : Nat) (c : Cursor) :
    readBytes field n c = needBytes field n c >>= fun result => advance n result.2 := rfl

theorem Yields.mono {reader : PartReader α} {P Q : α → List UInt8 → Prop}
    (h : Yields depth reader P) (hPQ : ∀ a w, P a w → Q a w) : Yields depth reader Q := by
  intro bytes a c hrun
  obtain ⟨w, hbytes, hdepth, ha⟩ := h hrun
  exact ⟨w, hbytes, hdepth, hPQ a w ha⟩

theorem yields_pure {a : α} {post : α → List UInt8 → Prop} (h : post a []) :
    Yields depth (pure a) post := by
  intro bytes b c hrun
  obtain ⟨rfl, rfl⟩ := Prod.mk.inj (Except.ok.inj hrun)
  exact ⟨[], rfl, rfl, h⟩

theorem yields_throw {e : DecodeError} {post : α → List UInt8 → Prop} :
    Yields depth (throw e) post :=
  fun _ _ _ hrun => nomatch hrun

/-- What follows may count on what is known of the first result. -/
theorem Yields.bind {reader : PartReader α} {next : α → PartReader β}
    {P : α → List UInt8 → Prop} {Q : β → List UInt8 → Prop} (h : Yields depth reader P)
    (hnext : ∀ a w, P a w → Yields depth (next a) fun b w' => Q b (w ++ w')) :
    Yields depth (reader >>= next) Q := by
  intro bytes b c hrun
  obtain ⟨⟨a, middle⟩, hfirst, hsecond⟩ := bind_eq_ok.1 hrun
  obtain ⟨w, rfl, hdepth, ha⟩ := h hfirst
  obtain ⟨bytes', depth'⟩ := middle
  obtain rfl : depth' = depth := hdepth
  obtain ⟨w', hbytes', hdepth', hb⟩ := hnext a w ha hsecond
  refine ⟨w ++ w', ?_, hdepth', hb⟩
  rw [List.append_assoc, ← hbytes']

theorem reads_pure (a : α) : Reads faults depth (pure a) a [] := fun _ => .inl rfl

/-- What is read in sequence stands in sequence. -/
theorem Reads.bind {reader : PartReader α} {next : α → PartReader β} {a : α} {b : β}
    {w w' : List UInt8} (h : Reads faults depth reader a w) (hnext : Reads faults depth (next a) b w') :
    Reads faults depth (reader >>= next) b (w ++ w') := by
  intro rest
  rw [run_bind, List.append_assoc]
  rcases h (w' ++ rest) with hok | ⟨fault, hfault, herror⟩
  · rw [hok]
    exact hnext rest
  · rw [herror]
    exact .inr ⟨fault, hfault, rfl⟩

theorem Reads.of_eq {reader : PartReader α} {a : α} {w w' : List UInt8}
    (h : Reads faults depth reader a w) (heq : w = w') : Reads faults depth reader a w' :=
  heq ▸ h

theorem Reads.of_result_eq {reader : PartReader α} {a b : α} {w : List UInt8}
    (h : Reads faults depth reader a w) (heq : a = b) : Reads faults depth reader b w :=
  heq ▸ h

theorem Reads.map {reader : PartReader α} {a : α} {w : List UInt8} (h : Reads faults depth reader a w)
    (f : α → β) : Reads faults depth (do return f (← reader)) (f a) w :=
  (h.bind (reads_pure (f a))).of_eq (List.append_nil w)

/-! ### Bytes and symbols -/

theorem needBytes_eq_ok {field : Field} {n : Nat} {c : Cursor} (h : n ≤ c.bytes.length) :
    needBytes field n c = .ok ((), c) := by
  rw [needBytes, if_pos (Bytes.hasAtLeast_iff.2 h)]

theorem yields_needBytes (field : Field) (n : Nat) :
    Yields depth (needBytes field n) fun _ w => w = [] := by
  intro bytes a c hrun
  rw [needBytes] at hrun
  split at hrun
  · obtain rfl := (Prod.mk.inj (Except.ok.inj hrun)).2
    exact ⟨[], rfl, rfl, rfl⟩
  · cases hrun

theorem yields_advanceByte : Yields depth advanceByte fun byte w => w = [byte] := by
  intro bytes a c hrun
  cases bytes with
  | nil => cases hrun
  | cons byte rest =>
      obtain ⟨rfl, rfl⟩ := Prod.mk.inj (Except.ok.inj hrun)
      exact ⟨[byte], rfl, rfl, rfl⟩

theorem yields_advance (n : Nat) :
    Yields depth (advance n) fun first w => w = first ∧ first.length = n := by
  intro bytes a c hrun
  rw [advance] at hrun
  split at hrun
  · rename_i first rest hsplit
    obtain ⟨rfl, rfl⟩ := Prod.mk.inj (Except.ok.inj hrun)
    obtain ⟨hn, hbytes⟩ := Bytes.split?_eq_some.1 hsplit
    exact ⟨first, hbytes, rfl, rfl, hn⟩
  · cases hrun

theorem yields_byte : Yields depth readByte fun byte w => w = [byte] := by
  refine (yields_needBytes _ _).bind fun _ w hw => ?_
  subst hw
  exact yields_advanceByte

theorem reads_byte (byte : UInt8) : Reads faults depth readByte byte [byte] :=
  fun _ => .inl rfl

theorem yields_bytes (field : Field) (n : Nat) :
    Yields depth (readBytes field n) fun first w => w = first ∧ first.length = n := by
  refine (yields_needBytes _ _).bind fun _ w hw => ?_
  subst hw
  exact yields_advance n

theorem reads_bytes (field : Field) (w : List UInt8) :
    Reads faults depth (readBytes field w.length) w w := by
  intro rest
  have hneed : needBytes field w.length ⟨w ++ rest, depth⟩ = .ok ((), ⟨w ++ rest, depth⟩) :=
    needBytes_eq_ok (by simp)
  have hrun : readBytes field w.length ⟨w ++ rest, depth⟩ =
      needBytes field w.length ⟨w ++ rest, depth⟩ >>= fun result => advance w.length result.2 := rfl
  rw [hrun, hneed]
  left
  simp only [bind, Except.bind, advance, Bytes.split?_append]

theorem yields_length : Yields depth readLength fun n w => lengthBytes n = .ok w := by
  refine (yields_bytes _ _).bind fun first w hw => yields_pure ?_
  obtain ⟨rfl, hlength⟩ := hw
  have hlt := Bytes.ofBigEndian_lt w
  have hbytes := Bytes.bigEndian_ofBigEndian w
  rw [hlength] at hlt hbytes
  rw [lengthBytes_eq_ok, hbytes, List.append_nil]
  exact ⟨hlt, rfl⟩

theorem reads_length {n : Nat} {w : List UInt8} (h : lengthBytes n = .ok w) :
    Reads faults depth readLength n w := by
  obtain ⟨hn, rfl⟩ := lengthBytes_eq_ok.1 h
  have hbytes : Reads faults depth _ _ _ := reads_bytes .length (Bytes.bigEndian 4 n)
  rw [Bytes.length_bigEndian] at hbytes
  refine (hbytes.bind ?_).of_eq (List.append_nil _)
  rw [Bytes.ofBigEndian_bigEndian hn]
  exact reads_pure n

theorem yields_text : Yields depth readText fun s w => textBytes s = .ok w := by
  refine yields_length.bind fun n w hw => ?_
  refine (yields_bytes _ _).bind fun bytes w' hw' => ?_
  obtain ⟨rfl, hlength⟩ := hw'
  split
  · rename_i text htext
    refine yields_pure ?_
    obtain ⟨hn, rfl⟩ := lengthBytes_eq_ok.1 hw
    obtain rfl := Utf8.decode_eq_ok.1 htext
    rw [textBytes_eq_ok, hlength, List.append_nil]
    refine ⟨?_, rfl⟩
    rw [TextFits, hlength]
    exact hn
  · exact yields_throw

theorem reads_text {s : String} {w : List UInt8} (h : textBytes s = .ok w) :
    Reads faults depth readText s w := by
  obtain ⟨hfits, rfl⟩ := textBytes_eq_ok.1 h
  have hlength := lengthBytes_eq_ok.2 ⟨hfits, rfl⟩
  refine (reads_length hlength).bind ?_
  refine ((reads_bytes _ _).bind ?_).of_eq (List.append_nil _)
  rw [Utf8.decode_encode]
  exact reads_pure s

theorem yields_presence : Yields depth readPresence fun b w => w = [presence b] := by
  refine yields_byte.bind fun byte w hw => ?_
  subst hw
  split
  · rename_i hbyte
    exact yields_pure (by simp [hbyte, presence])
  split
  · rename_i hbyte
    exact yields_pure (by simp [hbyte, presence])
  · exact yields_throw

theorem reads_presence (b : Bool) : Reads faults depth readPresence b [presence b] := by
  cases b <;> exact fun _ => .inl rfl

theorem yields_symbol {set : SymbolSet} (ofTag? : UInt8 → Option α) (tag : α → UInt8)
    (h : ∀ {byte a}, ofTag? byte = some a → tag a = byte) :
    Yields depth (readSymbol set ofTag?) fun a w => w = [tag a] := by
  refine yields_byte.bind fun byte w hw => ?_
  subst hw
  split
  · rename_i symbol hsymbol
    exact yields_pure (by rw [h hsymbol, List.append_nil])
  · exact yields_throw

theorem reads_symbol {set : SymbolSet} {ofTag? : UInt8 → Option α} {tag : α → UInt8} {a : α}
    (h : ofTag? (tag a) = some a) : Reads faults depth (readSymbol set ofTag?) a [tag a] := by
  refine ((reads_byte (tag a)).bind ?_).of_eq (List.append_nil _)
  rw [h]
  exact reads_pure a

/-! ### Optional parts -/

theorem yields_optional {reader : PartReader α} {P : α → List UInt8 → Prop}
    (h : Yields depth reader P) :
    Yields depth (readOptional reader) fun part w =>
      (part = none ∧ w = [presence false]) ∨
        ∃ a content, part = some a ∧ P a content ∧ w = presence true :: content := by
  refine yields_presence.bind fun b w hw => ?_
  subst hw
  cases b with
  | false => exact yields_pure (.inl ⟨rfl, rfl⟩)
  | true =>
      refine h.bind fun a content ha => yields_pure (.inr ⟨a, content, rfl, ha, ?_⟩)
      rw [List.append_nil, List.singleton_append]

theorem reads_none {reader : PartReader α} :
    Reads faults depth (readOptional reader) none [presence false] :=
  ((reads_presence false).bind (reads_pure none)).of_eq rfl

theorem reads_some {reader : PartReader α} {a : α} {w : List UInt8}
    (h : Reads faults depth reader a w) :
    Reads faults depth (readOptional reader) (some a) (presence true :: w) := by
  refine ((reads_presence true).bind (h.bind (reads_pure (some a)))).of_eq ?_
  rw [List.append_nil, List.singleton_append]

theorem yields_origin : Yields depth readOrigin fun origin w =>
    ∃ written, originBytes written = .ok w ∧ written.bind Expr.keptOrigin = origin := by
  refine (yields_optional yields_text).bind fun part w hw => yields_pure ?_
  rw [List.append_nil]
  rcases hw with ⟨rfl, rfl⟩ | ⟨text, content, rfl, hcontent, rfl⟩
  · exact ⟨none, rfl, rfl⟩
  · exact ⟨some text, by simp [originBytes, hcontent], rfl⟩

theorem reads_origin {origin : Option String} {w : List UInt8} (h : originBytes origin = .ok w) :
    Reads faults depth readOrigin (origin.bind Expr.keptOrigin) w := by
  have hpart : Reads faults depth (readOptional readText) origin w := by
    cases origin with
    | none =>
        obtain rfl := Except.ok.inj h
        exact reads_none
    | some text =>
        simp only [originBytes, bind_pure_comp, map_eq_ok] at h
        obtain ⟨content, hcontent, rfl⟩ := h
        exact reads_some (reads_text hcontent)
  exact hpart.map _

/-! ### Lists -/

/-- What is known of a list follows from what is known of its elements. -/
theorem yields_times {reader : PartReader α} {P : α → List UInt8 → Prop}
    {Q : List α → List UInt8 → Prop} (h : Yields depth reader P) (hnil : Q [] [])
    (hcons : ∀ a w as w', P a w → Q as w' → Q (a :: as) (w ++ w')) (n : Nat) :
    Yields depth (Reader.times reader n) fun as w => as.length = n ∧ Q as w := by
  induction n with
  | zero => exact yields_pure ⟨rfl, hnil⟩
  | succ n ih =>
      refine h.bind fun a w ha => ih.bind fun as w' has => yields_pure ?_
      rw [List.append_nil, List.length_cons, has.1]
      exact ⟨rfl, hcons a w as w' ha has.2⟩

theorem yields_list {field : Field} {reader : PartReader α} {P : α → List UInt8 → Prop}
    {Q : List α → List UInt8 → Prop} (h : Yields depth reader P) (hnil : Q [] [])
    (hcons : ∀ a w as w', P a w → Q as w' → Q (a :: as) (w ++ w')) :
    Yields depth (readList field reader) fun as w =>
      ∃ count content, lengthBytes as.length = .ok count ∧ Q as content ∧ w = count ++ content := by
  refine yields_length.bind fun n count hcount => ?_
  refine (yields_needBytes _ _).bind fun _ w hw => ?_
  subst hw
  refine (yields_times h hnil hcons n).mono fun as content has => ?_
  exact ⟨count, content, has.1 ▸ hcount, has.2, rfl⟩

/-- Elements that stand one after another, each of one byte or more, are read after their count. -/
theorem reads_list {field : Field} {reader : PartReader α} {as : List α}
    {count content : List UInt8} (hcount : lengthBytes as.length = .ok count)
    (hle : as.length ≤ content.length)
    (h : Reads faults depth (Reader.times reader as.length) as content) :
    Reads faults depth (readList field reader) as (count ++ content) := by
  refine (reads_length hcount).bind ?_
  intro rest
  have hneed : needBytes field as.length ⟨content ++ rest, depth⟩ =
      .ok ((), ⟨content ++ rest, depth⟩) :=
    needBytes_eq_ok (by simp only [List.length_append]; omega)
  have hrun : (do needBytes field as.length; Reader.times reader as.length)
        ⟨content ++ rest, depth⟩ =
      needBytes field as.length ⟨content ++ rest, depth⟩ >>= fun result =>
        Reader.times reader as.length result.2 := rfl
  rw [hrun, hneed]
  exact h rest

/-! ### Levels -/

theorem enter_eq (limit depth : Nat) (bytes : List UInt8) :
    enter limit ⟨bytes, depth⟩ =
      if limit < depth + 1 then .error (.malformed (.tooDeep limit))
      else .ok ((), ⟨bytes, depth + 1⟩) := by
  have hrun : enter limit ⟨bytes, depth⟩ =
      (if limit < depth + 1 then fail (.tooDeep limit) else pure () : PartReader Unit)
        ⟨bytes, depth + 1⟩ := rfl
  rw [hrun]
  split <;> rfl

/-- A level too many is a fault, whatever would be read there. -/
theorem readInside_of_le {limit : Nat} (h : limit ≤ depth) (reader : PartReader α)
    (bytes : List UInt8) :
    readInside limit reader ⟨bytes, depth⟩ = .error (.malformed (.tooDeep limit)) := by
  have hrun : readInside limit reader ⟨bytes, depth⟩ =
      enter limit ⟨bytes, depth⟩ >>= fun entered =>
        (do let result ← reader; leave; return result : PartReader α) entered.2 := rfl
  rw [hrun, enter_eq, if_pos (Nat.lt_succ_of_le h)]
  rfl

/-- On a level that may be entered, the reader runs one level deeper. -/
theorem readInside_of_lt {limit : Nat} (h : depth < limit) (reader : PartReader α)
    (bytes : List UInt8) :
    readInside limit reader ⟨bytes, depth⟩ =
      (do let result ← reader; leave; return result : PartReader α) ⟨bytes, depth + 1⟩ := by
  have hrun : readInside limit reader ⟨bytes, depth⟩ =
      enter limit ⟨bytes, depth⟩ >>= fun entered =>
        (do let result ← reader; leave; return result : PartReader α) entered.2 := rfl
  rw [hrun, enter_eq, if_neg (Nat.not_lt.2 h)]
  rfl

theorem yields_inside_of_le {limit : Nat} {reader : PartReader α} {P : α → List UInt8 → Prop}
    (h : limit ≤ depth) : Yields depth (readInside limit reader) P := by
  intro bytes a c hrun
  rw [readInside_of_le h] at hrun
  cases hrun

theorem Yields.inside {limit : Nat} {reader : PartReader α} {P : α → List UInt8 → Prop}
    (h : Yields (depth + 1) reader P) (hlt : depth < limit) :
    Yields depth (readInside limit reader) P := by
  intro bytes a c hrun
  rw [readInside_of_lt hlt] at hrun
  obtain ⟨⟨result, c'⟩, hresult, hrest⟩ := bind_eq_ok.1 hrun
  obtain ⟨w, rfl, hdepth, ha⟩ := h hresult
  obtain ⟨bytes', depth'⟩ := c'
  obtain rfl : depth' = depth + 1 := hdepth
  obtain ⟨rfl, rfl⟩ := Prod.mk.inj (Except.ok.inj hrest)
  exact ⟨w, rfl, rfl, ha⟩

theorem Reads.inside {limit : Nat} {reader : PartReader α} {a : α} {w : List UInt8}
    (h : Reads faults (depth + 1) reader a w) (hlt : depth < limit) :
    Reads faults depth (readInside limit reader) a w := by
  intro rest
  have hrun : (do let result ← reader; leave; return result : PartReader α)
        ⟨w ++ rest, depth + 1⟩ =
      reader ⟨w ++ rest, depth + 1⟩ >>= fun read =>
        (do leave; return read.1 : PartReader α) read.2 := rfl
  rw [readInside_of_lt hlt, hrun]
  rcases h rest with hok | ⟨fault, hfault, herror⟩
  · rw [hok]
    exact .inl rfl
  · rw [herror]
    exact .inr ⟨fault, hfault, rfl⟩

end Wire

end GraphQuery
