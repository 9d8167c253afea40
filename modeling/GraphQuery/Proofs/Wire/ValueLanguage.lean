import GraphQuery.Proofs.Value.Normal
import GraphQuery.Proofs.Wire.Reading

/-!
# The values that are read

Bytes are read as a value exactly if they are those of the layout, for a value whose maps may list
their entries in any order and with repetitions. The result is the normal form of that value.

## Main definitions

* `Wire.DescribesValue`: bytes are those of a value of bounded depth with a given normal form.

## Main results

* `Wire.yields_valueReader`, `Wire.reads_valueReader`: what is read as a value.
-/

namespace GraphQuery

namespace Wire

variable {faults : ConstructionFault → Prop} {depth : Nat}

/-- Bytes are written for a value of bounded depth, and `v` is its normal form. -/
def DescribesValue (levels : Nat) (v : Value) (w : List UInt8) : Prop :=
  ∃ written, valueBytes written = .ok w ∧ written.depth ≤ levels ∧ written.normalize = v

def DescribesItems (levels : Nat) (items : List Value) (w : List UInt8) : Prop :=
  ∃ written, itemsBytes written = .ok w ∧ Value.depthItems written ≤ levels ∧
    Value.normalizeItems written = items

def DescribesEntries (levels : Nat) (entries : List (String × Value)) (w : List UInt8) : Prop :=
  ∃ written, entriesBytes written = .ok w ∧ Value.depthEntries written ≤ levels ∧
    Value.normalizeEntries written = entries

theorem tag_eq_of_find? {α : Type} {tag : α → UInt8} {all : List α} {byte : UInt8} {a : α}
    (h : all.find? (tag · == byte) = some a) : tag a = byte := by
  simpa using List.find?_some h

theorem describesItems_nil {levels : Nat} : DescribesItems levels [] [] :=
  ⟨[], rfl, Nat.zero_le _, rfl⟩

theorem describesItems_cons {levels : Nat} {v : Value} {vs : List Value} {w w' : List UInt8}
    (hv : DescribesValue levels v w) (hvs : DescribesItems levels vs w') :
    DescribesItems levels (v :: vs) (w ++ w') := by
  obtain ⟨first, hfirst, hdepth, rfl⟩ := hv
  obtain ⟨rest, hrest, hdepths, rfl⟩ := hvs
  exact ⟨first :: rest, by simp [itemsBytes, hfirst, hrest], Nat.max_le.2 ⟨hdepth, hdepths⟩, rfl⟩

theorem describesEntries_nil {levels : Nat} : DescribesEntries levels [] [] :=
  ⟨[], rfl, Nat.zero_le _, rfl⟩

theorem describesEntries_cons {levels : Nat} {key : String} {v : Value}
    {es : List (String × Value)} {text w w' : List UInt8} (hkey : textBytes key = .ok text)
    (hv : DescribesValue levels v w) (hes : DescribesEntries levels es w') :
    DescribesEntries levels ((key, v) :: es) (text ++ w ++ w') := by
  obtain ⟨first, hfirst, hdepth, rfl⟩ := hv
  obtain ⟨rest, hrest, hdepths, rfl⟩ := hes
  exact ⟨(key, first) :: rest, by simp [entriesBytes, hkey, hfirst, hrest],
    Nat.max_le.2 ⟨hdepth, hdepths⟩, rfl⟩

theorem yields_entry {value : PartReader Value} {P : Value → List UInt8 → Prop}
    (h : Yields depth value P) :
    Yields depth (readEntry value) fun entry w =>
      ∃ text content, textBytes entry.1 = .ok text ∧ P entry.2 content ∧ w = text ++ content := by
  refine yields_text.bind fun key text htext => ?_
  refine h.bind fun v content hv => yields_pure ?_
  exact ⟨text, content, htext, hv, by rw [List.append_nil]⟩

/-- If what is nested has so many levels, a value has one more. -/
theorem yields_value {levels : Nat} {nested : PartReader Value}
    (h : Yields depth nested (DescribesValue levels)) :
    Yields depth (readValue nested) (DescribesValue (levels + 1)) := by
  refine yields_byte.bind fun byte w hw => ?_
  subst hw
  cases htype : ValueType.ofTag? byte with
  | none => exact yields_throw
  | some t =>
    obtain rfl := tag_eq_of_find? htype
    cases t with
    | null => exact yields_pure ⟨.null, rfl, by simp [Value.depth], rfl⟩
    | bool =>
        refine yields_presence.bind fun b w hb => yields_pure ?_
        subst hb
        exact ⟨.bool b, rfl, by simp [Value.depth], rfl⟩
    | int =>
        refine (yields_bytes _ _).bind fun bytes w hbytes => yields_pure ?_
        obtain ⟨rfl, hlength⟩ := hbytes
        have hword := Bytes.bigEndian_ofNat_ofBigEndian hlength
        refine ⟨.int (.ofUInt64 (.ofNat (Bytes.ofBigEndian w))), ?_, by simp [Value.depth], rfl⟩
        rw [valueBytes, hword, List.append_nil, List.singleton_append]
    | float =>
        refine (yields_bytes _ _).bind fun bytes w hbytes => yields_pure ?_
        obtain ⟨rfl, hlength⟩ := hbytes
        refine ⟨.float ⟨.ofNat (Bytes.ofBigEndian w)⟩, ?_, by simp [Value.depth], rfl⟩
        rw [valueBytes, Bytes.bigEndian_ofNat_ofBigEndian hlength, List.append_nil,
          List.singleton_append]
    | string =>
        refine yields_text.bind fun s w hs => yields_pure ?_
        exact ⟨.string s, by simp [valueBytes, hs], by simp [Value.depth], rfl⟩
    | list =>
        refine (yields_list (Q := DescribesItems levels) h describesItems_nil ?_).bind
          fun items w hitems => yields_pure ?_
        · exact fun _ _ _ _ hv hvs => describesItems_cons hv hvs
        · obtain ⟨count, content, hcount, ⟨written, hwritten, hdepth, rfl⟩, rfl⟩ := hitems
          rw [Value.length_normalizeItems] at hcount
          exact ⟨.list written, by simp [valueBytes, hcount, hwritten], Nat.succ_le_succ hdepth,
            rfl⟩
    | map =>
        refine (yields_list (Q := DescribesEntries levels) (yields_entry h) describesEntries_nil
          ?_).bind fun entries w hentries => yields_pure ?_
        · rintro ⟨key, v⟩ _ es w' ⟨text, content, hkey, hv, rfl⟩ hes
          exact describesEntries_cons hkey hv hes
        · obtain ⟨count, content, hcount, ⟨written, hwritten, hdepth, rfl⟩, rfl⟩ := hentries
          rw [Value.length_normalizeEntries] at hcount
          exact ⟨.map written, by simp [valueBytes, hcount, hwritten], Nat.succ_le_succ hdepth,
            rfl⟩

theorem yields_valueReader {limit levels : Nat} (h : depth + levels = limit) :
    Yields depth (valueReader limit levels) (DescribesValue levels) := by
  induction levels generalizing depth with
  | zero => exact yields_inside_of_le (by omega)
  | succ levels ih => exact (yields_value (ih (by omega))).inside (by omega)

/-- Items are read one after another. -/
theorem reads_items {levels : Nat} {nested : PartReader Value}
    (h : ∀ v w, valueBytes v = .ok w → v.depth ≤ levels → Reads faults depth nested v.normalize w)
    {items : List Value} {w : List UInt8} (hw : itemsBytes items = .ok w)
    (hdepth : Value.depthItems items ≤ levels) :
    Reads faults depth (Reader.times nested items.length) (Value.normalizeItems items) w := by
  induction items generalizing w with
  | nil =>
      obtain rfl := Except.ok.inj hw
      exact reads_pure []
  | cons v vs ih =>
      simp only [itemsBytes, bind_pure_comp, bind_eq_ok, map_eq_ok] at hw
      obtain ⟨first, hfirst, rest, hrest, rfl⟩ := hw
      obtain ⟨hv, hvs⟩ := Nat.max_le.1 hdepth
      refine (h v first hfirst hv).bind ?_
      exact (ih hrest hvs).map _

/-- Entries are read one after another. -/
theorem reads_entries {levels : Nat} {nested : PartReader Value}
    (h : ∀ v w, valueBytes v = .ok w → v.depth ≤ levels → Reads faults depth nested v.normalize w)
    {entries : List (String × Value)} {w : List UInt8} (hw : entriesBytes entries = .ok w)
    (hdepth : Value.depthEntries entries ≤ levels) :
    Reads faults depth (Reader.times (readEntry nested) entries.length)
      (Value.normalizeEntries entries) w := by
  induction entries generalizing w with
  | nil =>
      obtain rfl := Except.ok.inj hw
      exact reads_pure []
  | cons entry es ih =>
      simp only [entriesBytes, bind_pure_comp, bind_eq_ok, map_eq_ok] at hw
      obtain ⟨text, htext, first, hfirst, rest, hrest, rfl⟩ := hw
      obtain ⟨hv, hes⟩ := Nat.max_le.1 hdepth
      have hentry : Reads faults depth (readEntry nested) (entry.1, entry.2.normalize)
          (text ++ first) := by
        refine (reads_text htext).bind ?_
        exact (h entry.2 first hfirst hv).map _
      refine hentry.bind ?_
      exact (ih hrest hes).map _

/-- A value of one level more is read, in normal form, if what is nested is read so. -/
theorem reads_value {levels : Nat} {nested : PartReader Value}
    (h : ∀ v w, valueBytes v = .ok w → v.depth ≤ levels → Reads faults depth nested v.normalize w)
    {v : Value} {w : List UInt8} (hw : valueBytes v = .ok w) (hdepth : v.depth ≤ levels + 1) :
    Reads faults depth (readValue nested) v.normalize w := by
  cases v with
  | null =>
      obtain rfl := Except.ok.inj hw
      exact (reads_byte ValueType.null.tag).bind (reads_pure _)
  | bool b =>
      obtain rfl := Except.ok.inj hw
      refine (reads_byte ValueType.bool.tag).bind ?_
      exact (reads_presence b).map Value.bool
  | int n =>
      obtain rfl := Except.ok.inj hw
      have hbytes : Reads faults depth _ _ _ :=
        reads_bytes .integer (Bytes.bigEndian 8 n.toUInt64.toNat)
      rw [Bytes.length_bigEndian] at hbytes
      have hword := Bytes.ofNat_ofBigEndian_bigEndian n.toUInt64
      refine (reads_byte ValueType.int.tag).bind ?_
      exact (hbytes.map fun bytes => Value.int (.ofUInt64 (.ofNat (Bytes.ofBigEndian bytes)))
        ).of_result_eq (by rw [hword]; rfl)
  | float x =>
      obtain rfl := Except.ok.inj hw
      have hbytes : Reads faults depth _ _ _ := reads_bytes .float (Bytes.bigEndian 8 x.bits.toNat)
      rw [Bytes.length_bigEndian] at hbytes
      have hword := Bytes.ofNat_ofBigEndian_bigEndian x.bits
      refine (reads_byte ValueType.float.tag).bind ?_
      exact (hbytes.map fun bytes => Value.float ⟨.ofNat (Bytes.ofBigEndian bytes)⟩
        ).of_result_eq (by rw [hword]; rfl)
  | string s =>
      simp only [valueBytes, bind_pure_comp, map_eq_ok] at hw
      obtain ⟨text, htext, rfl⟩ := hw
      refine (reads_byte ValueType.string.tag).bind ?_
      exact (reads_text htext).map Value.string
  | list items =>
      simp only [valueBytes, bind_pure_comp, bind_eq_ok, map_eq_ok] at hw
      obtain ⟨count, hcount, content, hcontent, rfl⟩ := hw
      have hle := length_items_le hcontent
      have hitems := reads_items h hcontent (Nat.le_of_succ_le_succ hdepth)
      rw [← Value.length_normalizeItems] at hcount hle hitems
      refine (reads_byte ValueType.list.tag).bind ?_
      exact (reads_list hcount hle hitems).map Value.list
  | map entries =>
      simp only [valueBytes, bind_pure_comp, bind_eq_ok, map_eq_ok] at hw
      obtain ⟨count, hcount, content, hcontent, rfl⟩ := hw
      have hle := length_entries_le hcontent
      have hentries := reads_entries h hcontent (Nat.le_of_succ_le_succ hdepth)
      rw [← Value.length_normalizeEntries] at hcount hle hentries
      refine (reads_byte ValueType.map.tag).bind ?_
      exact (reads_list hcount hle hentries).map fun entries => Value.map (Entries.ofList entries)

theorem reads_valueReader {limit levels : Nat} (h : depth + levels = limit) {v : Value}
    {w : List UInt8} (hw : valueBytes v = .ok w) (hdepth : v.depth ≤ levels) :
    Reads faults depth (valueReader limit levels) v.normalize w := by
  induction levels generalizing depth v w with
  | zero => exact absurd v.depth_pos (by omega)
  | succ levels ih =>
      exact (reads_value (fun _ _ => ih (by omega)) hw hdepth).inside (by omega)

end Wire

end GraphQuery
