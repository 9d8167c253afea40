import GraphQuery.Proofs.Wire.Congruence
import GraphQuery.Proofs.Wire.Language
import GraphQuery.Proofs.Wire.Normal
import GraphQuery.Proofs.Wire.Unique

/-!
# Round trips

An expression that is legal and has a wire form comes back from it unchanged, under exactly the
limits that its depth does not exceed. The other way round, what was decoded can be written again:
the bytes are then those that were read, unless these had bindings out of order or empty origins.

## Main definitions

* `Wire.Portable`: the expressions that the wire form carries unchanged.

## Main results

* `Wire.decode_wireForm_iff_depth_le`: writing and reading back, under any limit.
* `Wire.reencode_canonical`: reading and writing back.
-/

namespace GraphQuery

namespace Wire

/-- An expression is carried unchanged: it is legal, no placeholder is left in it, its lengths have
four bytes, and the maps inside its constants have their entries in order, as `Entries.ofList` puts
them. -/
structure Portable (e : Expr) : Prop where
  legal : e.Legal
  resolved : e.isResolved = true
  fits : e.Every LengthsFit
  sorted : e.Every Expr.ConstantSorted

theorem Portable.normalize_eq {e : Expr} (h : Portable e) : e.normalize = e :=
  Expr.normalize_of_every_normal fun n hn => ⟨h.sorted n hn, (h.legal n hn).origin?_ne⟩

/-- What was decoded has a wire form that is not longer than what was read. -/
theorem reencode_le {limit : Nat} {bytes : List UInt8} {e : Expr}
    (h : decode limit bytes = .ok e) : ∃ b, encode e = .ok b ∧ b.length ≤ bytes.length := by
  obtain ⟨written, hwritten, -, rfl, -⟩ := decode_eq_ok_iff.1 h
  obtain ⟨content, hcontent, rfl⟩ := encode_eq_ok.1 hwritten
  obtain ⟨content', hcontent', hle⟩ := exprBytes_normalize hcontent
  exact ⟨version :: content', encode_eq_ok.2 ⟨content', hcontent', rfl⟩, Nat.succ_le_succ hle⟩

theorem depth_le_of_decode {limit : Nat} {bytes : List UInt8} {e : Expr}
    (h : decode limit bytes = .ok e) : e.depth ≤ limit := by
  obtain ⟨written, -, hdepth, rfl, -⟩ := decode_eq_ok_iff.1 h
  exact Nat.le_trans written.depth_normalize_le hdepth

/-- What was decoded is carried unchanged from then on. -/
theorem portable_of_decode {limit : Nat} {bytes : List UInt8} {e : Expr}
    (h : decode limit bytes = .ok e) : Portable e := by
  obtain ⟨b, hb, -⟩ := reencode_le h
  obtain ⟨hresolved, hfits⟩ := encode_isOk_iff.1 ⟨b, hb⟩
  obtain ⟨written, -, -, rfl, hlegal⟩ := decode_eq_ok_iff.1 h
  exact ⟨hlegal, hresolved, hfits, written.every_normal_normalize.mono fun n hn => hn.1⟩

theorem decode_encode_of_depth_le {limit : Nat} {e : Expr} {b : List UInt8} (h : Portable e)
    (hb : encode e = .ok b) (hdepth : e.depth ≤ limit) : decode limit b = .ok e :=
  decode_eq_ok_iff.2 ⟨e, hb, hdepth, h.normalize_eq, h.legal⟩

/-- Under a limit that an expression exceeds, its wire form is refused as too deep. -/
theorem decode_encode_of_lt_depth {limit : Nat} {e : Expr} {b : List UInt8} (h : Portable e)
    (hb : encode e = .ok b) (hdepth : limit < e.depth) :
    decode limit b = .error (.malformed (.tooDeep limit)) := by
  rcases decode_of_le (Nat.le_of_lt hdepth) b with hdeep | hsame
  · exact hdeep
  · -- the same result would be an expression within the limit
    rw [decode_encode_of_depth_le h hb (Nat.le_refl _)] at hsame
    obtain ⟨written, -, hwritten, rfl, -⟩ := decode_eq_ok_iff.1 hsame
    have hle := written.depth_normalize_le
    omega

/-- The wire form of a portable expression is appended to any buffer, and under any limit it is
either read back as the expression itself or, if that has more levels, refused as too deep. -/
theorem decode_wireForm_iff_depth_le {e : Expr} (h : Portable e) :
    ∃ b, encode e = .ok b ∧ (∀ buffer, encodeOnto buffer e = .ok (buffer ++ b)) ∧
      ∀ limit, (e.depth ≤ limit → decode limit b = .ok e) ∧
        (limit < e.depth → ∃ fault, decode limit b = .error (.malformed fault) ∧
          fault.reason = s!"nesting exceeds maximum depth {limit}") := by
  obtain ⟨b, hb⟩ := encode_isOk_iff.2 ⟨h.resolved, h.fits⟩
  refine ⟨b, hb, encodeOnto_of_encode hb, fun limit => ⟨fun hle => ?_, fun hlt => ?_⟩⟩
  · exact decode_encode_of_depth_le h hb hle
  · exact ⟨.tooDeep limit, decode_encode_of_lt_depth h hb hlt, rfl⟩

theorem decode_wireForm_comprehension :
    ∃ b, encode (.comprehension "x" (.label "c") none none (some "[x in c]")) = .ok b ∧
      decode 2 b = .ok (.comprehension "x" (.label "c") none none (some "[x in c]")) ∧
      ∃ fault, decode 1 b = .error (.malformed fault) ∧
        fault.reason = "nesting exceeds maximum depth 1" := by
  have hportable : Portable (.comprehension "x" (.label "c") none none (some "[x in c]")) := by
    have hfits : TextFits "x" ∧ TextFits "c" ∧ TextFits "[x in c]" := by
      simp only [TextFits]
      decide
    refine ⟨Expr.every_comprehension.2 ?_, rfl, Expr.every_comprehension.2 ?_,
      Expr.every_comprehension.2 ?_⟩
    · exact ⟨⟨by decide, by decide⟩, Expr.every_label.2 trivial, by simp, by simp⟩
    · exact ⟨⟨hfits.1, by simpa using hfits.2.2⟩, Expr.every_label.2 hfits.2.1, by simp, by simp⟩
    · exact ⟨trivial, Expr.every_label.2 trivial, by simp, by simp⟩
  obtain ⟨b, hb, -, hlimits⟩ := decode_wireForm_iff_depth_le hportable
  exact ⟨b, hb, (hlimits 2).1 (by decide), (hlimits 1).2 (by decide)⟩

/-- The maps inside a value have their entries in order if the bytes of their keys are. -/
theorem sorted_iff_bytes {v : Value} :
    v.Sorted ↔ ∀ entries ∈ v.maps, entries.Pairwise fun a b =>
      Utf8.encode a.1 < Utf8.encode b.1 := by
  simp only [Value.sorted_iff_maps, Entries.Sorted, Utf8.encode_lt_encode_iff]

theorem every_constantSorted_iff {e : Expr} :
    e.Every Expr.ConstantSorted ↔ ∀ v, .constant v ∈ e.nodes → ∀ entries ∈ v.maps,
      entries.Pairwise fun a b => Utf8.encode a.1 < Utf8.encode b.1 := by
  constructor
  · exact fun h v hv => sorted_iff_bytes.1 (h (.constant v) hv)
  · intro h n hn
    cases n with
    | constant v => exact sorted_iff_bytes.2 (h v hn)
    | _ => exact trivial

/-- What was decoded has a wire form, which is not longer than what was read and is decoded to the
same. What was read is the wire form of one expression only, as it was written; the result is its
normal form, and the two wire forms are the same exactly if its maps list their entries in the
strict order of the bytes of their keys and none of its origins is empty. -/
theorem reencode_canonical {limit : Nat} {bytes : List UInt8} {e : Expr}
    (h : decode limit bytes = .ok e) :
    ∃ b written, encode e = .ok b ∧ b.length ≤ bytes.length ∧ decode limit b = .ok e ∧
      (∀ other, encode other = .ok bytes ↔ other = written) ∧ e = written.normalize ∧
      (b = bytes ↔
        (∀ v, .constant v ∈ written.nodes → ∀ entries ∈ v.maps,
          entries.Pairwise fun a b => Utf8.encode a.1 < Utf8.encode b.1) ∧
        ∀ n ∈ written.nodes, n.origin? ≠ some "") := by
  obtain ⟨b, hb, hle⟩ := reencode_le h
  obtain ⟨written, hwritten, -, hnormal, -⟩ := decode_eq_ok_iff.1 h
  have hunique : ∀ other, encode other = .ok bytes ↔ other = written := fun other =>
    ⟨fun hother => eq_of_encode_eq hother hwritten, fun hother => hother ▸ hwritten⟩
  have hback := decode_encode_of_depth_le (portable_of_decode h) hb (depth_le_of_decode h)
  refine ⟨b, written, hb, hle, hback, hunique, hnormal.symm, ?_⟩
  · have hnormalize : e = written ↔ written.Every Expr.Normal := by
      rw [← hnormal, Expr.normalize_eq_self_iff]
    have hsplit : written.Every Expr.Normal ↔ written.Every Expr.ConstantSorted ∧
        ∀ n ∈ written.nodes, n.origin? ≠ some "" := by
      simp only [Expr.Every, Expr.Normal, forall_and]
    rw [← every_constantSorted_iff, ← hsplit, ← hnormalize, ← hunique e, hb, Except.ok.injEq]

/-- An origin that is there but empty is left out when it is written again. -/
theorem reencode_empty_origin :
    decode 2 [1, 11, 4, 0, 0, 0, 0, 2, 0, 0, 0, 1, 99, 0, 1, 0, 0, 0, 0] =
        .ok (Expr.existsIn (.label "c")) ∧
      ∃ b, encode (Expr.existsIn (.label "c")) = .ok b ∧
        b ≠ [1, 11, 4, 0, 0, 0, 0, 2, 0, 0, 0, 1, 99, 0, 1, 0, 0, 0, 0] := by
  have hdecode : decode 2 [1, 11, 4, 0, 0, 0, 0, 2, 0, 0, 0, 1, 99, 0, 1, 0, 0, 0, 0] =
      .ok (Expr.existsIn (.label "c")) := rfl
  obtain ⟨b, written, hb, -, -, hunique, -, hsame⟩ := reencode_canonical hdecode
  refine ⟨hdecode, b, hb, fun hbytes => ?_⟩
  have hwritten := (hunique (.quantified .exists "" (.label "c") none (some ""))).1 rfl
  exact (hsame.1 hbytes).2 written written.mem_nodes_self (hwritten ▸ rfl)

end Wire

end GraphQuery
