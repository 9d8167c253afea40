import GraphQuery.Proofs.Expr.Edits
import GraphQuery.Proofs.Expr.Traverse
import GraphQuery.Proofs.Wire.RoundTrip

/-!
# Expressions with a history

An expression comes from checked construction or from the decoder, and may then be edited in many
places and visited by traversals. However it came about, it is well built everywhere, but for
filters that were set on `exists`; and these are what keeps it from coming back from its wire form.

## Main definitions

* `Wire.Reachable`: the expressions that building, decoding, editing and visiting lead to.
* `Wire.Kept`: a condition on single nodes that nothing of this breaks.

## Main results

* `Wire.every_of_reachable`: what is kept holds everywhere.
* `Wire.decode_encode_of_reachable`: what comes back from the wire form of such an expression.
-/

namespace GraphQuery

namespace Wire

/-- The expressions that building, decoding, editing and visiting lead to. Whether a filter may be
set on an expression is a parameter: the setters do not ask. -/
inductive Reachable (maySet : Expr → Option Expr → Prop) : Expr → Prop
  /-- Checked construction from parts; the entries of maps are in order from the beginning. -/
  | built {e built : Expr} (hsorted : e.ConstantSorted)
    (hparts : ∀ c ∈ e.children, Reachable maySet c) (h : e.rebuild = .ok built) :
    Reachable maySet built
  | decoded {limit : Nat} {bytes : List UInt8} {e : Expr} (h : decode limit bytes = .ok e) :
    Reachable maySet e
  /-- A part is taken out. -/
  | part {e c : Expr} (he : Reachable maySet e) (hc : c ∈ e.children) : Reachable maySet c
  /-- Parts of any form are overwritten or edited in their places. -/
  | exchanged {e e' : Expr} (he : Reachable maySet e) (hroot : e.SameRoot e')
    (hparts : ∀ c ∈ e'.children, Reachable maySet c) : Reachable maySet e'
  | assigned {e part e' : Expr} {slot : Expr.Slot} (he : Reachable maySet e)
    (hpart : Reachable maySet part) (h : e.replace? slot part = some e') : Reachable maySet e'
  | origin {e e' : Expr} {origin : String} (he : Reachable maySet e)
    (h : e.setOrigin? origin = some e') : Reachable maySet e'
  | filter {e e' : Expr} {filter : Option Expr} (he : Reachable maySet e)
    (hfilter : ∀ f ∈ filter, Reachable maySet f) (hmay : maySet e filter)
    (h : e.setFilter? filter = some e') : Reachable maySet e'
  | mapping {e e' : Expr} {mapping : Option Expr} (he : Reachable maySet e)
    (hmapping : ∀ m ∈ mapping, Reachable maySet m) (h : e.setMapping? mapping = some e') :
    Reachable maySet e'
  /-- A traversal of any kind, from any state, that puts reachable expressions in place of nodes. -/
  | visited {σ : Type} {t : Traversal σ} {s : σ} {e : Expr} (he : Reachable maySet e)
    (hreplaced : ∀ r ∈ t.replacements s e, Reachable maySet r) :
    Reachable maySet ((e.traverse t).run s).1.1

variable {maySet : Expr → Option Expr → Prop} {P : Expr → Prop}

theorem reachable_label (name : String) : Reachable maySet (.label name) :=
  .built (e := .label name) trivial (fun _ hc => absurd hc List.not_mem_nil) rfl

/-- A condition on single nodes that holds of what is well built and that no edit breaks. -/
structure Kept (maySet : Expr → Option Expr → Prop) (P : Expr → Prop) : Prop where
  built : ∀ {e : Expr}, e.WellBuilt → e.ConstantSorted → P e
  sameRoot : ∀ {e e' : Expr}, e.SameRoot e' → P e → P e'
  origin : ∀ {e e' : Expr} {origin : String}, e.setOrigin? origin = some e' → P e → P e'
  filter : ∀ {e e' : Expr} {filter : Option Expr}, e.setFilter? filter = some e' →
    maySet e filter → P e → P e'
  mapping : ∀ {e e' : Expr} {mapping : Option Expr}, e.setMapping? mapping = some e' → P e → P e'

/-- What is kept holds everywhere. -/
theorem every_of_reachable (hkept : Kept maySet P) {e : Expr} (h : Reachable maySet e) :
    e.Every P := by
  -- the condition holds of the root, and the new parts are reachable or were there before
  induction h with
  | @built e _ hsorted _ hbuilt ih =>
      obtain ⟨hwell, hchildren, hsorted'⟩ := Expr.wellBuilt_of_rebuild hbuilt
      refine Expr.every_iff.2 ⟨hkept.built hwell (hsorted' hsorted), ?_⟩
      rw [hchildren]
      exact ih
  | decoded hdecode =>
      have hportable := portable_of_decode hdecode
      exact fun n hn => hkept.built (hportable.legal n hn) (hportable.sorted n hn)
  | part _ hc ih => exact ih.of_mem_children hc
  | exchanged _ hroot _ ih ihparts =>
      exact Expr.every_iff.2 ⟨hkept.sameRoot hroot ih.root, ihparts⟩
  | assigned _ _ hassign ih ihpart =>
      obtain ⟨hroot, hchildren⟩ := Expr.replace?_eq_some hassign
      refine Expr.every_iff.2 ⟨hkept.sameRoot hroot ih.root, fun c hc => ?_⟩
      rcases hchildren c hc with hold | rfl
      · exact ih.of_mem_children hold
      · exact ihpart
  | origin _ hset ih =>
      refine Expr.every_iff.2 ⟨hkept.origin hset ih.root, ?_⟩
      rw [(Expr.setOrigin?_eq_some hset).1]
      exact fun c hc => ih.of_mem_children hc
  | filter _ _ hmay hset ih ihfilter =>
      refine Expr.every_iff.2 ⟨hkept.filter hset hmay ih.root, fun c hc => ?_⟩
      rcases (Expr.setFilter?_eq_some hset).1 c hc with hold | hnew
      · exact ih.of_mem_children hold
      · exact ihfilter c hnew
  | mapping _ _ hset ih ihmapping =>
      refine Expr.every_iff.2 ⟨hkept.mapping hset ih.root, fun c hc => ?_⟩
      rcases (Expr.setMapping?_eq_some hset).1 c hc with hold | hnew
      · exact ih.of_mem_children hold
      · exact ihmapping c hnew
  | visited _ _ ih ihreplaced =>
      refine Expr.traverse_keeps (C := Expr.Every P) ?_ ?_ ihreplaced ih
      · exact fun e c he hc => he.of_mem_children hc
      · exact fun e e' he hroot hparts => Expr.every_iff.2 ⟨hkept.sameRoot hroot he.root, hparts⟩

/-- Everything that construction checks is kept, whatever filters are set, but for these filters. -/
theorem kept_builtUpToFilter : Kept maySet fun n => n.BuiltUpToFilter ∧ n.ConstantSorted where
  built hwell hsorted := ⟨(Expr.wellBuilt_iff.1 hwell).1, hsorted⟩
  sameRoot hroot h := ⟨hroot.builtUpToFilter_iff.1 h.1, hroot.constantSorted_iff.1 h.2⟩
  origin hset h := by
    obtain ⟨-, hbuilt, -, hsorted⟩ := Expr.setOrigin?_eq_some hset
    exact ⟨hbuilt h.1, hsorted⟩
  filter hset _ h := by
    obtain ⟨-, hbuilt, -, hsorted⟩ := Expr.setFilter?_eq_some hset
    exact ⟨hbuilt h.1, hsorted⟩
  mapping hset h := by
    obtain ⟨-, hbuilt, -, hsorted⟩ := Expr.setMapping?_eq_some hset
    exact ⟨hbuilt h.1, hsorted⟩

/-- If filters are only set where they fit, no `exists` ever has one. -/
theorem kept_not_filtersExists (hfits : ∀ e filter, maySet e filter → e.FilterFits filter) :
    Kept maySet fun n => ¬ n.FiltersExists where
  built hwell _ := (Expr.wellBuilt_iff.1 hwell).2
  sameRoot hroot h := fun h' => h (hroot.filtersExists_iff.2 h')
  origin hset h := fun h' => h ((Expr.setOrigin?_eq_some hset).2.2.1.2 h')
  filter hset hmay _ := (Expr.setFilter?_eq_some hset).2.2.1.1 (hfits _ _ hmay)
  mapping hset _ := (Expr.setMapping?_eq_some hset).2.2.1

/-- Whatever its history, an expression has a name for the elements that its predicates test. -/
theorem every_namesElements_of_reachable {e : Expr} (h : Reachable maySet e) :
    e.Every Expr.NamesElements :=
  (every_of_reachable kept_builtUpToFilter h).mono fun _ hn => hn.1.namesElements

/-- A reachable expression is well built everywhere but where a filter was set on `exists`, so it is
legal if filters are only set where they fit. Without placeholders and with lengths of four bytes it
has a wire form. Under any limit that is not exceeded, it comes back unchanged if there is no filter
of `exists`; otherwise the decoder refuses to build it. -/
theorem decode_encode_of_reachable {e : Expr} (h : Reachable maySet e) :
    (∀ n ∈ e.nodes, n.WellBuilt ↔ ¬ n.FiltersExists) ∧
      ((∀ e filter, maySet e filter → e.FilterFits filter) → e.Legal) ∧
      (e.isResolved = true → e.Every LengthsFit →
        ∃ b, encode e = .ok b ∧ ∀ limit, e.depth ≤ limit →
          ((∀ n ∈ e.nodes, ¬ n.FiltersExists) → decode limit b = .ok e) ∧
          ((∃ n ∈ e.nodes, n.FiltersExists) →
            decode limit b = .error (.construction .existsWithParts))) := by
  have hbuilt := every_of_reachable kept_builtUpToFilter h
  have hwell : ∀ n ∈ e.nodes, n.WellBuilt ↔ ¬ n.FiltersExists := fun n hn =>
    ⟨fun hn' => (Expr.wellBuilt_iff.1 hn').2, fun hn' => Expr.wellBuilt_iff.2 ⟨(hbuilt n hn).1, hn'⟩⟩
  refine ⟨hwell, fun hfits n hn => ?_, fun hresolved hfits => ?_⟩
  · exact (hwell n hn).2 (every_of_reachable (kept_not_filtersExists hfits) h n hn)
  · obtain ⟨b, hb⟩ := encode_isOk_iff.2 ⟨hresolved, hfits⟩
    refine ⟨b, hb, fun limit hdepth => ⟨fun hnone => ?_, fun ⟨n, hn, hfilter⟩ => ?_⟩⟩
    · have hlegal : e.Legal := fun n hn => (hwell n hn).2 (hnone n hn)
      have hsorted : e.Every Expr.ConstantSorted := fun n hn => (hbuilt n hn).2
      exact decode_encode_of_depth_le ⟨hlegal, hresolved, hfits, hsorted⟩ hb hdepth
    · have hnormal : e.normalize = e := Expr.normalize_of_every_normal fun n hn =>
        ⟨(hbuilt n hn).2, (hbuilt n hn).1.origin?_ne⟩
      have hfaults : e.normalize.Every fun n => ∀ fault, n.rebuild = .error fault →
          fault = .existsWithParts := by
        rw [hnormal]
        exact fun n hn fault => (hbuilt n hn).1.fault_eq
      rcases decode_encode_eq_or hb hdepth hfaults with hok | ⟨fault, rfl, herror⟩
      · -- what is decoded is legal
        rw [hnormal] at hok
        exact absurd hfilter ((hwell n hn).1 ((portable_of_decode hok).legal n hn))
      · exact herror

/-- A filter that was set on a comprehension comes back with it. -/
theorem decode_encode_filtered_comprehension :
    ∃ b, encode (.comprehension "x" (.label "c") (some (.label "x")) none none) = .ok b ∧
      decode 2 b = .ok (.comprehension "x" (.label "c") (some (.label "x")) none none) := by
  have hplain : Reachable Expr.FilterFits (.comprehension "x" (.label "c") none none none) := by
    refine .built (e := .comprehension "x" (.label "c") none none none) trivial (fun c hc => ?_) rfl
    obtain rfl := List.mem_singleton.1 hc
    exact reachable_label "c"
  have hfiltered : Reachable Expr.FilterFits
      (.comprehension "x" (.label "c") (some (.label "x")) none none) := by
    refine .filter hplain (fun f hf => ?_) trivial rfl
    obtain rfl := Option.some.inj hf
    exact reachable_label "x"
  obtain ⟨hwell, hlegal, hwire⟩ := decode_encode_of_reachable hfiltered
  have hnone := fun n hn => (hwell n hn).1 (hlegal (fun _ _ hfits => hfits) n hn)
  have hfits : TextFits "x" ∧ TextFits "c" := by
    simp only [TextFits]
    decide
  obtain ⟨b, hb, hlimit⟩ := hwire rfl <| Expr.every_comprehension.2
    ⟨⟨hfits.1, by simp⟩, Expr.every_label.2 hfits.2, by simpa [LengthsFit] using hfits.1, by simp⟩
  exact ⟨b, hb, (hlimit 2 (by decide)).1 hnone⟩

/-- A filter can be set on an `exists` that was built without one. The result is not well built, and
its wire form is refused. -/
theorem decode_encode_filtered_exists :
    ∃ e : Expr, Reachable (fun _ _ => True) e ∧ ¬ e.Legal ∧ e.isResolved = true ∧
      e.Every LengthsFit ∧ e.depth ≤ defaultDepth ∧
      ∃ b, encode e = .ok b ∧ decode defaultDepth b = .error (.construction .existsWithParts) := by
  have hplain : Reachable (fun _ _ => True) (Expr.existsIn (.label "c")) := by
    refine .built (e := Expr.existsIn (.label "c")) trivial (fun c hc => ?_) rfl
    obtain rfl := List.mem_singleton.1 hc
    exact reachable_label "c"
  have hfiltered : Reachable (fun _ _ => True)
      (.quantified .exists "" (.label "c") (some (.label "x")) none) := by
    refine .filter hplain (fun f hf => ?_) trivial rfl
    obtain rfl := Option.some.inj hf
    exact reachable_label "x"
  have hillegal : ¬ (Expr.quantified .exists "" (.label "c") (some (.label "x")) none).Legal :=
    fun hlegal => nomatch (Expr.Every.root hlegal).1.2
  have hencode : encode (.quantified .exists "" (.label "c") (some (.label "x")) none) =
      .ok [1, 11, 4, 0, 0, 0, 0, 2, 0, 0, 0, 1, 99, 1, 2, 0, 0, 0, 1, 120, 0] := rfl
  exact ⟨_, hfiltered, hillegal, rfl, (encode_isOk_iff.1 ⟨_, hencode⟩).2, by decide, _, hencode, rfl⟩

end Wire

end GraphQuery
