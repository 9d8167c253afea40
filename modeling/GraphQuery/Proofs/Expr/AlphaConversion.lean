import GraphQuery.Proofs.Expr.Renaming

/-!
# Other names for variables

Which name a list comprehension, a quantified predicate or a reduction has for the elements of its
collection makes no difference: it may be exchanged for any name that is neither free nor bound in
the parts in which it is bound, if it is renamed there. The collection stays as it is, even where it
has the old name, since this is another name there; and so does the initial value.

At each element the two lookups differ in two names. The new one has the value of the element, as
the old one had before. What the old one has now is what is outside, and nothing asks for it.

## Main definitions

* `Expr.FreshIn`: a name is neither free in an expression nor bound anywhere in it.

## Main results

* `Expr.eval_rename_bind`: a part in which the variable is renamed.
* `Expr.eval_alphaConversion`: expressions built anew with another name for their variable.
-/

namespace GraphQuery

namespace Expr

/-- A name is neither free in an expression nor bound anywhere in it. -/
structure FreshIn (name : String) (e : Expr) : Prop where
  not_free : name ∉ e.freeNames
  not_bound : name ∉ e.innerVars

variable {source target : String} {part : Expr}

/-- With its variable renamed to a fresh name, a part has under the new name for an element the
outcome that it had under the old one. -/
theorem eval_rename_bind (hnames : part.Every NamesElements) (hfresh : FreshIn target part)
    (lookup : Lookup) (item : Value) :
    (part.rename source target).eval (lookup.bind target item) =
      part.eval (lookup.bind source item) := by
  have hsafe : SafeRenaming source target (lookup.bind source item) (lookup.bind target item)
      part := by
    refine ⟨hfresh.not_bound, by simp [Lookup.bind], fun name hname hne => ?_⟩
    have htarget : name ≠ target := by
      rintro rfl
      exact hfresh.not_free hname
    rw [bind_of_ne htarget, bind_of_ne hne]
  rw [eval_rename hnames hsafe]
  -- the variable has a value, so it is never reported as a name that has none
  refine mapError_eq_self fun err herr => if_neg ?_
  rintro rfl
  exact (bind_eq_none (blamedOn_of_eval_eq_error herr).2).1 rfl

section Parts

variable {filter mapping : Option Expr}

theorem satisfies_map_rename (hnames : ∀ e ∈ filter, e.Every NamesElements)
    (hfresh : ∀ e ∈ filter, FreshIn target e) (otherwise : Value → Bool) (lookup : Lookup)
    (item : Value) :
    satisfies (filter.map (rename source target)) otherwise (lookup.bind target item) item =
      satisfies filter otherwise (lookup.bind source item) item := by
  cases filter with
  | none => rfl
  | some e =>
      rw [Option.map_some, satisfies, satisfies, eval_rename_bind (hnames e rfl) (hfresh e rfl)]

theorem evalPart_map_rename (hnames : ∀ e ∈ mapping, e.Every NamesElements)
    (hfresh : ∀ e ∈ mapping, FreshIn target e) (lookup : Lookup) (item : Value) :
    evalPart (mapping.map (rename source target)) (lookup.bind target item) item =
      evalPart mapping (lookup.bind source item) item := by
  cases mapping with
  | none => rfl
  | some e =>
      rw [Option.map_some, evalPart, evalPart, eval_rename_bind (hnames e rfl) (hfresh e rfl)]

/-- A comprehension has the outcome of the one with another name for its variable. -/
theorem eval_comprehension_rename {collection : Expr} {origin origin' : Option String}
    (hnames : (comprehension source collection filter mapping origin).Every NamesElements)
    (hfilter : ∀ e ∈ filter, FreshIn target e) (hmapping : ∀ e ∈ mapping, FreshIn target e)
    (lookup : Lookup) :
    (comprehension target collection (filter.map (rename source target))
        (mapping.map (rename source target)) origin').eval lookup =
      (comprehension source collection filter mapping origin).eval lookup := by
  obtain ⟨-, -, hfilterNames, hmappingNames⟩ := every_comprehension.1 hnames
  simp only [eval, satisfies_map_rename hfilterNames hfilter,
    evalPart_map_rename hmappingNames hmapping]

/-- A quantified predicate has the outcome of the one with another name for its variable. -/
theorem eval_quantified_rename {quantifier : Quantifier} {collection : Expr}
    {origin origin' : Option String}
    (hnames : (quantified quantifier source collection filter origin).Every NamesElements)
    (hfilter : ∀ e ∈ filter, FreshIn target e) (lookup : Lookup) :
    (quantified quantifier target collection (filter.map (rename source target)) origin').eval
        lookup =
      (quantified quantifier source collection filter origin).eval lookup := by
  obtain ⟨-, -, hfilterNames⟩ := every_quantified.1 hnames
  simp only [eval, satisfies_map_rename hfilterNames hfilter]

end Parts

/-- A reduction has the outcome of the one with another name for its variable. Its accumulator is
bound outside of the variable, so it may have the old name or the new one. -/
theorem eval_reduce_rename {accumulator : String} {initial collection mapping : Expr}
    {origin origin' : Option String}
    (hnames : (reduce accumulator initial source collection mapping origin).Every NamesElements)
    (hmapping : FreshIn target mapping) (lookup : Lookup) :
    (reduce accumulator initial target collection (mapping.rename source target) origin').eval
        lookup =
      (reduce accumulator initial source collection mapping origin).eval lookup := by
  obtain ⟨-, -, -, hmappingNames⟩ := every_reduce.1 hnames
  simp only [eval, eval_rename_bind hmappingNames hmapping]

/-- A list comprehension, a quantified predicate and a reduction can be built anew with another name
for their variable and with the variable renamed in their filter and mapping, if the name is not
empty and is fresh in these. What is built has the outcome of what was there before, in every
lookup: whether or not this has a value for either name, and whether the old name is in the
collection, is bound once more inside or is that of the accumulator. -/
theorem eval_alphaConversion (htarget : target ≠ "") (source : String) (collection : Expr)
    (origin : Option String) :
    (∀ filter mapping : Option Expr,
      (comprehension source collection filter mapping origin).Every NamesElements →
      (∀ e ∈ filter, FreshIn target e) → (∀ e ∈ mapping, FreshIn target e) →
        ∃ built, comprehend target collection (filter.map (rename source target))
            (mapping.map (rename source target)) = .ok built ∧
          ∀ lookup, built.eval lookup =
            (comprehension source collection filter mapping origin).eval lookup) ∧
      (∀ (quantifier : Quantifier) (filter : Option Expr), quantifier ≠ .exists →
        (quantified quantifier source collection filter origin).Every NamesElements →
        (∀ e ∈ filter, FreshIn target e) →
          ∃ built, quantify quantifier target collection (filter.map (rename source target)) =
              .ok built ∧
            ∀ lookup, built.eval lookup =
              (quantified quantifier source collection filter origin).eval lookup) ∧
      ∀ (accumulator : String) (initial mapping : Expr), accumulator ≠ "" →
        (reduce accumulator initial source collection mapping origin).Every NamesElements →
        FreshIn target mapping →
          ∃ built, reduction accumulator initial target collection
              (mapping.rename source target) = .ok built ∧
            ∀ lookup, built.eval lookup =
              (reduce accumulator initial source collection mapping origin).eval lookup := by
  refine ⟨fun filter mapping hnames hfilter hmapping => ?_,
    fun quantifier filter hquantifier hnames hfilter => ?_,
    fun accumulator initial mapping haccumulator hnames hmapping => ?_⟩
  · exact ⟨_, comprehend_eq_ok.2 ⟨htarget, rfl⟩, eval_comprehension_rename hnames hfilter hmapping⟩
  · refine ⟨_, quantify_eq_ok.2 ⟨?_, rfl⟩, eval_quantified_rename hnames hfilter⟩
    rwa [if_neg hquantifier]
  · exact ⟨_, reduction_eq_ok.2 ⟨haccumulator, htarget, rfl⟩, eval_reduce_rename hnames hmapping⟩

/-- In `reduce(x = x, x IN x | [x, single(x IN [x] WHERE x)])` the variable has the name of the
accumulator, of the collection and of a variable inside. Two labels of the mapping are its own, and
these are renamed. -/
theorem eval_alphaConversion_shadowed :
    FreshIn "z" (list [label "x",
        quantified .single "x" (list [label "x"]) (some (label "x")) none]) ∧
      ∃ built, reduction "x" (label "x") "z" (label "x") (list [label "z",
          quantified .single "x" (list [label "z"]) (some (label "x")) none]) = .ok built ∧
        ∀ lookup, built.eval lookup =
          (reduce "x" (label "x") "x" (label "x") (list [label "x",
            quantified .single "x" (list [label "x"]) (some (label "x")) none]) none).eval
              lookup := by
  have htarget : "z" ≠ "" := by decide
  have hfresh : FreshIn "z" (list [label "x",
      quantified .single "x" (list [label "x"]) (some (label "x")) none]) :=
    ⟨by decide, by decide⟩
  obtain ⟨-, -, hreduce⟩ := eval_alphaConversion htarget "x" (label "x") none
  exact ⟨hfresh, hreduce "x" (label "x") _ (by decide) (by simp [NamesElements]) hfresh⟩

end Expr

end GraphQuery
