import GraphQuery.Proofs.Expr.Quantifiers
import GraphQuery.Proofs.Expr.Scoping

/-!
# Loops over joined lists

A loop over the elements of a collection takes them in order and carries nothing from one to the
next but what it has made so far. So a loop over two lists joined is the loop over the one and then,
unless that failed or decided already, the loop over the other. For the quantifiers, going on or not
is what a connective does with its second operand.

A list comprehension without a filter carries the list of its images. So it is the reduction that
begins with the empty list and adds a list of one image at each element.

## Main results

* `selectImages_join`, `anyM_join`, `allM_join`: loops over joined lists.
* `foldlM_append_images`: adding images one by one makes the list of images.
* `Expr.eval_over_join`: the expressions that loop, over a sum of two lists.
* `Expr.eval_comprehension_eq_reduce`: a comprehension without a filter as a reduction.
-/

namespace GraphQuery

/-! ### Loops -/

section Join

variable (keep test : Value → Except EvalError Bool) (image : Value → Outcome)
  (front back : List Value)

/-- The images over joined lists are those over the one and then those over the other. -/
theorem selectImages_join :
    selectImages keep image (front ++ back) = (do
      let images ← selectImages keep image front
      return images ++ (← selectImages keep image back)) := by
  induction front with
  | nil =>
      have hnil : selectImages keep image [] = pure [] := rfl
      simp [hnil]
  | cons item rest ih =>
      simp only [List.cons_append, selectImages, ih, bind_assoc]
      refine bind_congr fun kept => ?_
      cases kept with
      | true => simp
      | false => simp

/-- The second list is asked about only if no element of the first one passes. -/
theorem anyM_join :
    (front ++ back).anyM test = (do
      if ← front.anyM test then return true else back.anyM test) := by
  induction front with
  | nil => rfl
  | cons item rest ih =>
      simp only [List.cons_append, List.anyM_cons, ih, bind_assoc]
      refine bind_congr fun found => ?_
      cases found with
      | true => rfl
      | false => rfl

/-- The second list is asked about only if all elements of the first one pass. -/
theorem allM_join :
    (front ++ back).allM test = (do
      if ← front.allM test then back.allM test else return false) := by
  induction front with
  | nil => rfl
  | cons item rest ih =>
      simp only [List.cons_append, List.allM, ih, bind_assoc]
      refine bind_congr fun passed => ?_
      cases passed with
      | true => rfl
      | false => rfl

end Join

/-- If every item is kept, each has its image. -/
theorem selectImages_all (image : Value → Outcome) (items : List Value) :
    selectImages (fun _ => .ok true) image items = items.mapM image := by
  induction items with
  | nil => rfl
  | cons item rest ih =>
      rw [selectImages, List.mapM_cons, ih]
      rfl

/-- A loop that adds the image of each item to a list makes the list of images. -/
theorem foldlM_append_images {image : Value → Outcome} {body : Value → Value → Outcome}
    (h : ∀ done item, body (.list done) item = (fun v => Value.list (done ++ [v])) <$> image item)
    (items done : List Value) :
    items.foldlM body (.list done) =
      (fun images => Value.list (done ++ images)) <$> items.mapM image := by
  induction items generalizing done with
  | nil => simp
  | cons item rest ih => simp [h, ih]

/-- Of two truth values a connective other than `xor` gives the first one if that decides it, and
the second one otherwise. -/
theorem LogicalOp.connect_pair {op : LogicalOp} (h : op ≠ .xor) (x y : Except EvalError Bool) :
    op.connect [Thunk.mk fun _ => Value.bool <$> x, Thunk.mk fun _ => Value.bool <$> y] =
      Value.bool <$> (do
        let first ← x
        if op.decides first then return first else y) := by
  cases x with
  | error err => rfl
  | ok first =>
    cases y with
    | error err => cases op <;> cases first <;> rfl
    | ok second =>
        cases op with
        | xor => exact absurd rfl h
        | and | or => cases first <;> cases second <;> rfl

theorem ArithmeticOp.apply_add_list (front back : List Value) :
    ArithmeticOp.add.apply (.list front) (.list back) = pure (.list (front ++ back)) := rfl

namespace Expr

/-! ### Expressions by their loops -/

variable {left right collection : Expr} {binder accumulator : String} {lookup : Lookup}
  {filter mapping : Option Expr} {initial body : Expr} {origin : Option String}
  {front back items : List Value}

theorem eval_reduce_loop :
    (reduce accumulator initial binder collection body origin).eval lookup = (do
      let start ← initial.eval lookup
      let items ← collection.elements lookup
      items.foldlM
        (fun acc item => body.eval ((lookup.bind accumulator acc).bind binder item)) start) := by
  simp only [eval, elements, bind_assoc]

theorem elements_of_eval (h : collection.eval lookup = .ok (.list items)) :
    collection.elements lookup = pure items := by
  rw [elements, h]
  rfl

/-- The elements of a sum of lists are those of the one and then those of the other. -/
theorem elements_add (hleft : left.eval lookup = .ok (.list front))
    (hright : right.eval lookup = .ok (.list back)) :
    (arithmetic .add left right).elements lookup = pure (front ++ back) := by
  refine elements_of_eval ?_
  rw [eval, hleft, hright]
  rfl

/-! ### Sums of lists as collections -/

section Sum

variable {origin₁ origin₂ : Option String} (hleft : left.eval lookup = .ok (.list front))
  (hright : right.eval lookup = .ok (.list back))

include hleft hright

theorem eval_comprehension_join :
    (comprehension binder (arithmetic .add left right) filter mapping origin).eval lookup =
      (arithmetic .add (comprehension binder left filter mapping origin₁)
        (comprehension binder right filter mapping origin₂)).eval lookup := by
  rw [eval_comprehension_loop, elements_add hleft hright, eval, eval_comprehension_loop,
    eval_comprehension_loop, elements_of_eval hleft, elements_of_eval hright]
  simp only [pure_bind, bind_map_left, selectImages_join, map_bind, map_pure,
    ArithmeticOp.apply_add_list]

theorem eval_reduce_join :
    (reduce accumulator initial binder (arithmetic .add left right) body origin).eval lookup =
      (reduce accumulator (reduce accumulator initial binder left body origin₁) binder right body
        origin₂).eval lookup := by
  rw [eval_reduce_loop, elements_add hleft hright, eval_reduce_loop, eval_reduce_loop,
    elements_of_eval hleft, elements_of_eval hright]
  simp only [pure_bind, bind_assoc, List.foldlM_append]

/-- A quantifier over a sum is a connective of what it says of both lists, if it goes on from the
first list to the second one as the connective does. -/
theorem eval_quantified_join {quantifier : Quantifier} (hquantifier : quantifier ≠ .exists)
    {op : LogicalOp} (hop : op ≠ .xor)
    (hscan : ∀ test, quantifier.scan test (front ++ back) = (do
      let first ← quantifier.scan test front
      if op.decides first then return first else quantifier.scan test back)) :
    (quantified quantifier binder (arithmetic .add left right) filter origin).eval lookup =
      (logical op [quantified quantifier binder left filter origin₁,
        quantified quantifier binder right filter origin₂]).eval lookup := by
  rw [eval_quantified_loop hquantifier, elements_add hleft hright, eval, delayEach, delayEach,
    delayEach, eval_quantified_loop hquantifier, eval_quantified_loop hquantifier,
    elements_of_eval hleft, elements_of_eval hright, LogicalOp.connect_pair hop]
  simp only [pure_bind, hscan]

end Sum

/-- Over the sum of two lists, a comprehension gives the sum of what it gives over each of them; a
reduction over the second list begins with what the one over the first list comes to; `any` holds
if it holds of the one or of the other, and `all` and `none` if they hold of the one and of the
other. Where one side fails the other side fails with the same error. -/
theorem eval_over_join (hleft : left.eval lookup = .ok (.list front))
    (hright : right.eval lookup = .ok (.list back)) (binder accumulator : String)
    (filter mapping : Option Expr) (initial body : Expr) (origin origin₁ origin₂ : Option String) :
    (comprehension binder (arithmetic .add left right) filter mapping origin).eval lookup =
        (arithmetic .add (comprehension binder left filter mapping origin₁)
          (comprehension binder right filter mapping origin₂)).eval lookup ∧
      (reduce accumulator initial binder (arithmetic .add left right) body origin).eval lookup =
        (reduce accumulator (reduce accumulator initial binder left body origin₁) binder right body
          origin₂).eval lookup ∧
      (quantified .any binder (arithmetic .add left right) filter origin).eval lookup =
        (logical .or [quantified .any binder left filter origin₁,
          quantified .any binder right filter origin₂]).eval lookup ∧
      (quantified .all binder (arithmetic .add left right) filter origin).eval lookup =
        (logical .and [quantified .all binder left filter origin₁,
          quantified .all binder right filter origin₂]).eval lookup ∧
      (quantified .none binder (arithmetic .add left right) filter origin).eval lookup =
        (logical .and [quantified .none binder left filter origin₁,
          quantified .none binder right filter origin₂]).eval lookup := by
  refine ⟨eval_comprehension_join hleft hright, eval_reduce_join hleft hright, ?_, ?_, ?_⟩
  · refine eval_quantified_join hleft hright (by decide) (by decide) fun test => ?_
    simp only [Quantifier.scan, anyM_join]
    refine bind_congr fun found => ?_
    cases found <;> rfl
  · refine eval_quantified_join hleft hright (by decide) (by decide) fun test => ?_
    simp only [Quantifier.scan, allM_join]
    refine bind_congr fun passed => ?_
    cases passed <;> rfl
  · -- an element that is found makes `none` false, and so decides the conjunction
    refine eval_quantified_join hleft hright (by decide) (by decide) fun test => ?_
    simp only [Quantifier.scan, anyM_join, map_bind, bind_map_left]
    refine bind_congr fun found => ?_
    cases found <;> rfl

/-- The second list has an element that cannot be negated. `any` is decided before it comes there,
and so is the disjunction; `all` is not, and both sides fail. -/
theorem eval_over_join_not :
    (constant (.list [.bool false])).eval (fun _ => none) = .ok (.list [.bool false]) ∧
      (constant (.list [.int 1])).eval (fun _ => none) = .ok (.list [.int 1]) ∧
      (logical .or [quantified .any "x" (constant (.list [.bool false]))
          (some (unary .not (label "x"))) none, quantified .any "x" (constant (.list [.int 1]))
          (some (unary .not (label "x"))) none]).eval (fun _ => none) = .ok (.bool true) ∧
      (logical .and [quantified .all "x" (constant (.list [.bool false]))
          (some (unary .not (label "x"))) none, quantified .all "x" (constant (.list [.int 1]))
          (some (unary .not (label "x"))) none]).eval (fun _ => none) =
        .error (.invalidOperands (.unary .not) .int none) := by
  have hleft : (constant (.list [.bool false])).eval (fun _ => none) =
      .ok (.list [.bool false]) := rfl
  have hright : (constant (.list [.int 1])).eval (fun _ => none) = .ok (.list [.int 1]) := rfl
  obtain ⟨-, -, hany, hall, -⟩ := eval_over_join hleft hright "x" "acc"
    (some (unary .not (label "x"))) none (label "y") (label "acc") none none none
  exact ⟨hleft, hright, hany.symm.trans rfl, hall.symm.trans rfl⟩

/-! ### Comprehensions as reductions -/

/-- A reduction whose accumulator is a list adds to it a list of the value of one expression, which
has this value without the accumulator too. -/
theorem eval_add_singleton (hne : accumulator ≠ binder) (hfree : accumulator ∉ body.freeNames)
    (done : List Value) (item : Value) :
    (arithmetic .add (label accumulator) (list [body])).eval
        ((lookup.bind accumulator (.list done)).bind binder item) =
      (fun v => Value.list (done ++ [v])) <$> body.eval (lookup.bind binder item) := by
  have hbody : body.eval ((lookup.bind accumulator (.list done)).bind binder item) =
      body.eval (lookup.bind binder item) := by
    refine eval_congr fun name hname => bind_congr_of_ne fun _ => ?_
    rw [Lookup.bind, if_neg]
    rintro rfl
    exact hfree hname
  have haccumulator : (label accumulator).eval
      ((lookup.bind accumulator (.list done)).bind binder item) = pure (.list done) := by
    simp [eval, Lookup.bind, hne, pure, Except.pure]
  rw [eval, haccumulator, eval, delayEach, delayEach]
  simp [Thunk.get, hbody, ArithmeticOp.apply_add_list]

/-- A comprehension that keeps all elements has the outcome of the reduction that begins with the
empty list and adds the list of one image at each element, as long as the accumulator is another name
than the variable and not free in the mapping. -/
theorem eval_comprehension_eq_reduce (hne : accumulator ≠ binder)
    (hfree : accumulator ∉ body.freeNames) (collection : Expr) (lookup : Lookup)
    (origin origin' : Option String) :
    ∀ initial ∈ [list [], constant (.list [])],
      (comprehension binder collection none (some body) origin).eval lookup =
        (reduce accumulator initial binder collection
          (arithmetic .add (label accumulator) (list [body])) origin').eval lookup := by
  intro initial hmem
  have hinitial : initial.eval lookup = pure (.list []) := by
    rcases List.mem_pair.1 hmem with rfl | rfl <;> rfl
  rw [eval_comprehension_loop, eval_reduce_loop, hinitial, pure_bind, map_bind]
  refine bind_congr fun items => ?_
  rw [foldlM_append_images (eval_add_singleton hne hfree)]
  exact congrArg (Value.list <$> ·) (selectImages_all _ items)

/-- The image of the second element is an error, and both loops end with it. -/
theorem eval_comprehension_eq_reduce_minus :
    "acc" ≠ "x" ∧ "acc" ∉ (unary .minus (label "x")).freeNames ∧
      list [] ∈ [list [], constant (.list [])] ∧
      (reduce "acc" (list []) "x" (constant (.list [.int 1, .bool true]))
        (arithmetic .add (label "acc") (list [unary .minus (label "x")])) none).eval
          (fun _ => none) = .error (.invalidOperands (.unary .minus) .bool none) := by
  have hne : "acc" ≠ "x" := by decide
  have hfree : "acc" ∉ (unary .minus (label "x")).freeNames := by decide
  have hmem : list [] ∈ [list [], constant (.list [])] := List.mem_cons_self
  have hsame := eval_comprehension_eq_reduce hne hfree (constant (.list [.int 1, .bool true]))
    (fun _ => none) none none _ hmem
  exact ⟨hne, hfree, hmem, hsame.symm.trans rfl⟩

end Expr

end GraphQuery
