import GraphQuery.Expr.Eval
import GraphQuery.Proofs.Fallible

/-!
# Quantifiers and comprehensions

A quantifier stops at the element that decides it, while a list comprehension asks its filter about
every element. Where the filter answers throughout, the quantifier says how many elements the
comprehension keeps. Where it does not, the comprehension fails with its first error, and the
quantifier either is decided by the elements before or fails with the same error: what comes after
the first error is never looked at.

## Main definitions

* `Answers`: a test gives an answer on every one of some items.
* `passes`: a test answers that an item passes.
* `Expr.elements`, `Expr.filterTest`: the elements of a collection and the test of a filter.

## Main results

* `answers_or_first_error`: either a test answers on all items, or it fails on a first one.
* `anyM_append`, `allM_append`, `exactlyOne_append`, `selectImages_append`: the loops beyond items
  on which the test answers.
* `Expr.quantifiers_agree`: quantifiers by what the comprehension keeps or fails with.
-/

namespace GraphQuery

variable {test : Value → Except EvalError Bool} {before : List Value} {item : Value}

/-! ### Answered items -/

/-- A test gives an answer on every one of some items. -/
def Answers (test : Value → Except EvalError Bool) (items : List Value) : Prop :=
  ∀ item ∈ items, ∃ b, test item = .ok b

/-- A test answers that an item passes. -/
def passes (test : Value → Except EvalError Bool) (item : Value) : Bool :=
  match test item with
  | .ok b => b
  | .error _ => false

theorem passes_of_eq_ok {b : Bool} (h : test item = .ok b) : passes test item = b := by
  rw [passes, h]

/-- Either a test answers on all items, or there is a first one on which it fails. -/
theorem answers_or_first_error (test : Value → Except EvalError Bool) (items : List Value) :
    Answers test items ∨ ∃ before item after err, items = before ++ item :: after ∧
      Answers test before ∧ test item = .error err := by
  induction items with
  | nil => exact .inl fun _ hitem => absurd hitem List.not_mem_nil
  | cons item items ih =>
      cases hitem : test item with
      | error err =>
          exact .inr ⟨[], item, items, err, rfl, fun _ h => absurd h List.not_mem_nil, hitem⟩
      | ok b =>
          rcases ih with hall | ⟨before, failing, after, err, rfl, hbefore, hfailing⟩
          · exact .inl (List.forall_mem_cons.2 ⟨⟨b, hitem⟩, hall⟩)
          · exact .inr ⟨item :: before, failing, after, err, rfl,
              List.forall_mem_cons.2 ⟨⟨b, hitem⟩, hbefore⟩, hfailing⟩

/-! ### Loops that stop early -/

/-- Whether any item passes is decided by the first one that does. -/
theorem anyM_append (h : Answers test before) (rest : List Value) :
    (before ++ rest).anyM test =
      if 1 ≤ before.countP (passes test) then .ok true else rest.anyM test := by
  induction before with
  | nil => rfl
  | cons item before ih =>
      obtain ⟨⟨b, hitem⟩, hbefore⟩ := List.forall_mem_cons.1 h
      rw [List.cons_append, List.anyM, hitem, List.countP_cons, passes_of_eq_ok hitem]
      cases b with
      | true => rw [if_pos rfl, if_pos (Nat.le_add_left 1 _)]; rfl
      | false => exact ih hbefore

/-- Whether all items pass is decided by the first one that does not. -/
theorem allM_append (h : Answers test before) (rest : List Value) :
    (before ++ rest).allM test =
      if before.countP (passes test) < before.length then .ok false else rest.allM test := by
  induction before with
  | nil => rfl
  | cons item before ih =>
      obtain ⟨⟨b, hitem⟩, hbefore⟩ := List.forall_mem_cons.1 h
      rw [List.cons_append, List.allM, hitem, List.countP_cons, passes_of_eq_ok hitem,
        List.length_cons]
      cases b with
      | true =>
          simp only [if_true, Nat.add_lt_add_iff_right]
          exact ih hbefore
      | false =>
          have hle : before.countP (passes test) ≤ before.length := List.countP_le_length
          rw [if_pos (by simpa using Nat.lt_succ_of_le hle)]
          rfl

/-- Whether exactly one item passes is decided by the second one that does. -/
theorem exactlyOne_append (h : Answers test before) (rest : List Value) :
    exactlyOne test (before ++ rest) =
      if 2 ≤ before.countP (passes test) then .ok false
      else if before.countP (passes test) = 1 then (!·) <$> rest.anyM test
      else exactlyOne test rest := by
  induction before with
  | nil => rfl
  | cons item before ih =>
      obtain ⟨⟨b, hitem⟩, hbefore⟩ := List.forall_mem_cons.1 h
      rw [List.cons_append, exactlyOne, hitem, List.countP_cons, passes_of_eq_ok hitem]
      cases b with
      | true =>
          -- with one match found, the loop only asks whether another one follows
          have hone : (do return !(← (before ++ rest).anyM test)) =
              (!·) <$> (before ++ rest).anyM test := bind_pure_comp _ _
          refine hone.trans ?_
          rw [anyM_append hbefore, if_pos rfl]
          by_cases hmatch : 1 ≤ before.countP (passes test)
          · rw [if_pos hmatch, if_pos (Nat.succ_le_succ hmatch)]
            rfl
          · rw [if_neg hmatch, Nat.lt_one_iff.1 (Nat.not_le.1 hmatch)]
            rfl
      | false => exact ih hbefore

/-- The items on which the test answers are kept if they pass. -/
theorem selectImages_append (h : Answers test before) (rest : List Value) :
    selectImages test .ok (before ++ rest) =
      (before.filter (passes test) ++ ·) <$> selectImages test .ok rest := by
  induction before with
  | nil => simp
  | cons item before ih =>
      obtain ⟨⟨b, hitem⟩, hbefore⟩ := List.forall_mem_cons.1 h
      rw [List.cons_append, selectImages, hitem, List.filter_cons, passes_of_eq_ok hitem, ih hbefore]
      cases b with
      | true =>
          rw [if_pos rfl]
          cases selectImages test .ok rest <;> rfl
      | false => rfl

/-! ### Loops over items that are all answered -/

section Answered

variable {items : List Value} (h : Answers test items)

include h

/-- With nothing beyond them, answered items decide in either way. -/
theorem anyM_of_answers : items.anyM test = .ok (1 ≤ items.countP (passes test)) := by
  have hloop := anyM_append h []
  rw [List.append_nil] at hloop
  rw [hloop]
  split
  · rename_i hsome
    rw [decide_eq_true hsome]
  · rename_i hnone
    rw [decide_eq_false hnone]
    rfl

theorem allM_of_answers : items.allM test = .ok (items.countP (passes test) = items.length) := by
  have hle : items.countP (passes test) ≤ items.length := List.countP_le_length
  have hloop := allM_append h []
  rw [List.append_nil] at hloop
  rw [hloop]
  split
  · rename_i hlt
    rw [decide_eq_false (Nat.ne_of_lt hlt)]
  · rename_i hge
    rw [decide_eq_true (Nat.le_antisymm hle (Nat.not_lt.1 hge))]
    rfl

theorem exactlyOne_of_answers :
    exactlyOne test items = .ok (items.countP (passes test) = 1) := by
  have hloop := exactlyOne_append h []
  rw [List.append_nil] at hloop
  rw [hloop]
  split
  · rename_i htwo
    rw [decide_eq_false (Nat.ne_of_gt htwo)]
  · split
    · rename_i hone
      rw [decide_eq_true hone]
      rfl
    · rename_i hne
      rw [decide_eq_false hne]
      rfl

theorem selectImages_of_answers :
    selectImages test .ok items = .ok (items.filter (passes test)) := by
  have hloop := selectImages_append h []
  rw [List.append_nil] at hloop
  rw [hloop]
  exact congrArg Except.ok (List.append_nil _)

end Answered

/-! ### Loops that come to a first error -/

section FirstError

variable {err : EvalError} (h : Answers test before) (herr : test item = .error err)
  (after : List Value)

include h herr

theorem anyM_of_first_error : (before ++ item :: after).anyM test =
    if 1 ≤ before.countP (passes test) then .ok true else .error err := by
  rw [anyM_append h, List.anyM, herr]
  rfl

theorem allM_of_first_error : (before ++ item :: after).allM test =
    if before.countP (passes test) < before.length then .ok false else .error err := by
  rw [allM_append h, List.allM, herr]
  rfl

theorem exactlyOne_of_first_error : exactlyOne test (before ++ item :: after) =
    if 2 ≤ before.countP (passes test) then .ok false else .error err := by
  -- whether one item has passed or none, the next one asked about is the first error
  rw [exactlyOne_append h, exactlyOne, List.anyM, herr]
  exact congrArg (ite _ _) (ite_self _)

theorem selectImages_of_first_error :
    selectImages test .ok (before ++ item :: after) = .error err := by
  rw [selectImages_append h, selectImages, herr]
  rfl

end FirstError

/-! ### Expressions -/

/-- What a quantifier other than `exists` makes of the elements of a collection. -/
def Quantifier.scan (quantifier : Quantifier) (test : Value → Except EvalError Bool)
    (items : List Value) : Except EvalError Bool :=
  match quantifier with
  | .all => items.allM test
  | .any => items.anyM test
  | .single => exactlyOne test items
  | .none => (!·) <$> items.anyM test
  | .exists => .ok !items.isEmpty

theorem Quantifier.test_eq_scan {quantifier : Quantifier} (h : quantifier ≠ .exists)
    (collection : Value) :
    quantifier.test test collection = collection.elements >>= quantifier.scan test := by
  cases quantifier with
  | «exists» => exact absurd rfl h
  | none => simp only [Quantifier.test, bind_pure_comp]; rfl
  | _ => rfl

namespace Expr

/-- The elements of what an expression evaluates to. -/
def elements (collection : Expr) (lookup : Lookup) : Except EvalError (List Value) := do
  (← collection.eval lookup).elements

/-- The test that a filter makes of items under a name. -/
def filterTest (filter : Expr) (binder : String) (lookup : Lookup) (item : Value) :
    Except EvalError Bool := do
  return (← filter.eval (lookup.bind binder item)).isTruthy

variable {collection filter : Expr} {binder : String} {lookup : Lookup}
  {origin origin' : Option String}

theorem eval_comprehension_loop {filter mapping : Option Expr} :
    (comprehension binder collection filter mapping origin).eval lookup =
      Value.list <$> (collection.elements lookup >>= selectImages
        (fun item => satisfies filter (fun _ => true) (lookup.bind binder item) item)
        (fun item => evalPart mapping (lookup.bind binder item) item)) := by
  simp only [eval, elements, bind_pure_comp, bind_assoc, map_bind]

theorem eval_quantified_loop {filter : Option Expr} {quantifier : Quantifier}
    (h : quantifier ≠ .exists) :
    (quantified quantifier binder collection filter origin).eval lookup =
      Value.bool <$> (collection.elements lookup >>= quantifier.scan
        fun item => satisfies filter Value.isTruthy (lookup.bind binder item) item) := by
  simp only [eval, elements, bind_pure_comp, bind_assoc, map_bind, Quantifier.test_eq_scan h]

theorem eval_comprehension_filter :
    (comprehension binder collection (some filter) none origin).eval lookup =
      Value.list <$> (collection.elements lookup >>=
        selectImages (filter.filterTest binder lookup) .ok) :=
  eval_comprehension_loop

theorem eval_quantified_filter {quantifier : Quantifier} (h : quantifier ≠ .exists) :
    (quantified quantifier binder collection (some filter) origin).eval lookup =
      Value.bool <$> (collection.elements lookup >>=
        quantifier.scan (filter.filterTest binder lookup)) :=
  eval_quantified_loop h

/-- `none` is the negation of `any`, with a filter and without. -/
theorem eval_none_eq_not_any (filter : Option Expr) (origin' : Option String) :
    (quantified .none binder collection filter origin).eval lookup =
      (unary .not (quantified .any binder collection filter origin')).eval lookup := by
  simp only [eval, Quantifier.test, bind_assoc, pure_bind]
  rfl

/-- Without a filter an element counts as the value of the variable does. -/
theorem eval_quantified_unfiltered (quantifier : Quantifier) (origin' : Option String) :
    (quantified quantifier binder collection none origin).eval lookup =
      (quantified quantifier binder collection (some (label binder)) origin').eval lookup := by
  have htest (item : Value) : satisfies none Value.isTruthy (lookup.bind binder item) item =
      satisfies (some (label binder)) Value.isTruthy (lookup.bind binder item) item := by
    rw [satisfies, satisfies, eval, Lookup.bind, if_pos rfl]
    rfl
  simp only [eval, htest]

/-! ### All elements answered, a first error, or no elements -/

/-- Either the filter answers on all elements, or it fails on a first one, or there are none to
answer on. -/
theorem elements_cases (collection filter : Expr) (binder : String) (lookup : Lookup) :
    (∃ items, collection.elements lookup = .ok items ∧
        Answers (filter.filterTest binder lookup) items) ∨
      (∃ before item after err, collection.elements lookup = .ok (before ++ item :: after) ∧
        Answers (filter.filterTest binder lookup) before ∧
        filter.filterTest binder lookup item = .error err) ∨
      ∃ err, collection.elements lookup = .error err := by
  cases hitems : collection.elements lookup with
  | error err => exact .inr (.inr ⟨err, rfl⟩)
  | ok items =>
      rcases answers_or_first_error (filter.filterTest binder lookup) items with h | h
      · exact .inl ⟨items, rfl, h⟩
      · obtain ⟨before, item, after, err, rfl, h, herr⟩ := h
        exact .inr (.inl ⟨before, item, after, err, rfl, h, herr⟩)

section Cases

variable {items before after : List Value} {item : Value} {err : EvalError}

/-- The elements that pass are kept. -/
theorem comprehension_of_answers (hitems : collection.elements lookup = .ok items)
    (h : Answers (filter.filterTest binder lookup) items) :
    (comprehension binder collection (some filter) none origin).eval lookup =
      .ok (.list (items.filter (passes (filter.filterTest binder lookup)))) := by
  rw [eval_comprehension_filter, hitems]
  exact congrArg (Value.list <$> ·) (selectImages_of_answers h)

/-- Quantifiers say how many elements pass. -/
theorem quantified_of_answers {n : Nat} (hitems : collection.elements lookup = .ok items)
    (h : Answers (filter.filterTest binder lookup) items)
    (hn : items.countP (passes (filter.filterTest binder lookup)) = n) :
    (quantified .any binder collection (some filter) origin).eval lookup =
        .ok (.bool (1 ≤ n)) ∧
      (quantified .none binder collection (some filter) origin).eval lookup =
        .ok (.bool (n = 0)) ∧
      (quantified .single binder collection (some filter) origin).eval lookup =
        .ok (.bool (n = 1)) ∧
      (quantified .all binder collection (some filter) origin).eval lookup =
        .ok (.bool (n = items.length)) := by
  have hany := anyM_of_answers h
  have hone := exactlyOne_of_answers h
  have hall := allM_of_answers h
  have hnone : (!decide (1 ≤ n)) = decide (n = 0) := by cases n <;> simp
  rw [hn] at hany hone hall
  refine ⟨?_, ?_, ?_, ?_⟩
  all_goals rw [eval_quantified_filter (by simp), hitems]
  · exact congrArg (Value.bool <$> ·) hany
  · rw [← hnone]
    exact congrArg (fun outcome => Value.bool <$> (!·) <$> outcome) hany
  · exact congrArg (Value.bool <$> ·) hone
  · exact congrArg (Value.bool <$> ·) hall

theorem comprehension_of_first_error
    (hitems : collection.elements lookup = .ok (before ++ item :: after))
    (h : Answers (filter.filterTest binder lookup) before)
    (herr : filter.filterTest binder lookup item = .error err) :
    (comprehension binder collection (some filter) none origin).eval lookup = .error err := by
  rw [eval_comprehension_filter, hitems]
  exact congrArg (Value.list <$> ·) (selectImages_of_first_error h herr after)

/-- Quantifiers are decided by the elements before the first error, or they come to it too. -/
theorem quantified_of_first_error {n : Nat}
    (hitems : collection.elements lookup = .ok (before ++ item :: after))
    (h : Answers (filter.filterTest binder lookup) before)
    (herr : filter.filterTest binder lookup item = .error err)
    (hn : before.countP (passes (filter.filterTest binder lookup)) = n) :
    (quantified .any binder collection (some filter) origin).eval lookup =
        (if 1 ≤ n then .ok (.bool true) else .error err) ∧
      (quantified .none binder collection (some filter) origin).eval lookup =
        (if 1 ≤ n then .ok (.bool false) else .error err) ∧
      (quantified .single binder collection (some filter) origin).eval lookup =
        (if 2 ≤ n then .ok (.bool false) else .error err) ∧
      (quantified .all binder collection (some filter) origin).eval lookup =
        (if n < before.length then .ok (.bool false) else .error err) := by
  have hany := anyM_of_first_error h herr after
  have hone := exactlyOne_of_first_error h herr after
  have hall := allM_of_first_error h herr after
  rw [hn] at hany hone hall
  refine ⟨?_, ?_, ?_, ?_⟩
  all_goals rw [eval_quantified_filter (by simp), hitems]
  · refine (congrArg (Value.bool <$> ·) hany).trans ?_
    split <;> rfl
  · refine (congrArg (fun outcome => Value.bool <$> (!·) <$> outcome) hany).trans ?_
    split <;> rfl
  · refine (congrArg (Value.bool <$> ·) hone).trans ?_
    split <;> rfl
  · refine (congrArg (Value.bool <$> ·) hall).trans ?_
    split <;> rfl

theorem comprehension_of_elements_error (h : collection.elements lookup = .error err) :
    (comprehension binder collection (some filter) none origin).eval lookup = .error err := by
  rw [eval_comprehension_filter, h]
  rfl

theorem quantified_of_elements_error (h : collection.elements lookup = .error err)
    {quantifier : Quantifier} (hne : quantifier ≠ .exists) :
    (quantified quantifier binder collection (some filter) origin).eval lookup = .error err := by
  rw [eval_quantified_filter hne, h]
  rfl

end Cases

/-- Quantifiers agree with the list comprehension over the same elements and with the same filter.
If it keeps elements, they count these; if it fails at an element, they are decided by the elements
before it or fail with its error; and if there are no elements, all fail alike. It fails in no other
way. In all cases `none` negates `any`, and without a filter the variable itself is the filter. -/
theorem quantifiers_agree (binder : String) (collection filter : Expr) (lookup : Lookup)
    (origin origin' : Option String) :
    let kept := (comprehension binder collection (some filter) none origin).eval lookup
    let outcome := fun quantifier =>
      (quantified quantifier binder collection (some filter) origin').eval lookup
    let test := filter.filterTest binder lookup
    (∀ list, kept = .ok list → ∃ items chosen, collection.elements lookup = .ok items ∧
        list = .list chosen ∧ outcome .any = .ok (.bool (1 ≤ chosen.length)) ∧
        outcome .none = .ok (.bool (chosen.length = 0)) ∧
        outcome .single = .ok (.bool (chosen.length = 1)) ∧
        outcome .all = .ok (.bool (chosen.length = items.length))) ∧
      (∀ before item after err, collection.elements lookup = .ok (before ++ item :: after) →
        Answers test before → test item = .error err → kept = .error err ∧
        outcome .any = (if 1 ≤ before.countP (passes test) then .ok (.bool true)
          else .error err) ∧
        outcome .none = (if 1 ≤ before.countP (passes test) then .ok (.bool false)
          else .error err) ∧
        outcome .single = (if 2 ≤ before.countP (passes test) then .ok (.bool false)
          else .error err) ∧
        outcome .all = (if before.countP (passes test) < before.length then .ok (.bool false)
          else .error err)) ∧
      (∀ err, collection.elements lookup = .error err → kept = .error err ∧
        ∀ quantifier, quantifier ≠ .exists → outcome quantifier = .error err) ∧
      (∀ err, kept = .error err → collection.elements lookup = .error err ∨
        ∃ before item after, collection.elements lookup = .ok (before ++ item :: after) ∧
          Answers test before ∧ test item = .error err) ∧
      (∀ filter, (quantified .none binder collection filter origin).eval lookup =
        (unary .not (quantified .any binder collection filter origin')).eval lookup) ∧
      ∀ quantifier, (quantified quantifier binder collection none origin).eval lookup =
        (quantified quantifier binder collection (some (label binder)) origin').eval lookup := by
  intro kept outcome test
  have hcases := elements_cases collection filter binder lookup
  refine ⟨fun list hlist => ?_, fun before item after err hitems h herr => ?_,
    fun err herr => ?_, fun err herr => ?_, fun filter => eval_none_eq_not_any filter origin',
    fun quantifier => eval_quantified_unfiltered quantifier origin'⟩
  · rcases hcases with ⟨items, hitems, h⟩ | ⟨before, item, after, err, hitems, h, herr⟩ | ⟨err, herr⟩
    · have hchosen := Except.ok.inj (hlist.symm.trans (comprehension_of_answers hitems h))
      exact ⟨items, _, hitems, hchosen,
        quantified_of_answers hitems h List.countP_eq_length_filter⟩
    · cases hlist.symm.trans (comprehension_of_first_error hitems h herr)
    · cases hlist.symm.trans (comprehension_of_elements_error herr)
  · exact ⟨comprehension_of_first_error hitems h herr,
      quantified_of_first_error hitems h herr rfl⟩
  · exact ⟨comprehension_of_elements_error herr, fun _ => quantified_of_elements_error herr⟩
  · rcases hcases with ⟨items, hitems, h⟩ | ⟨before, item, after, err', hitems, h, herr'⟩ |
      ⟨err', herr'⟩
    · cases herr.symm.trans (comprehension_of_answers hitems h)
    · obtain rfl := Except.error.inj
        (herr.symm.trans (comprehension_of_first_error hitems h herr'))
      exact .inr ⟨before, item, after, hitems, h, herr'⟩
    · obtain rfl := Except.error.inj (herr.symm.trans (comprehension_of_elements_error herr'))
      exact .inl herr'

/-- A match before an element that cannot be negated decides `any` and leaves `single` to fail. -/
theorem quantifiers_agree_not :
    (quantified .any "x" (constant (.list [.bool false, .int 1])) (some (unary .not (label "x")))
        none).eval (fun _ => none) = .ok (.bool true) ∧
      (quantified .single "x" (constant (.list [.bool false, .int 1]))
        (some (unary .not (label "x"))) none).eval (fun _ => none) =
          .error (.invalidOperands (.unary .not) .int none) := by
  obtain ⟨-, herror, -⟩ := quantifiers_agree "x" (constant (.list [.bool false, .int 1]))
    (unary .not (label "x")) (fun _ => none) none none
  have hanswers : Answers ((unary .not (label "x")).filterTest "x" fun _ => none)
      [.bool false] := by
    intro item hitem
    obtain rfl := List.mem_singleton.1 hitem
    exact ⟨true, rfl⟩
  obtain ⟨-, hany, -, hsingle, -⟩ := herror [.bool false] (.int 1) [] _ rfl hanswers rfl
  exact ⟨hany, hsingle⟩

end Expr

end GraphQuery
