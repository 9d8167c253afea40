import GraphQuery.Proofs.Value.Compare

/-!
# Values of the same shape

Two numbers have the same shape, and so have two texts, two truth values, and two lists with
elements of the same shape at the positions that they share. Values of the same shape differ in what
is compared, not in whether it compares: the only obstacle to their order is a NaN, and only if all
elements before it are equal.

## Main definitions

* `Value.sameShape`: two values consist of the same kinds of things that have an order.
* `Value.meetsNaN`: the comparison of two values comes to a NaN.

## Main results

* `Value.order?_eq_none_iff`: when two values of the same shape have no order.
-/

namespace GraphQuery

namespace Value

/-- Whether a value is an integer or a float. -/
def isNumber : Value → Bool
  | .int _ | .float _ => true
  | _ => false

/-- Whether a value is a float that is no number. -/
def isNaN : Value → Bool
  | .float x => x.isNaN
  | _ => false

mutual

/-- Whether two values are both numbers, both texts, both truth values, or both lists with elements
of the same shape at common positions. -/
def sameShape : Value → Value → Bool
  | .bool _, .bool _ | .string _, .string _ => true
  | .list as, .list bs => sameShapeItems as bs
  | a, b => a.isNumber && b.isNumber

def sameShapeItems : List Value → List Value → Bool
  | a :: as, b :: bs => sameShape a b && sameShapeItems as bs
  | _, _ => true

end

mutual

/-- Whether the comparison of two values comes to a NaN. In lists it comes as far as the elements
are equal. -/
def meetsNaN : Value → Value → Bool
  | .list as, .list bs => meetsNaNItems as bs
  | a, b => a.isNaN || b.isNaN

def meetsNaNItems : List Value → List Value → Bool
  | a :: as, b :: bs => meetsNaN a b || (looseEq a b && meetsNaNItems as bs)
  | _, _ => false

end

/-- Two numbers have no order exactly if one of them is a NaN. -/
theorem order?_eq_none_iff_of_isNumber {a b : Value} (ha : a.isNumber = true)
    (hb : b.isNumber = true) : a.order? b = none ↔ (a.isNaN || b.isNaN) = true := by
  cases a with
  | int m =>
      cases b with
      | int n => simp [order?, isNaN]
      | float y => simp [order?, isNaN, Binary64.compare?_eq_none_iff, Binary64.isNaN_ofInt]
      | _ => cases hb
  | float x =>
      cases b with
      | int n => simp [order?, isNaN, Binary64.compare?_eq_none_iff, Binary64.isNaN_ofInt]
      | float y => simp [order?, isNaN, Binary64.compare?_eq_none_iff]
      | _ => cases hb
  | _ => cases ha

/-- Lists have no order if their first elements have none, or if these are equal and the rest has
none. -/
theorem orderItems?_cons_eq_none_iff {a b : Value} {as bs : List Value} :
    orderItems? (a :: as) (b :: bs) = none ↔
      a.order? b = none ∨ (a.order? b = some .eq ∧ orderItems? as bs = none) := by
  rw [orderItems?]
  rcases a.order? b with _ | _ | _ | _ <;> simp

/-- The order of two values that have one is equality exactly if they are equal. -/
theorem order?_eq_some_eq_iff {a b : Value} (h : a.order? b ≠ none) :
    a.order? b = some .eq ↔ a.looseEq b = true := by
  obtain ⟨o, ho⟩ := Option.ne_none_iff_exists'.1 h
  rw [looseEq_of_order? ho, ho, Option.some_inj, Ordering.isEq_iff_eq_eq]

theorem ne_null_of_sameShape {a b : Value} (h : a.sameShape b = true) : a ≠ .null ∧ b ≠ .null := by
  constructor
  · rintro rfl
    cases b <;> cases h
  · rintro rfl
    cases a <;> cases h

mutual

/-- Values of the same shape have no order exactly if their comparison comes to a NaN. -/
theorem order?_eq_none_iff : ∀ {a b : Value}, a.sameShape b = true →
    (a.order? b = none ↔ a.meetsNaN b = true)
  | .null, b, h | .map _, b, h => by cases b <;> cases h
  | .bool _, b, h => by
    cases b with
    | bool _ => exact iff_of_false (Option.some_ne_none _) Bool.false_ne_true
    | _ => cases h
  | .string _, b, h => by
    cases b with
    | string _ => exact iff_of_false (Option.some_ne_none _) Bool.false_ne_true
    | _ => cases h
  | .int _, b, h | .float _, b, h => by
    cases b with
    | int _ | float _ => exact order?_eq_none_iff_of_isNumber rfl rfl
    | _ => cases h
  | .list as, b, h => by
    cases b with
    | list bs => exact orderItems?_eq_none_iff h
    | _ => cases h

theorem orderItems?_eq_none_iff : ∀ {as bs : List Value}, sameShapeItems as bs = true →
    (orderItems? as bs = none ↔ meetsNaNItems as bs = true)
  | [], [], _ | [], _ :: _, _ | _ :: _, [], _ =>
    iff_of_false (Option.some_ne_none _) Bool.false_ne_true
  | a :: as, b :: bs, h => by
    rw [sameShapeItems, Bool.and_eq_true] at h
    rw [orderItems?_cons_eq_none_iff, meetsNaNItems, Bool.or_eq_true, Bool.and_eq_true,
      ← order?_eq_none_iff h.1, ← orderItems?_eq_none_iff h.2]
    by_cases hnone : a.order? b = none
    · simp [hnone]
    · rw [order?_eq_some_eq_iff hnone]

end

end Value

end GraphQuery
