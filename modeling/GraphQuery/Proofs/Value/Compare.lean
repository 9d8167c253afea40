import GraphQuery.Proofs.Binary64
import GraphQuery.Proofs.Expr.Equality
import GraphQuery.Value.Compare

/-!
# Equality and order of values

The equality and the order of the query language are defined apart from each other. Where two
values have an order, they are equal exactly if the order says so. Both may be read from the right
to the left: the equality is symmetric, and the order of two values the other way round is the
reverse of their order, so that they either have one both ways or not at all.

## Main results

* `Value.looseEq_comm`: equality is symmetric.
* `Value.order?_swap`: the order the other way round.
* `Value.looseEq_of_order?`: equality where there is an order.
-/

namespace GraphQuery

namespace Value

mutual

theorem looseEq_comm : ∀ a b : Value, a.looseEq b = b.looseEq a
  | .null, b | .bool _, b | .int _, b | .string _, b => by
    cases b <;> simp only [looseEq, BEq.comm]
  | .float x, b => by cases b <;> simp [looseEq, BEq.comm, Binary64.numericEq_comm x]
  | .list as, b => by cases b <;> simp [looseEq, BEq.comm, looseEqItems_comm as]
  | .map as, b => by cases b <;> simp [looseEq, BEq.comm, looseEqEntries_comm as]

theorem looseEqItems_comm : ∀ as bs : List Value, looseEqItems as bs = looseEqItems bs as
  | [], bs => by cases bs <;> rfl
  | a :: as, bs => by cases bs <;> simp [looseEqItems, looseEq_comm a, looseEqItems_comm as]

theorem looseEqEntries_comm : ∀ as bs : List (String × Value),
    looseEqEntries as bs = looseEqEntries bs as
  | [], bs => by cases bs <;> rfl
  | (k, a) :: as, bs => by
    cases bs <;> simp [looseEqEntries, looseEq_comm a, looseEqEntries_comm as, BEq.comm (a := k)]

end

mutual

/-- The order of two values the other way round. -/
theorem order?_swap : ∀ a b : Value, b.order? a = (a.order? b).map Ordering.swap
  | .null, b | .map _, b => by cases b <;> rfl
  | .bool x, b => by cases b <;> simp [order?, Std.OrientedOrd.eq_swap (a := x)]
  | .int m, b => by
    cases b <;> simp [order?, Std.OrientedOrd.eq_swap (a := m.toInt),
      Binary64.compare?_swap (Binary64.ofInt m.toInt)]
  | .float x, b => by cases b <;> simp [order?, Binary64.compare?_swap x]
  | .string s, b => by cases b <;> simp [order?, Std.OrientedOrd.eq_swap (a := s)]
  | .list as, b => by cases b <;> simp [order?, orderItems?_swap as]

theorem orderItems?_swap : ∀ as bs : List Value,
    orderItems? bs as = (orderItems? as bs).map Ordering.swap
  | [], bs => by cases bs <;> rfl
  | a :: as, [] => rfl
  | a :: as, b :: bs => by
    rw [orderItems?, orderItems?, order?_swap a b, orderItems?_swap as bs]
    rcases a.order? b with _ | _ | _ | _ <;> rfl

end

/-! ### What a value compares with -/

section Inversion

variable {b : Value} {o : Ordering}

theorem looseEq_int {m : Int64} :
    looseEq (.int m) b = true ↔
      b = .int m ∨ ∃ y, b = .float y ∧ (Binary64.ofInt m.toInt).numericEq y = true := by
  cases b <;> simp [looseEq, eq_comm (a := m)]

theorem looseEq_float {x : Binary64} :
    looseEq (.float x) b = true ↔
      (∃ n : Int64, b = .int n ∧ x.numericEq (.ofInt n.toInt) = true) ∨
        ∃ y, b = .float y ∧ x.numericEq y = true := by
  cases b <;> simp [looseEq, Binary64.numericEq_comm x]

theorem looseEq_list {as : List Value} :
    looseEq (.list as) b = true ↔ ∃ bs, b = .list bs ∧ looseEqItems as bs = true := by
  cases b <;> simp [looseEq]

theorem looseEq_map {as : List (String × Value)} :
    looseEq (.map as) b = true ↔ ∃ bs, b = .map bs ∧ looseEqEntries as bs = true := by
  cases b <;> simp [looseEq]

theorem order?_null_ne (b : Value) (o : Ordering) : order? .null b ≠ some o := by
  cases b <;> simp [order?]

theorem order?_map_ne (entries : List (String × Value)) (b : Value) (o : Ordering) :
    order? (.map entries) b ≠ some o := by
  cases b <;> simp [order?]

theorem order?_bool {x : Bool} :
    order? (.bool x) b = some o ↔ ∃ y, b = .bool y ∧ compare x y = o := by
  cases b <;> simp [order?]

theorem order?_string {s : String} :
    order? (.string s) b = some o ↔ ∃ t, b = .string t ∧ compare s t = o := by
  cases b <;> simp [order?]

theorem order?_int {m : Int64} :
    order? (.int m) b = some o ↔
      (∃ n, b = .int n ∧ compare m.toInt n.toInt = o) ∨
        ∃ y, b = .float y ∧ (Binary64.ofInt m.toInt).compare? y = some o := by
  cases b <;> simp [order?]

theorem order?_float {x : Binary64} :
    order? (.float x) b = some o ↔
      (∃ n, b = .int n ∧ x.compare? (.ofInt n.toInt) = some o) ∨
        ∃ y, b = .float y ∧ x.compare? y = some o := by
  cases b <;> simp [order?]

theorem order?_list {as : List Value} :
    order? (.list as) b = some o ↔ ∃ bs, b = .list bs ∧ orderItems? as bs = some o := by
  cases b <;> simp [order?]

/-- The order of lists is that of their first elements, and where these are equal it is that of
the rest. -/
theorem orderItems?_cons {a : Value} {as bs : List Value} :
    orderItems? (a :: as) (b :: bs) = some o ↔
      (a.order? b = some .eq ∧ orderItems? as bs = some o) ∨ (a.order? b = some o ∧ o ≠ .eq) := by
  rw [orderItems?]
  rcases a.order? b with _ | _ | _ | _ <;> simp
  all_goals
    rintro rfl
    simp

end Inversion

/-! ### Equality where there is an order -/

/-- The numeric equality of floats is read off their comparison. -/
theorem numericEq_of_compare? {x y : Binary64} {o : Ordering} (h : x.compare? y = some o) :
    x.numericEq y = o.isEq := by
  rw [Binary64.numericEq, h]
  cases o <;> rfl

/-- Where a lawful comparison says that two things are equal, they are. -/
theorem beq_eq_isEq_compare {α : Type} [Ord α] [Std.LawfulEqOrd α] [BEq α] [LawfulBEq α]
    (a b : α) : (a == b) = (compare a b).isEq := by
  rw [Bool.eq_iff_iff, beq_iff_eq, Ordering.isEq_iff_eq_eq, Std.compare_eq_eq_iff_eq]

mutual

/-- Values that have an order are equal exactly if this order says so. -/
theorem looseEq_of_order? : ∀ {a b : Value} {o : Ordering}, a.order? b = some o →
    a.looseEq b = o.isEq
  | .null, b, o, h => absurd h (order?_null_ne b o)
  | .map entries, b, o, h => absurd h (order?_map_ne entries b o)
  | .bool x, b, o, h => by
    obtain ⟨y, rfl, rfl⟩ := order?_bool.1 h
    exact beq_eq_isEq_compare x y
  | .string s, b, o, h => by
    obtain ⟨t, rfl, rfl⟩ := order?_string.1 h
    exact beq_eq_isEq_compare s t
  | .int m, b, o, h => by
    rcases order?_int.1 h with ⟨n, rfl, rfl⟩ | ⟨y, rfl, hy⟩
    · have hinj : (m == n) = (m.toInt == n.toInt) := by
        rw [Bool.eq_iff_iff, beq_iff_eq, beq_iff_eq, Int64.toInt_inj]
      exact hinj.trans (beq_eq_isEq_compare _ _)
    · exact numericEq_of_compare? hy
  | .float x, b, o, h => by
    rcases order?_float.1 h with ⟨n, rfl, hn⟩ | ⟨y, rfl, hy⟩
    · rw [looseEq, Binary64.numericEq_comm]
      exact numericEq_of_compare? hn
    · exact numericEq_of_compare? hy
  | .list as, b, o, h => by
    obtain ⟨bs, rfl, hbs⟩ := order?_list.1 h
    exact looseEqItems_of_orderItems? hbs

theorem looseEqItems_of_orderItems? : ∀ {as bs : List Value} {o : Ordering},
    orderItems? as bs = some o → looseEqItems as bs = o.isEq
  | [], [], o, h | [], _ :: _, o, h | _ :: _, [], o, h => by
    obtain rfl := Option.some.inj h
    rfl
  | a :: as, b :: bs, o, h => by
    rw [looseEqItems]
    rcases orderItems?_cons.1 h with ⟨hfirst, hrest⟩ | ⟨hfirst, hne⟩
    · rw [looseEq_of_order? hfirst, looseEqItems_of_orderItems? hrest]
      rfl
    · rw [looseEq_of_order? hfirst, Ordering.isEq_eq_false.2 hne]
      rfl

end

end Value

end GraphQuery
