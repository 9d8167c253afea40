import GraphQuery.Proofs.Value.Compare

/-!
# Transitivity of comparison

Integers are compared exactly with each other and as floats with floats. Past `2 ^ 53` two integers
may equal the same float without being equal, so neither equality nor the order of lists is
transitive: a list is less than another one at the first place where they are not equal, and with a
float between them two different integers count as equal.

This is all that stands in the way. Rounding keeps the order of integers, so three values of which
no float equals two different integers of the others compare as their numbers do. The order even
survives a float between an integer and a greater one: each of them equals the float, but the first
list is less than the last one at this very place. In particular, comparison is transitive where the
integers are at most `2 ^ 53` in magnitude.

## Main definitions

* `Value.conflates`: at some place, one of three values holds a float that equals two different
  integers, one of each of the other values.
* `Value.disorders`: such a place may put the outer two values out of order.

## Main results

* `Value.order?_trans`: the order of the outer two of three values.
* `Value.looseEq_trans`: the equality of the outer two of three values.
* `Value.comparison_trans`: less than less is less unless integers are out of order, and equal to
  equal is equal unless integers are conflated.
* `Value.disorders_of_not_conflates`: where no integers are conflated none are out of order.
* `Value.comparison_trans_of_exact`: comparison is transitive where integers are not rounded.
-/

namespace GraphQuery

namespace Value

/-- Whether a float equals two different integers. -/
def equalsBoth (x : Binary64) (m n : Int64) : Bool :=
  m != n && looseEq (.int m) (.float x) && looseEq (.int n) (.float x)

mutual

/-- At some place, one of three values holds a float that equals two different integers, one of
each of the other two. Elements of a list or map count as long as all before them are equal. -/
def conflates : Value → Value → Value → Bool
  | .int m, .int n, .float x | .int m, .float x, .int n | .float x, .int m, .int n =>
    equalsBoth x m n
  | .list as, .list bs, .list cs => conflatesItems as bs cs
  | .map as, .map bs, .map cs => conflatesEntries as bs cs
  | _, _, _ => false
termination_by structural a => a

def conflatesItems : List Value → List Value → List Value → Bool
  | a :: as, b :: bs, c :: cs =>
    conflates a b c || (looseEq a b && looseEq b c && conflatesItems as bs cs)
  | _, _, _ => false
termination_by structural as => as

def conflatesEntries :
    List (String × Value) → List (String × Value) → List (String × Value) → Bool
  | (_, a) :: as, (_, b) :: bs, (_, c) :: cs =>
    conflates a b c || (looseEq a b && looseEq b c && conflatesEntries as bs cs)
  | _, _, _ => false
termination_by structural as => as

end

mutual

/-- At some place up to which three values are equal, each to each, one of them holds a float that
equals two different integers, one of each of the other two. A float between an integer and a
greater one does not count: there the first value is less than the last one. -/
def disorders : Value → Value → Value → Bool
  | .int m, .float x, .int n => decide (n.toInt < m.toInt) && equalsBoth x m n
  | .int m, .int n, .float x | .float x, .int m, .int n => equalsBoth x m n
  | .list as, .list bs, .list cs => disordersItems as bs cs
  | _, _, _ => false
termination_by structural a => a

def disordersItems : List Value → List Value → List Value → Bool
  | a :: as, b :: bs, c :: cs =>
    disorders a b c || (looseEq a b && looseEq b c && looseEq a c && disordersItems as bs cs)
  | _, _, _ => false
termination_by structural as => as

end

mutual

/-- Integers that are out of order are conflated. -/
theorem disorders_of_not_conflates : ∀ {a b c : Value}, conflates a b c = false →
    disorders a b c = false
  | .null, _, _, _ | .bool _, _, _, _ | .string _, _, _, _ | .map _, _, _, _ => rfl
  | .int m, b, c, h => by
    cases b with
    | int n => cases c with
      | float x => exact h
      | _ => rfl
    | float x => cases c with
      | int n => exact Bool.and_eq_false_iff.2 (.inr h)
      | _ => rfl
    | _ => rfl
  | .float x, b, c, h => by
    cases b with
    | int m => cases c with
      | int n => exact h
      | _ => rfl
    | _ => rfl
  | .list as, b, c, h => by
    cases b with
    | list bs => cases c with
      | list cs => exact disordersItems_of_not_conflates h
      | _ => rfl
    | _ => rfl

theorem disordersItems_of_not_conflates : ∀ {as bs cs : List Value},
    conflatesItems as bs cs = false → disordersItems as bs cs = false
  | [], _, _, _ | _ :: _, [], _, _ | _ :: _, _ :: _, [], _ => rfl
  | a :: as, b :: bs, c :: cs, h => by
    rw [conflatesItems, Bool.or_eq_false_iff, Bool.and_eq_false_iff] at h
    obtain ⟨hhead, hunequal | htail⟩ := h
    · rw [disordersItems, disorders_of_not_conflates hhead, hunequal]
      rfl
    · rw [disordersItems, disorders_of_not_conflates hhead, disordersItems_of_not_conflates htail,
        Bool.and_false]
      rfl

end

/-! ### Numbers -/

/-- Where neither of two comparisons says greater, the outer two of three things compare as the
first comparison says, and then as the second one does. -/
theorem compare_then {α : Type} [Ord α] [Std.TransOrd α] {x y z : α}
    (h : (compare x y).isLE = true) (h' : (compare y z).isLE = true) :
    compare x z = (compare x y).then (compare y z) := by
  cases hxy : compare x y with
  | lt => exact Std.TransCmp.lt_of_lt_of_isLE hxy h'
  | eq => exact Std.TransCmp.congr_left hxy
  | gt =>
      rw [hxy] at h
      cases h

/-- What comes after is decisive where the first comparison does not say greater. -/
theorem then_of_ne_eq {o o' : Ordering} (ho : o.isLE = true) (ho' : o'.isLE = true)
    (hne : o' ≠ .eq) : o.then o' = o' := by
  cases o <;> cases o' <;> simp_all

theorem compare?_then {x y z : Binary64} {o o' : Ordering} (h : x.compare? y = some o)
    (h' : y.compare? z = some o') (ho : o.isLE = true) (ho' : o'.isLE = true) :
    x.compare? z = some (o.then o') := by
  obtain ⟨hx, -, rfl⟩ := Binary64.compare?_eq_some_iff.1 h
  obtain ⟨-, hz, rfl⟩ := Binary64.compare?_eq_some_iff.1 h'
  exact Binary64.compare?_eq_some_iff.2 ⟨hx, hz, compare_then ho ho'⟩

/-- The number that an integer is compared as with a float. -/
def rank (m : Int64) : Int := (Binary64.ofInt m.toInt).signedMagnitude

theorem rank_mono {m n : Int64} (h : m.toInt ≤ n.toInt) : rank m ≤ rank n :=
  Binary64.signedMagnitude_ofInt_mono h

theorem compare?_ofInt {m : Int64} {x : Binary64} {o : Ordering} :
    (Binary64.ofInt m.toInt).compare? x = some o ↔
      x.isNaN = false ∧ compare (rank m) x.signedMagnitude = o := by
  rw [Binary64.compare?_eq_some_iff, Binary64.isNaN_ofInt]
  exact ⟨fun ⟨_, hx, h⟩ => ⟨hx, h⟩, fun ⟨hx, h⟩ => ⟨rfl, hx, h⟩⟩

theorem ofInt_compare? {m : Int64} {x : Binary64} {o : Ordering} :
    x.compare? (.ofInt m.toInt) = some o ↔
      x.isNaN = false ∧ compare x.signedMagnitude (rank m) = o := by
  rw [Binary64.compare?_eq_some_iff, Binary64.isNaN_ofInt]
  exact ⟨fun ⟨hx, _, h⟩ => ⟨hx, h⟩, fun ⟨hx, h⟩ => ⟨hx, rfl, h⟩⟩

theorem equalsBoth_iff {x : Binary64} {m n : Int64} :
    equalsBoth x m n = true ↔
      m ≠ n ∧ x.isNaN = false ∧ rank m = x.signedMagnitude ∧ rank n = x.signedMagnitude := by
  have hint (l : Int64) : looseEq (.int l) (.float x) = true ↔
      x.isNaN = false ∧ rank l = x.signedMagnitude := by
    rw [looseEq, Binary64.numericEq_iff, Binary64.isNaN_ofInt]
    exact ⟨fun ⟨_, hx, h⟩ => ⟨hx, h⟩, fun ⟨hx, h⟩ => ⟨rfl, hx, h⟩⟩
  simp only [equalsBoth, Bool.and_eq_true, bne_iff_ne, hint]
  exact ⟨fun ⟨⟨hne, hx, hm⟩, _, hn⟩ => ⟨hne, hx, hm, hn⟩,
    fun ⟨hne, hx, hm, hn⟩ => ⟨⟨hne, hx, hm⟩, hx, hn⟩⟩

/-- Different integers that are not conflated do not both equal the float. -/
theorem rank_ne_of_not_equalsBoth {m n : Int64} {x : Binary64} (hx : x.isNaN = false)
    (h : equalsBoth x m n = false) (hne : m ≠ n) (hm : rank m = x.signedMagnitude) :
    rank n ≠ x.signedMagnitude :=
  fun hn => Bool.eq_false_iff.1 h (equalsBoth_iff.2 ⟨hne, hx, hm, hn⟩)

theorem toInt_lt_of_ne {m n : Int64} (hne : m ≠ n) (h : m.toInt ≤ n.toInt) : m.toInt < n.toInt :=
  Int.lt_iff_le_and_ne.2 ⟨h, fun heq => hne (Int64.toInt_inj.1 heq)⟩

/-! Three numbers none of which is greater than the next one, a float and two integers: different
integers stay apart, unless both of them are rounded to the float. -/

section Rounded

variable {m n : Int64} {x : Binary64} {o o' : Ordering} (ho : o.isLE = true) (ho' : o'.isLE = true)

include ho ho'

/-- An integer, an integer and a float. -/
theorem order_int_int_float (hconflated : equalsBoth x m n = false)
    (h : compare m.toInt n.toInt = o)
    (h' : (Binary64.ofInt n.toInt).compare? x = some o') :
    (Binary64.ofInt m.toInt).compare? x = some (o.then o') := by
  by_cases hne : m = n
  · obtain rfl := hne
    obtain rfl := h
    rw [Std.compare_self]
    exact h'
  obtain ⟨hx, rfl⟩ := compare?_ofInt.1 h'
  obtain rfl := h
  have hlt : m.toInt < n.toInt := toInt_lt_of_ne hne (Std.isLE_compare.1 ho)
  have hrank : rank m ≤ rank n := rank_mono (Int.le_of_lt hlt)
  have hle : rank n ≤ x.signedMagnitude := Std.isLE_compare.1 ho'
  have hsplit := rank_ne_of_not_equalsBoth hx hconflated hne
  rw [Int.compare_eq_lt.2 hlt]
  exact compare?_ofInt.2 ⟨hx, Int.compare_eq_lt.2 (by omega)⟩

/-- A float, an integer and an integer. -/
theorem order_float_int_int (hconflated : equalsBoth x m n = false)
    (h : x.compare? (.ofInt m.toInt) = some o) (h' : compare m.toInt n.toInt = o') :
    x.compare? (.ofInt n.toInt) = some (o.then o') := by
  by_cases hne : m = n
  · obtain rfl := hne
    obtain rfl := h'
    rw [Std.compare_self, Ordering.then_eq]
    exact h
  obtain ⟨hx, rfl⟩ := ofInt_compare?.1 h
  obtain rfl := h'
  have hlt : m.toInt < n.toInt := toInt_lt_of_ne hne (Std.isLE_compare.1 ho')
  have hrank : rank m ≤ rank n := rank_mono (Int.le_of_lt hlt)
  have hsplit := rank_ne_of_not_equalsBoth hx hconflated hne
  have hfirst : x.signedMagnitude ≤ rank m := Std.isLE_compare.1 ho
  have hdecided : x.signedMagnitude < rank n := by omega
  refine ofInt_compare?.2 ⟨hx, ?_⟩
  rw [Int.compare_eq_lt.2 hlt, Int.compare_eq_lt.2 hdecided, then_of_ne_eq ho rfl (by decide)]

/-- An integer, a float and an integer. Past an equal float there may be a greater integer, but no
smaller one. -/
theorem order_int_float_int (hordered : n.toInt < m.toInt → equalsBoth x m n = false)
    (h : (Binary64.ofInt m.toInt).compare? x = some o)
    (h' : x.compare? (.ofInt n.toInt) = some o') :
    compare m.toInt n.toInt = o.then o' ∨ compare m.toInt n.toInt = .lt := by
  obtain ⟨hx, rfl⟩ := compare?_ofInt.1 h
  obtain ⟨-, rfl⟩ := ofInt_compare?.1 h'
  by_cases hne : m = n
  · obtain rfl := hne
    left
    rw [← compare_then ho ho', Std.compare_self, Std.compare_self]
  right
  by_cases hgt : n.toInt < m.toInt
  · -- between the numbers of a greater integer and of a smaller one the float equals both
    have hrank : rank n ≤ rank m := rank_mono (Int.le_of_lt hgt)
    have hm : rank m ≤ x.signedMagnitude := Std.isLE_compare.1 ho
    have hn : x.signedMagnitude ≤ rank n := Std.isLE_compare.1 ho'
    have hequal : rank m = x.signedMagnitude := by omega
    have hequal' : rank n = x.signedMagnitude := by omega
    exact absurd hequal' (rank_ne_of_not_equalsBoth hx (hordered hgt) hne hequal)
  · exact Int.compare_eq_lt.2 (toInt_lt_of_ne hne (Int.not_lt.1 hgt))

end Rounded

/-! ### Order -/

mutual

/-- Three values none of which is greater than the next one: unless integers are out of order, the
outer two compare as the first two do, and where these are equal as the last two do; or the first
is less than the last, if there is a float between an integer and a greater one. -/
theorem order?_trans : ∀ {a b c : Value} {o o' : Ordering}, a.order? b = some o →
    b.order? c = some o' → o.isLE = true → o'.isLE = true → disorders a b c = false →
    a.order? c = some (o.then o') ∨ a.order? c = some .lt
  | .null, b, _, o, _, h, _, _, _, _ => absurd h (order?_null_ne b o)
  | .map entries, b, _, o, _, h, _, _, _, _ => absurd h (order?_map_ne entries b o)
  | .bool x, b, c, o, o', h, h', ho, ho', _ => by
    obtain ⟨y, rfl, rfl⟩ := order?_bool.1 h
    obtain ⟨z, rfl, rfl⟩ := order?_bool.1 h'
    exact .inl (congrArg some (compare_then ho ho'))
  | .string s, b, c, o, o', h, h', ho, ho', _ => by
    obtain ⟨t, rfl, rfl⟩ := order?_string.1 h
    obtain ⟨u, rfl, rfl⟩ := order?_string.1 h'
    exact .inl (congrArg some (compare_then ho ho'))
  | .int m, b, c, o, o', h, h', ho, ho', hordered => by
    rcases order?_int.1 h with ⟨n, rfl, hn⟩ | ⟨x, rfl, hx⟩
    · rcases order?_int.1 h' with ⟨l, rfl, rfl⟩ | ⟨x, rfl, hx⟩
      · obtain rfl := hn
        exact .inl (congrArg some (compare_then ho ho'))
      · exact .inl (order_int_int_float ho ho' hordered hn hx)
    · rcases order?_float.1 h' with ⟨n, rfl, hn⟩ | ⟨y, rfl, hy⟩
      · have hsmaller (hlt : n.toInt < m.toInt) : equalsBoth x m n = false := by
          rwa [disorders, decide_eq_true hlt, Bool.true_and] at hordered
        exact (order_int_float_int ho ho' hsmaller hx hn).imp (congrArg some) (congrArg some)
      · exact .inl (compare?_then hx hy ho ho')
  | .float x, b, c, o, o', h, h', ho, ho', hordered => by
    left
    rcases order?_float.1 h with ⟨m, rfl, hm⟩ | ⟨y, rfl, hy⟩
    · rcases order?_int.1 h' with ⟨n, rfl, hn⟩ | ⟨y, rfl, hy⟩
      · exact order_float_int_int ho ho' hordered hm hn
      · exact compare?_then hm hy ho ho'
    · rcases order?_float.1 h' with ⟨n, rfl, hn⟩ | ⟨z, rfl, hz⟩
      · exact compare?_then hy hn ho ho'
      · exact compare?_then hy hz ho ho'
  | .list as, b, c, o, o', h, h', ho, ho', hordered => by
    obtain ⟨bs, rfl, hbs⟩ := order?_list.1 h
    obtain ⟨cs, rfl, hcs⟩ := order?_list.1 h'
    exact orderItems?_trans hbs hcs ho ho' hordered

theorem orderItems?_trans : ∀ {as bs cs : List Value} {o o' : Ordering},
    orderItems? as bs = some o → orderItems? bs cs = some o' → o.isLE = true → o'.isLE = true →
    disordersItems as bs cs = false →
    orderItems? as cs = some (o.then o') ∨ orderItems? as cs = some .lt
  | [], [], cs, o, o', h, h', _, _, _ => by
    obtain rfl := Option.some.inj h
    exact .inl h'
  | [], _ :: _, [], o, o', _, h', _, ho', _ => by
    obtain rfl := Option.some.inj h'
    cases ho'
  | [], _ :: _, _ :: _, o, o', _, _, _, _, _ => .inr rfl
  | _ :: _, [], _, o, o', h, _, ho, _, _ => by
    obtain rfl := Option.some.inj h
    cases ho
  | _ :: _, _ :: _, [], o, o', _, h', _, ho', _ => by
    obtain rfl := Option.some.inj h'
    cases ho'
  | a :: as, b :: bs, c :: cs, o, o', h, h', ho, ho', hordered => by
    rw [disordersItems, Bool.or_eq_false_iff] at hordered
    obtain ⟨hhead, htail⟩ := hordered
    have hless (hac : a.order? c = some .lt) : orderItems? (a :: as) (c :: cs) = some .lt :=
      orderItems?_cons.2 (.inr ⟨hac, by decide⟩)
    rcases orderItems?_cons.1 h with ⟨hab, habs⟩ | ⟨hab, hne⟩ <;>
      rcases orderItems?_cons.1 h' with ⟨hbc, hbcs⟩ | ⟨hbc, hne'⟩
    · rcases order?_trans hab hbc rfl rfl hhead with hac | hac
      · -- the heads are equal, each to each, so the tails are compared
        rw [looseEq_of_order? hab, looseEq_of_order? hbc, looseEq_of_order? hac] at htail
        have hcons {o : Ordering} (hacs : orderItems? as cs = some o) :
            orderItems? (a :: as) (c :: cs) = some o := orderItems?_cons.2 (.inl ⟨hac, hacs⟩)
        exact (orderItems?_trans habs hbcs ho ho' htail).imp hcons hcons
      · exact .inr (hless hac)
    · have hac := order?_trans hab hbc rfl ho' hhead
      rw [then_of_ne_eq ho ho' hne']
      exact hac.imp (fun hac => orderItems?_cons.2 (.inr ⟨hac, hne'⟩)) hless
    · have hac := order?_trans hab hbc ho rfl hhead
      cases o with
      | lt => exact .inr (hless (hac.elim id id))
      | eq => exact absurd rfl hne
      | gt => cases ho
    · have hac := order?_trans hab hbc ho ho' hhead
      rw [then_of_ne_eq ho ho' hne'] at hac ⊢
      exact hac.imp (fun hac => orderItems?_cons.2 (.inr ⟨hac, hne'⟩)) hless

end

/-! ### Equality -/

mutual

/-- Three values each of which equals the next one: the outer two are equal exactly if no
integers are conflated. -/
theorem looseEq_trans : ∀ {a b c : Value}, a.looseEq b = true → b.looseEq c = true →
    a.looseEq c = !conflates a b c
  | .null, b, c, hab, hbc | .bool _, b, c, hab, hbc | .string _, b, c, hab, hbc => by
    obtain rfl := eq_of_beq hab
    exact hbc
  | .int m, b, c, hab, hbc => by
    rcases looseEq_int.1 hab with rfl | ⟨x, rfl, hx⟩
    · rcases looseEq_int.1 hbc with rfl | ⟨x, rfl, hx⟩
      · exact hab
      · rw [conflates, equalsBoth, bne_self_eq_false]
        exact hx
    · rcases looseEq_float.1 hbc with ⟨n, rfl, hn⟩ | ⟨y, rfl, hy⟩
      · -- the outer two are compared as integers, though both equal the float
        have hnx : looseEq (.int n) (.float x) = true := (looseEq_comm _ _).trans hbc
        rw [conflates, equalsBoth, hab, hnx, Bool.and_true, Bool.and_true]
        exact (Bool.not_not _).symm
      · exact Binary64.numericEq_trans hx hy
  | .float x, b, c, hab, hbc => by
    rcases looseEq_float.1 hab with ⟨m, rfl, hm⟩ | ⟨y, rfl, hy⟩
    · rcases looseEq_int.1 hbc with rfl | ⟨y, rfl, hy⟩
      · rw [conflates, equalsBoth, bne_self_eq_false]
        exact hab
      · exact Binary64.numericEq_trans hm hy
    · rcases looseEq_float.1 hbc with ⟨n, rfl, hn⟩ | ⟨z, rfl, hz⟩
      · exact looseEq_float.2 (.inl ⟨n, rfl, Binary64.numericEq_trans hy hn⟩)
      · exact Binary64.numericEq_trans hy hz
  | .list as, b, c, hab, hbc => by
    obtain ⟨bs, rfl, hbs⟩ := looseEq_list.1 hab
    obtain ⟨cs, rfl, hcs⟩ := looseEq_list.1 hbc
    exact looseEqItems_trans hbs hcs
  | .map as, b, c, hab, hbc => by
    obtain ⟨bs, rfl, hbs⟩ := looseEq_map.1 hab
    obtain ⟨cs, rfl, hcs⟩ := looseEq_map.1 hbc
    exact looseEqEntries_trans hbs hcs

theorem looseEqItems_trans : ∀ {as bs cs : List Value}, looseEqItems as bs = true →
    looseEqItems bs cs = true → looseEqItems as cs = !conflatesItems as bs cs
  | [], [], [], _, _ => rfl
  | _ :: _, _ :: _, _ :: _, h, h' => by
    rw [looseEqItems, Bool.and_eq_true] at h h'
    rw [looseEqItems, conflatesItems, h.1, h'.1, looseEq_trans h.1 h'.1,
      looseEqItems_trans h.2 h'.2]
    exact (Bool.not_or _ _).symm

theorem looseEqEntries_trans : ∀ {as bs cs : List (String × Value)},
    looseEqEntries as bs = true → looseEqEntries bs cs = true →
    looseEqEntries as cs = !conflatesEntries as bs cs
  | [], [], [], _, _ => rfl
  | (_, _) :: _, (_, _) :: _, (_, _) :: _, h, h' => by
    simp only [looseEqEntries, Bool.and_eq_true, beq_iff_eq] at h h'
    obtain ⟨⟨rfl, hab⟩, habs⟩ := h
    obtain ⟨⟨rfl, hbc⟩, hbcs⟩ := h'
    rw [looseEqEntries, conflatesEntries, hab, hbc, looseEq_trans hab hbc,
      looseEqEntries_trans habs hbcs, beq_self_eq_true]
    exact (Bool.not_or _ _).symm

end

/-! ### Transitivity -/

/-- Where no integers are out of order, less than less is less. Where no integers are conflated,
equal to equal is equal, and only there. -/
theorem comparison_trans (a b c : Value) :
    (a.order? b = some .lt → b.order? c = some .lt → disorders a b c = false →
      a.order? c = some .lt) ∧
      (a.looseEq b = true → b.looseEq c = true → a.looseEq c = !conflates a b c) :=
  ⟨fun hab hbc hordered => (order?_trans hab hbc rfl rfl hordered).elim id id, looseEq_trans⟩

/-- A float between an integer that equals it and a greater one that is rounded to it, and a float
between two occurrences of an integer. -/
theorem comparison_trans_rounded :
    (order? (.list [.int 9007199254740992, .int 5])
        (.list [.float ⟨0x4340000000000000⟩, .int 6]) = some .lt ∧
      order? (.list [.float ⟨0x4340000000000000⟩, .int 6])
        (.list [.int 9007199254740993, .int 7]) = some .lt ∧
      order? (.list [.int 9007199254740992, .int 5])
        (.list [.int 9007199254740993, .int 7]) = some .lt) ∧
    looseEq (.int 9007199254740993) (.float ⟨0x4340000000000000⟩) = true ∧
      looseEq (.float ⟨0x4340000000000000⟩) (.int 9007199254740993) = true ∧
      looseEq (.int 9007199254740993) (.int 9007199254740993) = true := by
  have hless : order? (.list [.int 9007199254740992, .int 5])
      (.list [.float ⟨0x4340000000000000⟩, .int 6]) = some .lt := by decide +kernel
  have hless' : order? (.list [.float ⟨0x4340000000000000⟩, .int 6])
      (.list [.int 9007199254740993, .int 7]) = some .lt := by decide +kernel
  have hequal : looseEq (.int 9007199254740993) (.float ⟨0x4340000000000000⟩) = true := by
    decide +kernel
  have hequal' : looseEq (.float ⟨0x4340000000000000⟩) (.int 9007199254740993) = true :=
    (looseEq_comm _ _).trans hequal
  exact ⟨⟨hless, hless', (comparison_trans _ _ _).1 hless hless' (by decide +kernel)⟩,
    hequal, hequal', (comparison_trans _ _ _).2 hequal hequal'⟩

/-- Two integers that equal the same float: the lists that begin with them are out of order, and
the integers are not equal. -/
theorem not_comparison_trans :
    (order? (.list [.int 9007199254740993, .int 0])
        (.list [.float ⟨0x4340000000000000⟩, .int 1]) = some .lt ∧
      order? (.list [.float ⟨0x4340000000000000⟩, .int 1])
        (.list [.int 9007199254740992, .int 2]) = some .lt ∧
      order? (.list [.int 9007199254740993, .int 0])
        (.list [.int 9007199254740992, .int 2]) = some .gt) ∧
    looseEq (.int 9007199254740993) (.float ⟨0x4340000000000000⟩) = true ∧
      looseEq (.float ⟨0x4340000000000000⟩) (.int 9007199254740992) = true ∧
      looseEq (.int 9007199254740993) (.int 9007199254740992) = false := by
  decide +kernel

/-! ### Exact integers -/

mutual

/-- The integers inside a value. -/
def ints : Value → List Int64
  | .int n => [n]
  | .null | .bool _ | .float _ | .string _ => []
  | .list items => itemInts items
  | .map entries => entryInts entries

def itemInts : List Value → List Int64
  | [] => []
  | v :: vs => ints v ++ itemInts vs

def entryInts : List (String × Value) → List Int64
  | [] => []
  | (_, v) :: es => ints v ++ entryInts es

end

/-- An integer of at most `2 ^ 53` in magnitude. Such an integer is not rounded. -/
def IsExact (n : Int64) : Prop := n.toInt.natAbs ≤ 2 * Binary64.binadeSize

/-- Different integers that are not rounded are different floats. -/
theorem rank_inj {m n : Int64} (hm : IsExact m) (hn : IsExact n) (h : rank m = rank n) :
    m = n := by
  refine Int64.toInt_inj.1 (Int.le_antisymm (Int.not_lt.1 fun hlt => ?_)
    (Int.not_lt.1 fun hlt => ?_))
  · exact Int.ne_of_lt (Binary64.signedMagnitude_ofInt_lt hlt hn hm) h.symm
  · exact Int.ne_of_lt (Binary64.signedMagnitude_ofInt_lt hlt hm hn) h

theorem not_equalsBoth {m n : Int64} (hm : IsExact m) (hn : IsExact n) (x : Binary64) :
    equalsBoth x m n = false := by
  refine Bool.eq_false_iff.2 fun h => ?_
  obtain ⟨hne, -, hxm, hxn⟩ := equalsBoth_iff.1 h
  exact hne (rank_inj hm hn (hxm.trans hxn.symm))

mutual

/-- Integers of at most `2 ^ 53` in magnitude are never conflated. -/
theorem conflates_of_exact : ∀ {a b c : Value}, (∀ n ∈ a.ints, IsExact n) →
    (∀ n ∈ b.ints, IsExact n) → (∀ n ∈ c.ints, IsExact n) → conflates a b c = false
  | .null, _, _, _, _, _ | .bool _, _, _, _, _, _ | .string _, _, _, _, _, _ => rfl
  | .int m, b, c, ha, hb, hc => by
    have hm : IsExact m := ha m (List.mem_singleton_self m)
    cases b with
    | int n => cases c with
      | float x => exact not_equalsBoth hm (hb n (List.mem_singleton_self n)) x
      | _ => rfl
    | float x => cases c with
      | int n => exact not_equalsBoth hm (hc n (List.mem_singleton_self n)) x
      | _ => rfl
    | _ => rfl
  | .float x, b, c, _, hb, hc => by
    cases b with
    | int m => cases c with
      | int n =>
          exact not_equalsBoth (hb m (List.mem_singleton_self m))
            (hc n (List.mem_singleton_self n)) x
      | _ => rfl
    | _ => rfl
  | .list as, b, c, ha, hb, hc => by
    cases b with
    | list bs => cases c with
      | list cs => exact conflatesItems_of_exact ha hb hc
      | _ => rfl
    | _ => rfl
  | .map as, b, c, ha, hb, hc => by
    cases b with
    | map bs => cases c with
      | map cs => exact conflatesEntries_of_exact ha hb hc
      | _ => rfl
    | _ => rfl

theorem conflatesItems_of_exact : ∀ {as bs cs : List Value}, (∀ n ∈ itemInts as, IsExact n) →
    (∀ n ∈ itemInts bs, IsExact n) → (∀ n ∈ itemInts cs, IsExact n) →
    conflatesItems as bs cs = false
  | [], _, _, _, _, _ | _ :: _, [], _, _, _, _ | _ :: _, _ :: _, [], _, _, _ => rfl
  | a :: as, b :: bs, c :: cs, ha, hb, hc => by
    rw [itemInts, List.forall_mem_append] at ha hb hc
    rw [conflatesItems, conflates_of_exact ha.1 hb.1 hc.1, conflatesItems_of_exact ha.2 hb.2 hc.2,
      Bool.and_false, Bool.or_false]

theorem conflatesEntries_of_exact : ∀ {as bs cs : List (String × Value)},
    (∀ n ∈ entryInts as, IsExact n) → (∀ n ∈ entryInts bs, IsExact n) →
    (∀ n ∈ entryInts cs, IsExact n) → conflatesEntries as bs cs = false
  | [], _, _, _, _, _ | _ :: _, [], _, _, _, _ | _ :: _, _ :: _, [], _, _, _ => rfl
  | (_, a) :: as, (_, b) :: bs, (_, c) :: cs, ha, hb, hc => by
    rw [entryInts, List.forall_mem_append] at ha hb hc
    rw [conflatesEntries, conflates_of_exact ha.1 hb.1 hc.1,
      conflatesEntries_of_exact ha.2 hb.2 hc.2, Bool.and_false, Bool.or_false]

end

/-- Comparison of values all of whose integers are at most `2 ^ 53` in magnitude is transitive. -/
theorem comparison_trans_of_exact {a b c : Value} (ha : ∀ n ∈ a.ints, IsExact n)
    (hb : ∀ n ∈ b.ints, IsExact n) (hc : ∀ n ∈ c.ints, IsExact n) :
    (a.order? b = some .lt → b.order? c = some .lt → a.order? c = some .lt) ∧
      (a.looseEq b = true → b.looseEq c = true → a.looseEq c = true) := by
  have hconflates : conflates a b c = false := conflates_of_exact ha hb hc
  refine ⟨fun hab hbc => ?_, fun hab hbc => ?_⟩
  · have hordered : disorders a b c = false := disorders_of_not_conflates hconflates
    exact (order?_trans hab hbc rfl rfl hordered).elim id id
  · rw [looseEq_trans hab hbc, hconflates]
    rfl

end Value

end GraphQuery
