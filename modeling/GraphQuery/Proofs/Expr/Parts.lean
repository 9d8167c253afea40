import Mathlib.Data.List.Forall2
import GraphQuery.Expr.Basic

/-!
# The parts of an expression and their places

An expression is what stands at its root and a list of direct parts, each in a slot of its own. The
parts can be exchanged for as many others, and the root stays the same.

## Main definitions

* `Expr.parts`: the direct parts with their slots.
* `Expr.withChildren`: the expression with other direct parts.
* `Expr.setChild`: the expression with one direct part exchanged.
* `Expr.mapParts`: the expression with a function applied to its direct parts.
* `Expr.SameRoot`: two expressions differ in their direct parts only.

## Main results

* `Expr.withChildren_spec`: the direct parts are what is exchanged, and nothing else.
* `Expr.withChildren_children`: with its own parts an expression is what it was.
-/

namespace GraphQuery

namespace Expr

/-- Operands with their slots, from a given position on. -/
def operandsFrom (position : Nat) : List Expr → List (Slot × Expr)
  | [] => []
  | e :: es => (.operand position, e) :: operandsFrom (position + 1) es

/-- The direct parts of an expression with their slots, in field order. -/
def parts : Expr → List (Slot × Expr)
  | .constant _ | .label _ | .placeholder .. => []
  | .unary _ operand => [(.operand 0, operand)]
  | .arithmetic _ left right | .relational _ left right =>
    [(.operand 0, left), (.operand 1, right)]
  | .logical _ operands => operandsFrom 0 operands
  | .list items => operandsFrom 0 items
  | .attr object _ => [(.operand 0, object)]
  | .comprehension _ collection filter mapping _ =>
    (.collection, collection) :: filter.toList.map (.filter, ·) ++ mapping.toList.map (.mapping, ·)
  | .quantified _ _ collection filter _ =>
    (.collection, collection) :: filter.toList.map (.filter, ·)
  | .reduce _ initial _ collection mapping _ =>
    [(.initial, initial), (.collection, collection), (.mapping, mapping)]

/-- The expression with other direct parts, as many as it has. -/
def withChildren : Expr → List Expr → Expr
  | .unary op _, [operand] => .unary op operand
  | .arithmetic op _ _, [left, right] => .arithmetic op left right
  | .relational op _ _, [left, right] => .relational op left right
  | .logical op _, operands => .logical op operands
  | .list _, items => .list items
  | .attr _ name, [object] => .attr object name
  | .comprehension binder _ none none origin, [collection] =>
    .comprehension binder collection none none origin
  | .comprehension binder _ none (some _) origin, [collection, mapping] =>
    .comprehension binder collection none (some mapping) origin
  | .comprehension binder _ (some _) none origin, [collection, filter] =>
    .comprehension binder collection (some filter) none origin
  | .comprehension binder _ (some _) (some _) origin, [collection, filter, mapping] =>
    .comprehension binder collection (some filter) (some mapping) origin
  | .quantified quantifier binder _ none origin, [collection] =>
    .quantified quantifier binder collection none origin
  | .quantified quantifier binder _ (some _) origin, [collection, filter] =>
    .quantified quantifier binder collection (some filter) origin
  | .reduce accumulator _ binder _ _ origin, [initial, collection, mapping] =>
    .reduce accumulator initial binder collection mapping origin
  | e, _ => e

theorem map_snd_operandsFrom (position : Nat) (es : List Expr) :
    (operandsFrom position es).map Prod.snd = es := by
  induction es generalizing position with
  | nil => rfl
  | cons e es ih => rw [operandsFrom, List.map_cons, ih]

theorem map_snd_parts (e : Expr) : e.parts.map Prod.snd = e.children := by
  cases e <;> simp [parts, children, map_snd_operandsFrom, Function.comp_def]

theorem length_parts (e : Expr) : e.parts.length = e.children.length := by
  rw [← map_snd_parts, List.length_map]

theorem mem_children_of_mem_parts {e : Expr} {p : Slot × Expr} (h : p ∈ e.parts) :
    p.2 ∈ e.children := by
  rw [← map_snd_parts]
  exact List.mem_map_of_mem h

theorem eq_label_or_ne (e : Expr) : (∃ name, e = .label name) ∨ ∀ name, e ≠ .label name := by
  cases e with
  | label name => exact .inl ⟨name, rfl⟩
  | _ => exact .inr fun _ => Expr.noConfusion

theorem eq_placeholder_or_ne (e : Expr) :
    (∃ left right, e = .placeholder left right) ∨ ∀ left right, e ≠ .placeholder left right := by
  cases e with
  | placeholder left right => exact .inl ⟨left, right, rfl⟩
  | _ => exact .inr fun _ _ => Expr.noConfusion

/-! ### Exchanged parts -/

/-- With its own parts an expression is what it was. -/
theorem withChildren_children (e : Expr) : e.withChildren e.children = e := by
  cases e with
  | comprehension _ _ filter mapping _ => cases filter <;> cases mapping <;> rfl
  | quantified _ _ _ filter _ => cases filter <;> rfl
  | _ => rfl

variable {R : Slot × Expr → Expr → Prop} {cs : List Expr}

/-- What is put in place of the parts of a comprehension, each related to what it replaces. -/
theorem forall₂_parts_comprehension {binder : String} {collection : Expr}
    {filter mapping : Option Expr} {origin : Option String}
    (h : List.Forall₂ R (Expr.comprehension binder collection filter mapping origin).parts cs) :
    ∃ c f m, R (.collection, collection) c ∧ Option.Rel (fun e d => R (.filter, e) d) filter f ∧
      Option.Rel (fun e d => R (.mapping, e) d) mapping m ∧
      (Expr.comprehension binder collection filter mapping origin).withChildren cs =
        .comprehension binder c f m origin := by
  cases filter <;> cases mapping <;>
    simp only [parts, Option.toList, List.map, List.cons_append, List.nil_append,
      List.forall₂_cons_left_iff, List.forall₂_nil_left_iff] at h
  · obtain ⟨c, _, hc, rfl, rfl⟩ := h
    exact ⟨c, none, none, hc, .none, .none, rfl⟩
  · obtain ⟨c, _, hc, ⟨m, _, hm, rfl, rfl⟩, rfl⟩ := h
    exact ⟨c, none, some m, hc, .none, .some hm, rfl⟩
  · obtain ⟨c, _, hc, ⟨f, _, hf, rfl, rfl⟩, rfl⟩ := h
    exact ⟨c, some f, none, hc, .some hf, .none, rfl⟩
  · obtain ⟨c, _, hc, ⟨f, _, hf, ⟨m, _, hm, rfl, rfl⟩, rfl⟩, rfl⟩ := h
    exact ⟨c, some f, some m, hc, .some hf, .some hm, rfl⟩

theorem forall₂_parts_quantified {quantifier : Quantifier} {binder : String} {collection : Expr}
    {filter : Option Expr} {origin : Option String}
    (h : List.Forall₂ R (Expr.quantified quantifier binder collection filter origin).parts cs) :
    ∃ c f, R (.collection, collection) c ∧ Option.Rel (fun e d => R (.filter, e) d) filter f ∧
      (Expr.quantified quantifier binder collection filter origin).withChildren cs =
        .quantified quantifier binder c f origin := by
  cases filter <;>
    simp only [parts, Option.toList, List.map, List.forall₂_cons_left_iff,
      List.forall₂_nil_left_iff] at h
  · obtain ⟨c, _, hc, rfl, rfl⟩ := h
    exact ⟨c, none, hc, .none, rfl⟩
  · obtain ⟨c, _, hc, ⟨f, _, hf, rfl, rfl⟩, rfl⟩ := h
    exact ⟨c, some f, hc, .some hf, rfl⟩

/-! ### The same root -/

/-- Two expressions have the same root: they differ in nothing but their direct parts, and have
these in the same places. The names in a placeholder are parts of it. -/
inductive SameRoot : Expr → Expr → Prop
  | constant (value : Value) : SameRoot (.constant value) (.constant value)
  | label (name : String) : SameRoot (.label name) (.label name)
  | unary (op : UnaryOp) (a b : Expr) : SameRoot (.unary op a) (.unary op b)
  | arithmetic (op : ArithmeticOp) (a b c d : Expr) :
    SameRoot (.arithmetic op a b) (.arithmetic op c d)
  | relational (op : RelationalOp) (a b c d : Expr) :
    SameRoot (.relational op a b) (.relational op c d)
  | logical (op : LogicalOp) {as bs : List Expr} (h : as.length = bs.length) :
    SameRoot (.logical op as) (.logical op bs)
  | list {as bs : List Expr} (h : as.length = bs.length) : SameRoot (.list as) (.list bs)
  | attr (a b : Expr) (name : String) : SameRoot (.attr a name) (.attr b name)
  | placeholder (a b c d : String) : SameRoot (.placeholder a b) (.placeholder c d)
  | comprehension (binder : String) (a b : Expr) {filter filter' mapping mapping' : Option Expr}
    (origin : Option String) (hfilter : filter.isSome = filter'.isSome)
    (hmapping : mapping.isSome = mapping'.isSome) :
    SameRoot (.comprehension binder a filter mapping origin)
      (.comprehension binder b filter' mapping' origin)
  | quantified (quantifier : Quantifier) (binder : String) (a b : Expr)
    {filter filter' : Option Expr} (origin : Option String)
    (hfilter : filter.isSome = filter'.isSome) :
    SameRoot (.quantified quantifier binder a filter origin)
      (.quantified quantifier binder b filter' origin)
  | reduce (accumulator binder : String) (a b c a' b' c' : Expr) (origin : Option String) :
    SameRoot (.reduce accumulator a binder b c origin) (.reduce accumulator a' binder b' c' origin)

theorem SameRoot.refl (e : Expr) : SameRoot e e := by
  cases e <;> constructor <;> rfl

/-- With as many parts as an expression has, it has just these, and the root stays as it is. -/
theorem withChildren_spec {e : Expr} {cs : List Expr} (h : cs.length = e.children.length) :
    (e.withChildren cs).children = cs ∧ SameRoot e (e.withChildren cs) := by
  cases e with
  | constant | label | placeholder =>
      obtain rfl := List.length_eq_zero_iff.1 h
      exact ⟨rfl, .refl _⟩
  | unary | attr =>
      obtain ⟨a, rfl⟩ := List.length_eq_one_iff.1 h
      exact ⟨rfl, by constructor⟩
  | arithmetic | relational =>
      obtain ⟨a, b, rfl⟩ := List.length_eq_two.1 h
      exact ⟨rfl, by constructor⟩
  | logical op operands => exact ⟨rfl, .logical op h.symm⟩
  | list items => exact ⟨rfl, .list h.symm⟩
  | comprehension binder collection filter mapping origin =>
      cases filter <;> cases mapping
      · obtain ⟨a, rfl⟩ := List.length_eq_one_iff.1 h
        exact ⟨rfl, .comprehension binder collection a origin rfl rfl⟩
      · obtain ⟨a, b, rfl⟩ := List.length_eq_two.1 h
        exact ⟨rfl, .comprehension binder collection a origin rfl rfl⟩
      · obtain ⟨a, b, rfl⟩ := List.length_eq_two.1 h
        exact ⟨rfl, .comprehension binder collection a origin rfl rfl⟩
      · obtain ⟨a, b, c, rfl⟩ := List.length_eq_three.1 h
        exact ⟨rfl, .comprehension binder collection a origin rfl rfl⟩
  | quantified quantifier binder collection filter origin =>
      cases filter
      · obtain ⟨a, rfl⟩ := List.length_eq_one_iff.1 h
        exact ⟨rfl, .quantified quantifier binder collection a origin rfl⟩
      · obtain ⟨a, b, rfl⟩ := List.length_eq_two.1 h
        exact ⟨rfl, .quantified quantifier binder collection a origin rfl⟩
  | reduce =>
      obtain ⟨a, b, c, rfl⟩ := List.length_eq_three.1 h
      exact ⟨rfl, by constructor⟩

/-- Of parts that are exchanged twice the second ones are there. -/
theorem withChildren_withChildren {e : Expr} {cs ds : List Expr}
    (hcs : cs.length = e.children.length) (hds : ds.length = e.children.length) :
    (e.withChildren cs).withChildren ds = e.withChildren ds := by
  cases e with
  | constant | label | placeholder | logical | list => rfl
  | unary | attr =>
      obtain ⟨a, rfl⟩ := List.length_eq_one_iff.1 hcs
      obtain ⟨b, rfl⟩ := List.length_eq_one_iff.1 hds
      rfl
  | arithmetic | relational =>
      obtain ⟨a, b, rfl⟩ := List.length_eq_two.1 hcs
      obtain ⟨c, d, rfl⟩ := List.length_eq_two.1 hds
      rfl
  | comprehension binder collection filter mapping origin =>
      cases filter <;> cases mapping
      · obtain ⟨a, rfl⟩ := List.length_eq_one_iff.1 hcs
        obtain ⟨b, rfl⟩ := List.length_eq_one_iff.1 hds
        rfl
      · obtain ⟨a, b, rfl⟩ := List.length_eq_two.1 hcs
        obtain ⟨c, d, rfl⟩ := List.length_eq_two.1 hds
        rfl
      · obtain ⟨a, b, rfl⟩ := List.length_eq_two.1 hcs
        obtain ⟨c, d, rfl⟩ := List.length_eq_two.1 hds
        rfl
      · obtain ⟨a, b, c, rfl⟩ := List.length_eq_three.1 hcs
        obtain ⟨d, f, g, rfl⟩ := List.length_eq_three.1 hds
        rfl
  | quantified quantifier binder collection filter origin =>
      cases filter
      · obtain ⟨a, rfl⟩ := List.length_eq_one_iff.1 hcs
        obtain ⟨b, rfl⟩ := List.length_eq_one_iff.1 hds
        rfl
      · obtain ⟨a, b, rfl⟩ := List.length_eq_two.1 hcs
        obtain ⟨c, d, rfl⟩ := List.length_eq_two.1 hds
        rfl
  | reduce =>
      obtain ⟨a, b, c, rfl⟩ := List.length_eq_three.1 hcs
      obtain ⟨d, f, g, rfl⟩ := List.length_eq_three.1 hds
      rfl

/-! ### One part exchanged -/

/-- The expression with another part at a position among its parts. -/
def setChild (e : Expr) (position : Nat) (part : Expr) : Expr :=
  e.withChildren (e.children.set position part)

section SetChild

variable {e c : Expr} {done rest : List Expr}
  (h : (done ++ c :: rest).length = e.children.length)

include h

/-- The part that comes after some exchanged parts. -/
theorem children_withChildren_append :
    (e.withChildren (done ++ c :: rest)).children[done.length]? = some c := by
  rw [(withChildren_spec h).1]
  simp

/-- The part that comes after some exchanged parts can be exchanged too. -/
theorem setChild_withChildren (d : Expr) :
    (e.withChildren (done ++ c :: rest)).setChild done.length d =
      e.withChildren (done ++ [d] ++ rest) := by
  have hset : (done ++ c :: rest).set done.length d = done ++ [d] ++ rest := by simp
  rw [setChild, (withChildren_spec h).1, hset]
  refine withChildren_withChildren h ?_
  rw [← h]
  simp

end SetChild

/-! ### Mapped parts -/

/-- The expression with each part replaced by what a function makes of it. -/
def mapParts (e : Expr) (f : Slot × Expr → Expr) : Expr := e.withChildren (e.parts.map f)

theorem operandsFrom_map (f : Slot × Expr → Expr) (position : Nat) (es : List Expr) :
    operandsFrom position ((operandsFrom position es).map f) =
      (operandsFrom position es).map fun p => (p.1, f p) := by
  induction es generalizing position with
  | nil => rfl
  | cons e es ih => simp only [operandsFrom, List.map_cons, ih]

/-- Every part is mapped in its slot. -/
theorem parts_mapParts (e : Expr) (f : Slot × Expr → Expr) :
    (e.mapParts f).parts = e.parts.map fun p => (p.1, f p) := by
  cases e with
  | logical | list => exact operandsFrom_map f 0 _
  | comprehension _ _ filter mapping _ => cases filter <;> cases mapping <;> rfl
  | quantified _ _ _ filter _ => cases filter <;> rfl
  | _ => rfl

theorem sameRoot_mapParts (e : Expr) (f : Slot × Expr → Expr) : SameRoot e (e.mapParts f) :=
  (withChildren_spec (by rw [List.length_map, length_parts])).2

theorem mapParts_mapParts (e : Expr) (f g : Slot × Expr → Expr) :
    (e.mapParts f).mapParts g = e.mapParts fun p => g (p.1, f p) := by
  rw [mapParts, parts_mapParts, List.map_map]
  cases e with
  | comprehension _ _ filter mapping _ => cases filter <;> cases mapping <;> rfl
  | quantified _ _ _ filter _ => cases filter <;> rfl
  | _ => rfl

theorem mapParts_eq_iff {e : Expr} {f g : Slot × Expr → Expr} :
    e.mapParts f = e.mapParts g ↔ ∀ p ∈ e.parts, f p = g p := by
  constructor
  · intro heq p hp
    have hparts := congrArg parts heq
    rw [parts_mapParts, parts_mapParts, List.map_inj_left] at hparts
    exact congrArg Prod.snd (hparts p hp)
  · intro h
    rw [mapParts, mapParts, List.map_congr_left h]

end Expr

end GraphQuery
