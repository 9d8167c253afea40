import GraphQuery.Proofs.Expr.Nodes
import GraphQuery.Proofs.Value.Normal

/-!
# Normal expressions

An expression is normal if all maps inside its constants have their entries in order and none of
its origins is empty. Every expression has a normal form, which differs from it in nothing else.

## Main definitions

* `Expr.Normal`: an expression is normal at its root.
* `Expr.normalize`: the expression with its constants in normal form and without empty origins.

## Main results

* `Expr.every_normal_normalize`, `Expr.normalize_eq_self_iff`: the expressions that are their own
  normal form are those that are normal at every node.
* `Expr.depth_normalize_le`: a normal form is no deeper.
-/

namespace GraphQuery

namespace Expr

/-! ### Conditions on the root -/

/-- The maps inside a constant have their entries in order. -/
def ConstantSorted : Expr → Prop
  | .constant value => value.Sorted
  | _ => True

/-- An expression is normal at its root. -/
def Normal (e : Expr) : Prop := e.ConstantSorted ∧ e.origin? ≠ some ""

theorem WellBuilt.origin?_ne {e : Expr} (h : e.WellBuilt) : e.origin? ≠ some "" := by
  cases e with
  | comprehension | quantified => exact h.2
  | reduce => exact h.2.2
  | _ => exact fun hnone => nomatch hnone

theorem bind_keptOrigin_eq_self_iff {origin : Option String} :
    origin.bind keptOrigin = origin ↔ origin ≠ some "" := by
  cases origin with
  | none => simp
  | some s => by_cases h : s = "" <;> simp [keptOrigin, h]

theorem bind_keptOrigin_ne (origin : Option String) : origin.bind keptOrigin ≠ some "" := by
  cases origin with
  | none => simp
  | some s => by_cases h : s = "" <;> simp [keptOrigin, h]

/-! ### Levels -/

theorem depthAll_le_iff {es : List Expr} {n : Nat} :
    depthAll es ≤ n ↔ ∀ e ∈ es, e.depth ≤ n := by
  induction es with
  | nil => simp [depthAll]
  | cons e es ih => rw [depthAll, Nat.max_le, ih, List.forall_mem_cons]

theorem depthPart_le_iff {part : Option Expr} {n : Nat} :
    depthPart part ≤ n ↔ ∀ e ∈ part, e.depth ≤ n := by
  cases part <;> simp [depthPart]

/-- The levels of an expression are one more than those of what is directly inside. -/
theorem depth_le_succ_iff {e : Expr} {n : Nat} :
    e.depth ≤ n + 1 ↔
      (∀ c ∈ e.children, c.depth ≤ n) ∧ ∀ value, e = .constant value → value.depth ≤ n := by
  cases e <;>
    simp only [depth, Nat.add_le_add_iff_right, Nat.max_le, depthAll_le_iff, depthPart_le_iff] <;>
    simp [children, or_imp, forall_and]

/-! ### Normal forms -/

mutual

/-- The expression with its constants in normal form and without empty origins. -/
def normalize : Expr → Expr
  | .constant value => .constant value.normalize
  | .label name => .label name
  | .unary op operand => .unary op (normalize operand)
  | .arithmetic op left right => .arithmetic op (normalize left) (normalize right)
  | .relational op left right => .relational op (normalize left) (normalize right)
  | .logical op operands => .logical op (normalizeAll operands)
  | .list items => .list (normalizeAll items)
  | .attr object name => .attr (normalize object) name
  | .placeholder left right => .placeholder left right
  | .comprehension binder collection filter mapping origin =>
    .comprehension binder (normalize collection) (normalizePart filter) (normalizePart mapping)
      (origin.bind keptOrigin)
  | .quantified quantifier binder collection filter origin =>
    .quantified quantifier binder (normalize collection) (normalizePart filter)
      (origin.bind keptOrigin)
  | .reduce accumulator initial binder collection mapping origin =>
    .reduce accumulator (normalize initial) binder (normalize collection) (normalize mapping)
      (origin.bind keptOrigin)

def normalizeAll : List Expr → List Expr
  | [] => []
  | e :: es => normalize e :: normalizeAll es

def normalizePart : Option Expr → Option Expr
  | none => none
  | some e => some (normalize e)

end

theorem normalizeAll_eq_map (es : List Expr) : normalizeAll es = es.map normalize := by
  induction es with
  | nil => rfl
  | cons e es ih => rw [normalizeAll, ih, List.map_cons]

theorem length_normalizeAll (es : List Expr) : (normalizeAll es).length = es.length := by
  rw [normalizeAll_eq_map, List.length_map]

theorem toList_normalizePart (part : Option Expr) :
    (normalizePart part).toList = part.toList.map normalize := by
  cases part <;> rfl

/-- The parts of a normal form are the normal forms of the parts. -/
theorem children_normalize (e : Expr) : e.normalize.children = e.children.map normalize := by
  cases e <;> simp [normalize, children, normalizeAll_eq_map, toList_normalizePart]

theorem normal_normalize (e : Expr) : e.normalize.Normal := by
  cases e with
  | constant value => exact ⟨value.sorted_normalize, nofun⟩
  | comprehension _ _ _ _ origin | quantified _ _ _ _ origin | reduce _ _ _ _ _ origin =>
      exact ⟨trivial, bind_keptOrigin_ne origin⟩
  | _ => exact ⟨trivial, nofun⟩

/-- A normal form is normal everywhere. -/
theorem every_normal_normalize (e : Expr) : Every Normal e.normalize := by
  induction e using induction_on_children with
  | step e ih =>
    refine every_iff.2 ⟨e.normal_normalize, fun c hc => ?_⟩
    rw [children_normalize] at hc
    obtain ⟨part, hpart, rfl⟩ := List.mem_map.1 hc
    exact ih part hpart

theorem normalizeAll_eq_self {es : List Expr} (h : ∀ e ∈ es, e.normalize = e) :
    normalizeAll es = es := by
  rw [normalizeAll_eq_map, List.map_congr_left h, List.map_id']

theorem normalizePart_eq_self {part : Option Expr} (h : ∀ e ∈ part, e.normalize = e) :
    normalizePart part = part := by
  cases part with
  | none => rfl
  | some e => exact congrArg some (h e rfl)

theorem normalize_of_every_normal {e : Expr} (h : Every Normal e) : e.normalize = e := by
  induction e using induction_on_children with
  | step e ih =>
    have hkept := bind_keptOrigin_eq_self_iff.2 h.root.2
    have hparts : ∀ c ∈ e.children, c.normalize = c := fun c hc => ih c hc (h.of_mem_children hc)
    cases e with
    | constant value => rw [normalize, Value.normalize_of_sorted h.root.1]
    | label | placeholder => rfl
    | unary _ operand | attr operand _ => rw [normalize, hparts operand (by simp [children])]
    | arithmetic _ left right | relational _ left right =>
        rw [normalize, hparts left (by simp [children]), hparts right (by simp [children])]
    | logical _ operands | list operands =>
        have hoperands : normalizeAll operands = operands := normalizeAll_eq_self hparts
        rw [normalize, hoperands]
    | comprehension _ collection filter mapping origin =>
        have hfilter : normalizePart filter = filter :=
          normalizePart_eq_self fun e he => hparts e (by simp_all [children])
        have hmapping : normalizePart mapping = mapping :=
          normalizePart_eq_self fun e he => hparts e (by simp_all [children])
        rw [normalize, hparts collection (by simp [children]), hfilter, hmapping]
        exact congrArg _ hkept
    | quantified _ _ collection filter origin =>
        have hfilter : normalizePart filter = filter :=
          normalizePart_eq_self fun e he => hparts e (by simp_all [children])
        rw [normalize, hparts collection (by simp [children]), hfilter]
        exact congrArg _ hkept
    | reduce _ initial _ collection mapping origin =>
        rw [normalize, hparts initial (by simp [children]), hparts collection (by simp [children]),
          hparts mapping (by simp [children])]
        exact congrArg _ hkept

/-- The expressions that are their own normal form are those that are normal everywhere. -/
theorem normalize_eq_self_iff {e : Expr} : e.normalize = e ↔ Every Normal e :=
  ⟨fun h => h ▸ e.every_normal_normalize, normalize_of_every_normal⟩

theorem depth_normalize_le (e : Expr) : e.normalize.depth ≤ e.depth := by
  induction e using induction_on_children with
  | step e ih =>
    obtain ⟨n, hn⟩ : ∃ n, e.depth = n + 1 := Nat.exists_eq_add_one.2 e.depth_pos
    obtain ⟨hparts, hvalue⟩ := depth_le_succ_iff.1 (Nat.le_of_eq hn)
    rw [hn, depth_le_succ_iff, children_normalize]
    refine ⟨fun c hc => ?_, fun value hv => ?_⟩
    · obtain ⟨part, hpart, rfl⟩ := List.mem_map.1 hc
      exact Nat.le_trans (ih part hpart) (hparts part hpart)
    · cases e with
      | constant v =>
          obtain rfl := Expr.constant.inj hv
          exact Nat.le_trans v.depth_normalize_le (hvalue v rfl)
      | _ => exact nomatch hv

end Expr

end GraphQuery
