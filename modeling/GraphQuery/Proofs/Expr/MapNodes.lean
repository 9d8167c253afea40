import GraphQuery.Expr.Text
import GraphQuery.Proofs.Expr.Congruence

/-!
# Functions applied to every node

A function can be applied to all nodes of an expression, each after its parts. What it makes of the
root is then made of an expression that has the same root and mapped parts, so a property that
depends on the parts through the same property of the parts is kept if the function keeps it at
single nodes.

## Main definitions

* `Expr.mapNodes`: the expression with a function applied to every node.

## Main results

* `Expr.mapNodes_eq`: what becomes of an expression, by what becomes of its parts.
* `Expr.mapNodes_eq_self`: a function that changes no node changes nothing.
* `Expr.map_nodes_mapNodes`, `Expr.every_mapNodes`: what holds of the nodes, if parts are kept.
* `Expr.text_mapNodes`, `Expr.eval_mapNodes`: texts and outcomes are kept if they are at each node.
-/

namespace GraphQuery

namespace Expr

mutual

/-- The expression with a function applied to every node, from the inside outwards: to a node as it
stands with its parts mapped. What the function makes of a node is not visited again. -/
def mapNodes (f : Expr → Expr) : Expr → Expr
  | .constant value => f (.constant value)
  | .label name => f (.label name)
  | .unary op operand => f (.unary op (mapNodes f operand))
  | .arithmetic op left right => f (.arithmetic op (mapNodes f left) (mapNodes f right))
  | .relational op left right => f (.relational op (mapNodes f left) (mapNodes f right))
  | .logical op operands => f (.logical op (mapNodesAll f operands))
  | .list items => f (.list (mapNodesAll f items))
  | .attr object name => f (.attr (mapNodes f object) name)
  | .placeholder left right => f (.placeholder left right)
  | .comprehension binder collection filter mapping origin =>
    f (.comprehension binder (mapNodes f collection) (mapNodesPart f filter)
      (mapNodesPart f mapping) origin)
  | .quantified quantifier binder collection filter origin =>
    f (.quantified quantifier binder (mapNodes f collection) (mapNodesPart f filter) origin)
  | .reduce accumulator initial binder collection mapping origin =>
    f (.reduce accumulator (mapNodes f initial) binder (mapNodes f collection)
      (mapNodes f mapping) origin)

def mapNodesAll (f : Expr → Expr) : List Expr → List Expr
  | [] => []
  | e :: es => mapNodes f e :: mapNodesAll f es

def mapNodesPart (f : Expr → Expr) : Option Expr → Option Expr
  | none => none
  | some e => some (mapNodes f e)

end

variable {f : Expr → Expr}

theorem mapNodesAll_eq_map (f : Expr → Expr) (es : List Expr) :
    mapNodesAll f es = es.map (mapNodes f) := by
  induction es with
  | nil => rfl
  | cons e es ih => rw [mapNodesAll, ih, List.map_cons]

/-- What becomes of an expression is made of its root with mapped parts. -/
theorem mapNodes_eq (f : Expr → Expr) (e : Expr) :
    e.mapNodes f = f (e.withChildren (e.children.map (mapNodes f))) := by
  cases e with
  | logical | list => rw [mapNodes, mapNodesAll_eq_map, children, withChildren]
  | comprehension _ _ filter mapping _ => cases filter <;> cases mapping <;> rfl
  | quantified _ _ _ filter _ => cases filter <;> rfl
  | _ => rfl

/-- The root with mapped parts. -/
theorem withChildren_map_spec (e : Expr) (g : Expr → Expr) :
    (e.withChildren (e.children.map g)).children = e.children.map g ∧
      SameRoot e (e.withChildren (e.children.map g)) :=
  withChildren_spec (by rw [List.length_map])

/-- A function that leaves every node of an expression as it is leaves the expression as it is. -/
theorem mapNodes_eq_self {e : Expr} (h : ∀ n ∈ e.nodes, f n = n) : e.mapNodes f = e := by
  induction e using induction_on_children with
  | step e ih =>
    have hparts : e.children.map (mapNodes f) = e.children.map id :=
      List.map_congr_left fun c hc => ih c hc fun n hn => h n (mem_nodes_iff.2 (.inr ⟨c, hc, hn⟩))
    rw [mapNodes_eq, hparts, List.map_id, withChildren_children, h e e.mem_nodes_self]

/-! ### Nodes -/

section Nodes

variable (hchildren : ∀ e, (f e).children = e.children)

include hchildren

theorem children_mapNodes (e : Expr) : (e.mapNodes f).children = e.children.map (mapNodes f) := by
  rw [mapNodes_eq, hchildren, (withChildren_map_spec e (mapNodes f)).1]

/-- What is read off the root of every node stays as it is if the function keeps the parts of
nodes and what is read off them. -/
theorem map_nodes_mapNodes {α : Type} {g : Expr → α}
    (hg : ∀ {e e' : Expr}, SameRoot e e' → g (f e') = g e) (e : Expr) :
    (e.mapNodes f).nodes.map g = e.nodes.map g := by
  induction e using induction_on_children with
  | step e ih =>
    have hroot : g (e.mapNodes f) = g e := by
      rw [mapNodes_eq, hg (withChildren_map_spec e (mapNodes f)).2]
    rw [nodes_eq, nodes_eq, List.map_cons, List.map_cons, hroot, children_mapNodes hchildren,
      List.map_flatMap, List.map_flatMap, List.flatMap_map]
    exact congrArg (g e :: ·) (List.flatMap_congr ih)

/-- A condition on nodes becomes another one everywhere if the function keeps the parts of nodes
and makes the one of the other at single nodes. -/
theorem every_mapNodes {P Q : Expr → Prop}
    (hPQ : ∀ {e e' : Expr}, SameRoot e e' → P e → Q (f e')) {e : Expr} (h : e.Every P) :
    (e.mapNodes f).Every Q := by
  induction e using induction_on_children with
  | step e ih =>
    have hroot : Q (e.mapNodes f) := by
      rw [mapNodes_eq]
      exact hPQ (withChildren_map_spec e (mapNodes f)).2 h.root
    rw [every_iff, children_mapNodes hchildren]
    exact ⟨hroot, List.forall_mem_map.2 fun c hc => ih c hc (h.of_mem_children hc)⟩

end Nodes

/-! ### Texts -/

mutual

/-- A function that keeps the text of every node keeps the text of the whole. -/
theorem text_mapNodes (hf : ∀ e, (f e).text = e.text) : ∀ e : Expr, (e.mapNodes f).text = e.text
  | .constant _ | .label _ | .placeholder .. => hf _
  | .unary _ operand => by
    rw [mapNodes, hf, text, text, text_mapNodes hf operand]
  | .arithmetic _ left right | .relational _ left right => by
    rw [mapNodes, hf, text, text, text_mapNodes hf left, text_mapNodes hf right]
  | .logical _ operands | .list operands => by
    rw [mapNodes, hf, text, text, texts_mapNodesAll hf operands]
  | .attr object _ => by
    rw [mapNodes, hf, text, text, text_mapNodes hf object]
  | .comprehension _ collection filter mapping _ => by
    rw [mapNodes, hf, text, text, text_mapNodes hf collection, partText_mapNodesPart hf _ filter,
      partText_mapNodesPart hf _ mapping]
  | .quantified _ _ collection filter _ => by
    rw [mapNodes, hf, text, text, text_mapNodes hf collection, partText_mapNodesPart hf _ filter]
  | .reduce _ initial _ collection mapping _ => by
    rw [mapNodes, hf, text, text, text_mapNodes hf initial, text_mapNodes hf collection,
      text_mapNodes hf mapping]

theorem texts_mapNodesAll (hf : ∀ e, (f e).text = e.text) : ∀ es : List Expr,
    texts (mapNodesAll f es) = texts es
  | [] => rfl
  | e :: es => by
    rw [mapNodesAll, texts, texts, text_mapNodes hf e, texts_mapNodesAll hf es]

theorem partText_mapNodesPart (hf : ∀ e, (f e).text = e.text) (introduction : String) :
    ∀ part : Option Expr, partText introduction (mapNodesPart f part) = partText introduction part
  | none => rfl
  | some e => by
    rw [mapNodesPart, partText, partText, text_mapNodes hf e]

end

/-! ### Outcomes -/

/-- A function that keeps the outcomes of every node keeps the outcomes of the whole. -/
theorem eval_mapNodes (hf : ∀ e lookup, (f e).eval lookup = e.eval lookup) (e : Expr)
    (lookup : Lookup) : (e.mapNodes f).eval lookup = e.eval lookup := by
  induction e using induction_on_children generalizing lookup with
  | step e ih =>
    obtain ⟨name, rfl⟩ | hlabel := e.eq_label_or_ne
    · exact hf _ lookup
    · have hparts : List.Forall₂ (SameOutcomes id e lookup lookup) e.parts
          (e.children.map (mapNodes f)) := by
        rw [← map_snd_parts, List.map_map, List.forall₂_map_right_iff, List.forall₂_same]
        intro p hp _ acc item
        rw [mapError_id, Function.comp_apply, ih p.2 (mem_children_of_mem_parts hp)]
      rw [mapNodes_eq, hf, ← eval_withChildren rewordsUnbound_id hlabel hparts, mapError_id]

end Expr

end GraphQuery
