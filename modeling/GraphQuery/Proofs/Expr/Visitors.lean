import GraphQuery.Expr.Record
import GraphQuery.Proofs.Expr.Resolving
import GraphQuery.Proofs.Expr.Scoping

/-!
# Visitors that keep outcomes

A visitor is more than a traversal: at each node it decides step by step which part to visit next,
in whatever order and as often as it likes, by its state, by whether earlier parts were replaced and
by the node as it then stands. In the end it lets the node stand or puts an expression in its place.

The outcome of an expression depends on its parts through their outcomes only. So if each
replacement in a run of a visitor has the outcomes of the node in whose place it is put, then what
the run leaves has the outcomes of what was visited. Traversals are the visitors that go through the
parts once and in field order.

## Main definitions

* `Expr.Equivalent`: the same outcome in every lookup.
* `Handler`, `Visitor`: what is done at a node, and at every node.
* `Visitor.Runs`: a run of a visitor, with what it replaced by what.
* `Traversal.visitor`: a traversal as a visitor.

## Main results

* `Expr.equivalent_withChildren`: equivalence is kept when parts are exchanged for equivalent ones.
* `Visitor.Runs.equivalent`: a run keeps equivalence if its replacements do.
* `Traversal.follows_traverse`: a traversal is a run of its visitor.
* `Expr.equivalent_of_replacements`: visitors and traversals that keep the outcomes of expressions.
-/

namespace GraphQuery

variable {σ : Type}

/-! ### Equivalence -/

namespace Expr

/-- Another expression has the outcome of an expression in every lookup. -/
def Equivalent (e d : Expr) : Prop := ∀ lookup, d.eval lookup = e.eval lookup

theorem Equivalent.refl (e : Expr) : e.Equivalent e := fun _ => rfl

theorem Equivalent.trans {a b c : Expr} (h : a.Equivalent b) (h' : b.Equivalent c) :
    a.Equivalent c :=
  fun lookup => (h' lookup).trans (h lookup)

/-- With equivalent parts in place of its own an expression is what it was, up to equivalence. -/
theorem equivalent_withChildren {e : Expr} {cs : List Expr}
    (h : List.Forall₂ Equivalent e.children cs) : e.Equivalent (e.withChildren cs) := by
  intro lookup
  obtain ⟨name, rfl⟩ | hlabel := e.eq_label_or_ne
  · rfl
  · have hparts : List.Forall₂ (SameOutcomes id e lookup lookup) e.parts cs := by
      rw [← map_snd_parts, List.forall₂_map_left_iff] at h
      refine h.imp fun p c hsame _ acc item => ?_
      rw [mapError_id]
      exact (hsame _).symm
    have hsame := eval_withChildren rewordsUnbound_id hlabel hparts
    rwa [mapError_id, eq_comm] at hsame

theorem equivalent_setChild {e c d : Expr} {position : Nat} (hc : e.children[position]? = some c)
    (h : c.Equivalent d) : e.Equivalent (e.setChild position d) := by
  refine equivalent_withChildren ?_
  obtain ⟨hlt, rfl⟩ := List.getElem?_eq_some_iff.1 hc
  refine List.forall₂_iff_get.2 ⟨(List.length_set ..).symm, fun i hi hi' => ?_⟩
  simp only [List.get_eq_getElem, List.getElem_set]
  split
  · next heq =>
      subst heq
      exact h
  · exact .refl _

end Expr

/-! ### Visitors -/

/-- What a visitor has still to do at a node. -/
inductive Handler (σ : Type) where
  /-- It leaves the node in a state, and may put an expression in place of it. -/
  | leave (state : σ) (replacement : Option Expr)
  /-- In a state it visits the part at a position. What it does then depends on the state after
  this visit, on whether the part was replaced, and on the node as it stands now. -/
  | visit (state : σ) (position : Nat) (resume : σ → Bool → Expr → Handler σ)

/-- What to do at each node, by the state in which it is met. -/
abbrev Visitor (σ : Type) := σ → Expr → Handler σ

/-- A handler of a visitor comes to its end at a node: with the node that is left and whether it was
replaced, with a state, and with a list of all that was replaced by what, each as it stood then. -/
inductive Visitor.Runs (v : Visitor σ) :
    Handler σ → Expr → Expr × Bool → σ → List (Expr × Expr) → Prop
  | stand (s : σ) (e : Expr) : Runs v (.leave s none) e (e, false) s []
  | replace (s : σ) (e r : Expr) : Runs v (.leave s (some r)) e (r, true) s [(e, r)]
  | visit {s s₁ s₂ : σ} {position : Nat} {resume : σ → Bool → Expr → Handler σ} {e c : Expr}
      {part result : Expr × Bool} {log log' : List (Expr × Expr)}
      (hc : e.children[position]? = some c) (hpart : Runs v (v s c) c part s₁ log)
      (hrest : Runs v (resume s₁ part.2 (e.setChild position part.1))
        (e.setChild position part.1) result s₂ log') :
      Runs v (.visit s position resume) e result s₂ (log ++ log')

/-- If all that was put in place of nodes is equivalent to them, so is what is left in the end. -/
theorem Visitor.Runs.equivalent {v : Visitor σ} {handler : Handler σ} {e : Expr}
    {result : Expr × Bool} {s : σ} {log : List (Expr × Expr)} (h : v.Runs handler e result s log)
    (hlog : ∀ p ∈ log, p.1.Equivalent p.2) : e.Equivalent result.1 := by
  induction h with
  | stand s e => exact .refl e
  | replace s e r => exact hlog (e, r) (List.mem_singleton_self _)
  | visit hc _ _ hpart hrest =>
      obtain ⟨hfirst, hsecond⟩ := List.forall_mem_append.1 hlog
      exact (Expr.equivalent_setChild hc (hpart hfirst)).trans (hrest hsecond)

/-! ### Traversals as visitors -/

namespace Traversal

section Steps

variable (t : Traversal σ)

/-- Ends the visit of a node that stands with its parts visited. -/
def finish (standing : Expr) : StateM σ (Expr × Bool) := do
  match ← t.leave standing with
  | some replacement => return (replacement, true)
  | none => return (standing, false)

/-- Visits the parts of a node that are left to be visited, behind what the others have become, and
ends the visit of the node. -/
def complete (owner : Expr) (done : List Expr) (todo : List (Expr.Slot × Expr)) :
    StateM σ (Expr × Bool) := do
  t.finish (owner.withChildren (done ++ (← t.visitParts owner todo)))

theorem traverse_eq_complete (e : Expr) :
    e.traverse t = (do t.enter e; t.complete e [] e.parts) := by
  rw [Expr.traverse_eq, visitNode]
  simp only [complete, bind_assoc, pure_bind, List.nil_append]
  rfl

theorem complete_cons (owner : Expr) (done : List Expr) (slot : Expr.Slot) (c : Expr)
    (todo : List (Expr.Slot × Expr)) :
    t.complete owner done ((slot, c) :: todo) = (do
      let d ← t.visitPart owner slot c (c.traverse t)
      t.complete owner (done ++ [d]) todo) := by
  simp [complete, visitParts]

/-- What a traversal does at a node from a position on, given the slots from there on. -/
def handler (owner : Expr) : Nat → List Expr.Slot → σ → Expr → Handler σ
  | _, [], s, standing => .leave ((t.leave standing).run s).2 ((t.leave standing).run s).1
  | position, slot :: slots, s, standing =>
    if ((t.descends owner slot).run s).1 then
      .visit ((t.descends owner slot).run s).2 position fun s _ standing =>
        handler owner (position + 1) slots s standing
    else handler owner (position + 1) slots ((t.descends owner slot).run s).2 standing

/-- A traversal as a visitor. -/
def visitor : Visitor σ := fun s e =>
  t.handler e 0 (e.parts.map Prod.fst) ((t.enter e).run s).2 e

/-- From a state, a handler does what a computation does, and all that it replaces are nodes of an
expression, perhaps with other parts, replaced as the traversal says. -/
def Follows (owner : Expr) (handler : Handler σ) (e : Expr) (visit : StateM σ (Expr × Bool))
    (s : σ) : Prop :=
  ∃ log, t.visitor.Runs handler e (visit.run s).1 (visit.run s).2 log ∧
    ∀ p ∈ log, (∃ n ∈ owner.nodes, n.SameRoot p.1) ∧ ∃ s, ((t.leave p.1).run s).1 = some p.2

end Steps

variable {t : Traversal σ} {owner standing : Expr}

theorem follows_leave (h : owner.SameRoot standing) (s : σ) :
    t.Follows owner (t.handler owner 0 [] s standing) standing (t.finish standing) s := by
  rw [Follows, finish, run_bind_eq, handler]
  cases hleave : ((t.leave standing).run s).1 with
  | none => exact ⟨[], .stand _ _, by simp⟩
  | some r =>
      refine ⟨_, .replace _ _ _, fun p hp => ?_⟩
      obtain rfl := List.mem_singleton.1 hp
      exact ⟨⟨owner, owner.mem_nodes_self, h⟩, s, hleave⟩

/-- From any position on, the handler of a node does what the traversal does with its parts from there
on, if this is so for each of the parts. -/
theorem follows_handler
    (ih : ∀ c ∈ owner.children, ∀ s, t.Follows c (t.visitor s c) c (c.traverse t) s)
    (todo : List (Expr.Slot × Expr)) (htodo : ∀ p ∈ todo, p.2 ∈ owner.children)
    (done : List Expr) (hlength : (done ++ todo.map Prod.snd).length = owner.children.length)
    (s : σ) :
    t.Follows owner (t.handler owner done.length (todo.map Prod.fst) s
        (owner.withChildren (done ++ todo.map Prod.snd)))
      (owner.withChildren (done ++ todo.map Prod.snd)) (t.complete owner done todo) s := by
  induction todo generalizing done s with
  | nil => exact follows_leave (Expr.withChildren_spec hlength).2 s
  | cons part todo iht =>
    obtain ⟨slot, c⟩ := part
    obtain ⟨hc, htodo⟩ := List.forall_mem_cons.1 htodo
    have hnext (d : Expr) (s : σ) := iht htodo (done ++ [d]) (by simpa using hlength) s
    simp only [List.length_append, List.length_singleton] at hnext
    rw [List.map_cons, List.map_cons, complete_cons, handler]
    cases hdescends : ((t.descends owner slot).run s).1 with
    | true =>
        have hpart : (t.visitPart owner slot c (c.traverse t)).run s =
            (((c.traverse t).run ((t.descends owner slot).run s).2).1.1,
              ((c.traverse t).run ((t.descends owner slot).run s).2).2) := by
          rw [visitPart, run_bind_eq, hdescends]
          rfl
        obtain ⟨log, hruns, hlog⟩ := ih c hc ((t.descends owner slot).run s).2
        obtain ⟨log', hruns', hlog'⟩ := hnext _
          ((c.traverse t).run ((t.descends owner slot).run s).2).2
        rw [← Expr.setChild_withChildren hlength] at hruns'
        rw [if_pos rfl, Follows, run_bind_eq, hpart]
        refine ⟨_, .visit (Expr.children_withChildren_append hlength) hruns hruns', ?_⟩
        rw [List.forall_mem_append]
        refine ⟨fun p hp => ?_, hlog'⟩
        obtain ⟨⟨n, hn, hsame⟩, hleave⟩ := hlog p hp
        exact ⟨⟨n, Expr.mem_nodes_iff.2 (.inr ⟨c, hc, hn⟩), hsame⟩, hleave⟩
    | false =>
        have hpart : (t.visitPart owner slot c (c.traverse t)).run s =
            (c, ((t.descends owner slot).run s).2) := by
          rw [visitPart, run_bind_eq, hdescends]
          rfl
        rw [if_neg Bool.false_ne_true, Follows, run_bind_eq, hpart, List.append_cons]
        exact hnext c _

/-- A traversal is a run of its visitor. -/
theorem follows_traverse (e : Expr) (s : σ) :
    t.Follows e (t.visitor s e) e (e.traverse t) s := by
  induction e using Expr.induction_on_children generalizing s with
  | step e ih =>
    have hparts := follows_handler ih e.parts (fun _ => Expr.mem_children_of_mem_parts) []
      (by simp [Expr.length_parts]) ((t.enter e).run s).2
    rw [List.nil_append, Expr.map_snd_parts, Expr.withChildren_children] at hparts
    rw [Follows, traverse_eq_complete, run_bind_eq]
    exact hparts

end Traversal

/-! ### What keeps the outcomes of expressions -/

namespace Expr

/-- A run of a visitor leaves an expression that has the outcomes of the one it visited, if each
expression that it put in place of a node has the outcomes of the node as it stood then. So does a
traversal of an expression without placeholders, if it puts only equivalent expressions in place of
nodes that are none; for then it meets no placeholder. -/
theorem equivalent_of_replacements {σ : Type} :
    (∀ (v : Visitor σ) (s s' : σ) (e : Expr) (result : Expr × Bool) (log : List (Expr × Expr)),
      v.Runs (v s e) e result s' log → (∀ p ∈ log, p.1.Equivalent p.2) →
        e.Equivalent result.1) ∧
      ∀ (t : Traversal σ) (e : Expr), e.isResolved = true →
        (∀ standing s r, standing.isPlaceholder = false →
          ((t.leave standing).run s).1 = some r → standing.Equivalent r) →
        ∀ s, e.Equivalent ((e.traverse t).run s).1.1 := by
  refine ⟨fun v s s' e result log hruns hlog => hruns.equivalent hlog,
    fun t e he hleave s => ?_⟩
  obtain ⟨log, hruns, hlog⟩ := t.follows_traverse e s
  refine hruns.equivalent fun p hp => ?_
  obtain ⟨⟨n, hn, hsame⟩, s', hreplaced⟩ := hlog p hp
  refine hleave p.1 s' p.2 ?_ hreplaced
  rw [hsame.isPlaceholder_eq]
  exact isResolved_iff.1 he n hn

/-- The value of an expression without names as a constant, if it has one. -/
def folded? (e : Expr) : Option Expr :=
  if e.isConstant then (e.eval fun _ => none).toOption.map constant else none

theorem equivalent_of_folded? {e r : Expr} (h : e.folded? = some r) : e.Equivalent r := by
  rw [folded?] at h
  split at h
  · next hconstant =>
      obtain ⟨v, hv, rfl⟩ := Option.map_eq_some_iff.1 h
      intro lookup
      have hnames : e.eval lookup = e.eval fun _ => none := by
        refine eval_congr fun name hname => ?_
        rw [freeNames_of_isConstant hconstant] at hname
        exact absurd hname List.not_mem_nil
      rw [hnames]
      cases heval : e.eval fun _ => none with
      | error err =>
          rw [heval] at hv
          cases hv
      | ok w =>
          rw [heval] at hv
          obtain rfl := Option.some.inj hv
          rfl
  · cases h

/-- Constants folded by a traversal, in the collection and in the mapping of a comprehension, and by
a visitor that looks at the right operand only, and counts. -/
theorem equivalent_of_replacements_folded :
    (comprehension "x" (list [constant (.int 1)]) none
        (some (arithmetic .mul (label "x") (arithmetic .add (constant (.int 1))
          (constant (.int 2))))) none).Equivalent
        (comprehension "x" (constant (.list [.int 1])) none
          (some (arithmetic .mul (label "x") (constant (.int 3)))) none) ∧
      (arithmetic .sub (label "y") (unary .minus (constant (.int 1)))).Equivalent
        (arithmetic .sub (label "y") (constant (.int (-1)))) := by
  obtain ⟨-, htraversal⟩ := @equivalent_of_replacements (List Expr)
  obtain ⟨hvisitor, -⟩ := @equivalent_of_replacements Nat
  constructor
  · exact htraversal (.recording (fun _ => false) folded?) _ rfl
      (fun standing s r _ hr => equivalent_of_folded? hr) []
  · let v : Visitor Nat := fun s e =>
      e.folded?.elim (.visit s 1 fun s _ _ => .leave s none) fun r => .leave (s + 1) (some r)
    let minus := unary .minus (constant (.int 1))
    have hright : v.Runs (v 0 minus) minus (constant (.int (-1)), true) 1
        [(minus, constant (.int (-1)))] := .replace 1 minus _
    have hrun : v.Runs (v 0 (arithmetic .sub (label "y") minus))
        (arithmetic .sub (label "y") minus)
        (arithmetic .sub (label "y") (constant (.int (-1))), false) 1
        ([(minus, constant (.int (-1)))] ++ []) := by
      change v.Runs (.visit 0 1 fun s _ _ => .leave s none) _ _ _ _
      exact .visit rfl hright (.stand 1 _)
    refine hvisitor v 0 1 _ _ _ hrun fun p hp => ?_
    obtain rfl := List.mem_singleton.1 hp
    exact equivalent_of_folded? rfl

end Expr

end GraphQuery
