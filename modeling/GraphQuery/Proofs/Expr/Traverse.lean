import Mathlib.Algebra.GroupWithZero.Nat
import GraphQuery.Expr.Traverse
import GraphQuery.Proofs.Expr.Nodes
import GraphQuery.Proofs.Expr.Parts

/-!
# What traversals do

A traversal does the same at every node, whatever its form: it visits the parts in field order and
then replaces the node or leaves it standing with the parts as they are then. So what is shown of
all traversals is shown by induction on the direct parts.

## Main definitions

* `Traversal.visitParts`: visits parts in their slots, one after the other.
* `Agree`, `Traversal.Simulates`: computations and traversals that do the same from related states.
* `Traversal.logging`, `Traversal.replacements`: what a traversal puts in place of nodes.
* `Within`: what holds of a result if all that was listed is in a class.

## Main results

* `Expr.traverse_eq`: a traversal of a node by the traversals of its parts.
* `Expr.run_traverse`, `Traversal.run_visitParts`: what comes of a node, and what comes of parts.
* `Traversal.run_visitParts_counting`, `Traversal.run_visitParts_listing`: what is counted and what
  is listed in parts.
* `Expr.traverse_simulates`: traversals that agree at every node agree on every expression.
* `Expr.traverse_keeps`: a traversal does not leave a class of expressions that its replacements
  are in.
-/

namespace GraphQuery

variable {σ τ : Type}

/-- Visits parts in their slots, one after the other. -/
def Traversal.visitParts (t : Traversal σ) (owner : Expr) :
    List (Expr.Slot × Expr) → StateM σ (List Expr)
  | [] => pure []
  | (slot, e) :: parts => do
    let first ← t.visitPart owner slot e (e.traverse t)
    let rest ← visitParts t owner parts
    return first :: rest

namespace Expr

theorem traverseAll_eq (t : Traversal σ) (owner : Expr) (position : Nat) (es : List Expr) :
    traverseAll t owner position es = t.visitParts owner (operandsFrom position es) := by
  induction es generalizing position with
  | nil => rfl
  | cons e es ih => rw [traverseAll, operandsFrom, Traversal.visitParts, ih]

/-- A traversal of a node by the traversals of its parts. -/
theorem traverse_eq (t : Traversal σ) (e : Expr) :
    e.traverse t =
      t.visitNode e (do return e.withChildren (← t.visitParts e e.parts)) := by
  cases e with
  | comprehension _ _ filter mapping _ =>
      cases filter <;> cases mapping <;>
        simp only [traverse, traverseOptional, parts, Traversal.visitParts, withChildren,
          Option.toList, List.map, List.cons_append, List.nil_append, bind_assoc, pure_bind]
  | quantified _ _ _ filter _ =>
      cases filter <;>
        simp only [traverse, traverseOptional, parts, Traversal.visitParts, withChildren,
          Option.toList, List.map, bind_assoc, pure_bind]
  | _ =>
      simp only [traverse, traverseAll_eq, parts, Traversal.visitParts, withChildren, bind_assoc,
        pure_bind]

end Expr

/-! ### Traversals that agree -/

variable {α β : Type}

theorem run_bind_eq (x : StateM σ α) (next : α → StateM σ β) (s : σ) :
    (x >>= next).run s = (next (x.run s).1).run (x.run s).2 := rfl

/-- What comes of a node, by what comes of its parts and by what is put in its place. -/
theorem Expr.run_traverse {t : Traversal σ} {e : Expr} {children : List Expr}
    {replacement : Option Expr} {s s' s'' : σ}
    (hparts : (t.visitParts e e.parts).run ((t.enter e).run s).2 = (children, s'))
    (hleave : (t.leave (e.withChildren children)).run s' = (replacement, s'')) :
    (e.traverse t).run s =
      ((replacement.getD (e.withChildren children), replacement.isSome), s'') := by
  have hstanding : (do return e.withChildren (← t.visitParts e e.parts) : StateM σ Expr).run
      ((t.enter e).run s).2 = (e.withChildren children, s') := by
    rw [run_bind_eq, hparts]
    rfl
  rw [traverse_eq, Traversal.visitNode, run_bind_eq, run_bind_eq, hstanding, run_bind_eq, hleave]
  cases replacement <;> rfl

/-- Two computations give the same result from related states, and leave related states. -/
def Agree (S : σ → τ → Prop) (x : StateM σ α) (y : StateM τ α) : Prop :=
  ∀ s s', S s s' → (x.run s).1 = (y.run s').1 ∧ S (x.run s).2 (y.run s').2

variable {S : σ → τ → Prop}

theorem agree_pure (a : α) : Agree S (pure a) (pure a) := fun _ _ hs => ⟨rfl, hs⟩

theorem Agree.bind {x : StateM σ α} {y : StateM τ α} {next : α → StateM σ β}
    {next' : α → StateM τ β} (h : Agree S x y) (hnext : ∀ a, Agree S (next a) (next' a)) :
    Agree S (x >>= next) (y >>= next') := by
  intro s s' hs
  obtain ⟨hresult, hstate⟩ := h s s' hs
  rw [run_bind_eq, run_bind_eq, hresult]
  exact hnext _ _ _ hstate

/-- At every node, two traversals do the same with related states. -/
structure Traversal.Simulates (S : σ → τ → Prop) (t : Traversal σ) (t' : Traversal τ) : Prop where
  enter : ∀ e, Agree S (t.enter e) (t'.enter e)
  descends : ∀ e slot, Agree S (t.descends e slot) (t'.descends e slot)
  leave : ∀ e, Agree S (t.leave e) (t'.leave e)

theorem Traversal.Simulates.visitParts {t : Traversal σ} {t' : Traversal τ} (h : t.Simulates S t')
    (owner : Expr) {parts : List (Expr.Slot × Expr)}
    (hparts : ∀ p ∈ parts, Agree S (p.2.traverse t) (p.2.traverse t')) :
    Agree S (t.visitParts owner parts) (t'.visitParts owner parts) := by
  induction parts with
  | nil => exact agree_pure []
  | cons part parts ih =>
      obtain ⟨hfirst, hrest⟩ := List.forall_mem_cons.1 hparts
      have hpart : Agree S (t.visitPart owner part.1 part.2 (part.2.traverse t))
          (t'.visitPart owner part.1 part.2 (part.2.traverse t')) := by
        refine (h.descends owner part.1).bind fun descends => ?_
        cases descends with
        | true => exact hfirst.bind fun _ => agree_pure _
        | false => exact agree_pure _
      exact hpart.bind fun _ => (ih hrest).bind fun _ => agree_pure _

/-- Traversals that agree at every node agree on every expression. -/
theorem Expr.traverse_simulates {t : Traversal σ} {t' : Traversal τ} (h : t.Simulates S t')
    (e : Expr) : Agree S (e.traverse t) (e.traverse t') := by
  induction e using Expr.induction_on_children with
  | step e ih =>
    rw [traverse_eq, traverse_eq]
    refine (h.enter e).bind fun _ => ?_
    have hparts := h.visitParts e fun p hp => ih p.2 (mem_children_of_mem_parts hp)
    refine (hparts.bind fun _ => agree_pure _).bind fun standing => ?_
    refine (h.leave standing).bind fun replacement => ?_
    cases replacement with
    | none => exact agree_pure _
    | some r => exact agree_pure _

/-! ### Traversals that visit parts by their slots -/

section Slots

variable {owner : Expr} {visits : Expr.Slot → Bool} {parts : List (Expr.Slot × Expr)}

/-- Where a traversal goes by the slot into the parts of a node, it does in those that it visits
what it does in each, one after the other. -/
theorem Traversal.run_visitParts {t : Traversal σ} (result : Expr → Expr × Bool)
    (next : σ → Expr → σ)
    (hdescends : ∀ slot s, (t.descends owner slot).run s = (visits slot, s))
    (h : ∀ p ∈ parts, ∀ s, (p.2.traverse t).run s = (result p.2, next s p.2)) (s : σ) :
    (t.visitParts owner parts).run s =
      (parts.map fun p => if visits p.1 then (result p.2).1 else p.2,
        parts.foldl (fun s p => if visits p.1 then next s p.2 else s) s) := by
  induction parts generalizing s with
  | nil => rfl
  | cons part parts ih =>
      obtain ⟨hfirst, hrest⟩ := List.forall_mem_cons.1 h
      have hpart : (t.visitPart owner part.1 part.2 (part.2.traverse t)).run s =
          (if visits part.1 then (result part.2).1 else part.2,
            if visits part.1 then next s part.2 else s) := by
        rw [visitPart, run_bind_eq, hdescends]
        cases visits part.1 with
        | false => rfl
        | true =>
            rw [if_pos rfl, if_pos rfl, run_bind_eq, hfirst]
            rfl
      rw [visitParts, run_bind_eq, hpart, run_bind_eq, ih hrest]
      rfl

/-- A traversal that adds to its count in each part adds up what it counts in the parts that it
visits. -/
theorem Traversal.run_visitParts_counting {t : Traversal Nat} (result : Expr → Expr × Bool)
    (count : Expr → Nat)
    (hdescends : ∀ slot n, (t.descends owner slot).run n = (visits slot, n))
    (h : ∀ p ∈ parts, ∀ n, (p.2.traverse t).run n = (result p.2, n + count p.2)) (n : Nat) :
    (t.visitParts owner parts).run n =
      (parts.map fun p => if visits p.1 then (result p.2).1 else p.2,
        n + (parts.map fun p => if visits p.1 then count p.2 else 0).sum) := by
  rw [run_visitParts result (fun n e => n + count e) hdescends h]
  refine congrArg (Prod.mk _) ?_
  clear h
  induction parts generalizing n with
  | nil => rfl
  | cons part parts ih =>
      rw [List.foldl_cons, ih, List.map_cons, List.sum_cons, ← Nat.add_assoc]
      cases visits part.1 <;> rfl

/-- A traversal that lists something in each part lists this for the parts that it visits, one
after the other. -/
theorem Traversal.run_visitParts_listing {t : Traversal (List α)} (result : Expr → Expr × Bool)
    (listed : Expr → List α)
    (hdescends : ∀ slot log, (t.descends owner slot).run log = (visits slot, log))
    (h : ∀ p ∈ parts, ∀ log, (p.2.traverse t).run log = (result p.2, log ++ listed p.2))
    (log : List α) :
    (t.visitParts owner parts).run log =
      (parts.map fun p => if visits p.1 then (result p.2).1 else p.2,
        log ++ parts.flatMap fun p => if visits p.1 then listed p.2 else []) := by
  rw [run_visitParts result (fun log e => log ++ listed e) hdescends h]
  refine congrArg (Prod.mk _) ?_
  clear h
  induction parts generalizing log with
  | nil => exact (List.append_nil log).symm
  | cons part parts ih =>
      rw [List.foldl_cons, ih, List.flatMap_cons, ← List.append_assoc]
      cases visits part.1 with
      | true => rfl
      | false => exact congrArg (· ++ _) (List.append_nil log).symm

end Slots

/-! ### Replacements -/

/-- Does the same, and lists what is put in place of nodes. -/
def Traversal.logging (t : Traversal σ) : Traversal (σ × List Expr) where
  enter e := fun s => ((), ((t.enter e).run s.1).2, s.2)
  descends e slot := fun s =>
    (((t.descends e slot).run s.1).1, ((t.descends e slot).run s.1).2, s.2)
  leave e := fun s =>
    (((t.leave e).run s.1).1, ((t.leave e).run s.1).2, s.2 ++ ((t.leave e).run s.1).1.toList)

/-- The expressions that a traversal puts in place of nodes of an expression. -/
def Traversal.replacements (t : Traversal σ) (s : σ) (e : Expr) : List Expr :=
  ((e.traverse t.logging).run (s, [])).2.2

theorem Traversal.simulates_logging (t : Traversal σ) :
    t.Simulates (fun s logged => s = logged.1) t.logging where
  enter _ := by
    rintro s ⟨_, log⟩ rfl
    exact ⟨rfl, rfl⟩
  descends _ _ := by
    rintro s ⟨_, log⟩ rfl
    exact ⟨rfl, rfl⟩
  leave _ := by
    rintro s ⟨_, log⟩ rfl
    exact ⟨rfl, rfl⟩

/-- A computation only adds to the list, and if all that is listed in the end is in a class then the
result satisfies a condition. -/
def Within (C : Expr → Prop) (x : StateM (σ × List Expr) α) (post : α → Prop) : Prop :=
  ∀ s, s.2 ⊆ (x.run s).2.2 ∧ ((∀ r ∈ (x.run s).2.2, C r) → post (x.run s).1)

variable {C : Expr → Prop}

theorem within_pure {a : α} {post : α → Prop} (h : post a) :
    Within C (pure a : StateM (σ × List Expr) α) post :=
  fun _ => ⟨List.Subset.refl _, fun _ => h⟩

theorem Within.bind {x : StateM (σ × List Expr) α} {next : α → StateM (σ × List Expr) β}
    {P : α → Prop} {Q : β → Prop} (h : Within C x P)
    (hnext : ∀ a, Within C (next a) fun b => P a → Q b) : Within C (x >>= next) Q := by
  intro s
  obtain ⟨hfirst, hP⟩ := h s
  obtain ⟨hsecond, hQ⟩ := hnext (x.run s).1 (x.run s).2
  rw [run_bind_eq]
  refine ⟨List.Subset.trans hfirst hsecond, fun hall => hQ hall (hP fun r hr => ?_)⟩
  exact hall r (hsecond hr)

namespace Traversal

variable (t : Traversal σ)

theorem within_enter (e : Expr) : Within C (t.logging.enter e) fun _ => True :=
  fun _ => ⟨List.Subset.refl _, fun _ => trivial⟩

theorem within_descends (e : Expr) (slot : Expr.Slot) :
    Within C (t.logging.descends e slot) fun _ => True :=
  fun _ => ⟨List.Subset.refl _, fun _ => trivial⟩

/-- What is put in place of a node is listed. -/
theorem within_leave (e : Expr) : Within C (t.logging.leave e) fun r? => ∀ r ∈ r?, C r :=
  fun _ => ⟨List.subset_append_left _ _,
    fun hall r hr => hall r (List.mem_append_right _ (Option.mem_toList.2 hr))⟩

theorem within_visitParts (owner : Expr) {parts : List (Expr.Slot × Expr)}
    (h : ∀ p ∈ parts, Within C (p.2.traverse t.logging) fun result => C p.2 → C result.1) :
    Within C (t.logging.visitParts owner parts) fun cs =>
      cs.length = parts.length ∧ ((∀ p ∈ parts, C p.2) → ∀ c ∈ cs, C c) := by
  induction parts with
  | nil => exact within_pure ⟨rfl, by simp⟩
  | cons part parts ih =>
      obtain ⟨hfirst, hrest⟩ := List.forall_mem_cons.1 h
      have hpart : Within C (t.logging.visitPart owner part.1 part.2 (part.2.traverse t.logging))
          fun c => C part.2 → C c := by
        refine (t.within_descends owner part.1).bind fun descends => ?_
        cases descends with
        | true => exact hfirst.bind fun result => within_pure fun hresult _ => hresult
        | false => exact within_pure fun _ hc => hc
      refine hpart.bind fun c => (ih hrest).bind fun cs => within_pure ?_
      rintro ⟨hlength, hcs⟩ hc
      refine ⟨congrArg (· + 1) hlength, fun hall => ?_⟩
      obtain ⟨hhead, htail⟩ := List.forall_mem_cons.1 hall
      exact List.forall_mem_cons.2 ⟨hc hhead, hcs htail⟩

end Traversal

/-- A class of expressions that is closed under taking parts and under exchanging parts is kept by
a traversal whose replacements are in it. -/
theorem Expr.traverse_keeps {t : Traversal σ} {s : σ} {e : Expr}
    (hpart : ∀ e c, C e → c ∈ e.children → C c)
    (hroot : ∀ e e', C e → SameRoot e e' → (∀ c ∈ e'.children, C c) → C e')
    (h : ∀ r ∈ t.replacements s e, C r) (he : C e) : C ((e.traverse t).run s).1.1 := by
  have hwithin (e : Expr) : Within C (e.traverse t.logging) fun result => C e → C result.1 := by
    induction e using Expr.induction_on_children with
    | step e ih =>
      rw [traverse_eq]
      refine (t.within_enter e).bind fun _ => ?_
      have hparts := t.within_visitParts e fun p hp => ih p.2 (mem_children_of_mem_parts hp)
      refine Within.bind (P := fun standing => C e → C standing) ?_ fun standing => ?_
      · refine hparts.bind fun cs => within_pure ?_
        rintro ⟨hlength, hcs⟩ he
        rw [length_parts] at hlength
        obtain ⟨hchildren, hsame⟩ := withChildren_spec hlength
        refine hroot e _ he hsame ?_
        rw [hchildren]
        exact hcs fun p hp => hpart e p.2 he (mem_children_of_mem_parts hp)
      · refine (t.within_leave standing).bind fun replacement => ?_
        cases replacement with
        | none => exact within_pure fun _ hstanding _ => hstanding
        | some r => exact within_pure fun hr _ _ _ => hr r rfl
  obtain ⟨hresult, -⟩ := traverse_simulates t.simulates_logging e s (s, []) rfl
  rw [hresult]
  exact (hwithin e (s, [])).2 h he

end GraphQuery
