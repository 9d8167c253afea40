import Mathlib.Algebra.GroupWithZero.Nat
import Mathlib.Data.List.Nodup
import GraphQuery.Proofs.Expr.Scoping

/-!
# Paths into an expression

A path is a list of positions: each tells to which direct part it goes on, from the root inwards.
An expression is known once it is known what stands at each of its paths, the parts of what stands
there apart. On its way a path passes nodes that bind names in the part to which it goes on; a name
is free at a path if a label of this name stands there that none of these nodes binds.

## Main definitions

* `Expr.partAt?`: the part to which a path leads.
* `Expr.boundAlong`: the names that are bound on the way along a path.
* `Expr.FreeAt`: a name is free at a path.
* `Expr.bare`: what stands at the root of an expression.
* `Enumerates`: a list has just the paths with a property, each once.

## Main results

* `Expr.eq_of_bare_partAt?`: an expression is known by what stands at its paths.
* `Expr.exists_enumerates_freeAt`: there are as many paths at which a name is free as there are
  free names that are equal to it.
-/

namespace GraphQuery

namespace Expr

/-- The part to which a path leads. -/
def partAt? : Expr → List Nat → Option Expr
  | e, [] => some e
  | e, i :: path => e.parts[i]?.bind fun p => p.2.partAt? path

/-- The names that nodes on the way along a path bind in the part to which it goes on. -/
def boundAlong : Expr → List Nat → List String
  | _, [] => []
  | e, i :: path =>
    match e.parts[i]? with
    | some p => e.boundIn p.1 ++ p.2.boundAlong path
    | none => []

/-- A label with the name stands at the end of the path, and the name is not bound on the way. -/
def FreeAt (e : Expr) (name : String) (path : List Nat) : Prop :=
  e.partAt? path = some (.label name) ∧ name ∉ e.boundAlong path

variable {e : Expr} {name : String} {path : List Nat}

/-- A path goes on by the position of a direct part. -/
theorem partAt?_cons (e : Expr) (i : Nat) (path : List Nat) :
    e.partAt? (i :: path) = e.children[i]?.bind (partAt? · path) := by
  rw [partAt?, ← map_snd_parts, List.getElem?_map]
  cases e.parts[i]? <;> rfl

theorem freeAt_nil_iff : e.FreeAt name [] ↔ e = .label name := by
  simp [FreeAt, partAt?, boundAlong]

theorem freeAt_cons_iff {i : Nat} :
    e.FreeAt name (i :: path) ↔
      ∃ p, e.parts[i]? = some p ∧ name ∉ e.boundIn p.1 ∧ p.2.FreeAt name path := by
  cases hp : e.parts[i]? with
  | none => simp [FreeAt, partAt?, hp]
  | some p =>
      simp only [FreeAt, partAt?, boundAlong, hp, Option.bind_some, List.mem_append, not_or,
        Option.some_inj, exists_eq_left']
      exact and_left_comm

/-- What is at the end of a path is a node of the expression. -/
theorem mem_nodes_of_partAt? {n : Expr} (h : e.partAt? path = some n) : n ∈ e.nodes := by
  induction path generalizing e with
  | nil =>
      obtain rfl := Option.some.inj h
      exact mem_nodes_self e
  | cons i path ih =>
      obtain ⟨p, hp, hn⟩ := Option.bind_eq_some_iff.1 h
      have hmem := mem_children_of_mem_parts (List.mem_of_getElem? hp)
      exact mem_nodes_iff.2 (.inr ⟨p.2, hmem, ih hn⟩)

/-! ### What stands at a root -/

/-- What stands at the root of an expression: the same expression with nulls for its parts. -/
def bare (e : Expr) : Expr := e.withChildren (e.children.map fun _ => .constant .null)

theorem bare_spec (e : Expr) :
    e.bare.children = (e.children.map fun _ => .constant .null) ∧ SameRoot e e.bare :=
  withChildren_spec (by rw [List.length_map])

theorem length_children_bare (e : Expr) : e.bare.children.length = e.children.length := by
  rw [e.bare_spec.1, List.length_map]

/-- An expression is what stands at its root and its parts. -/
theorem withChildren_bare {cs : List Expr} (h : cs.length = e.children.length) :
    e.bare.withChildren cs = e.withChildren cs :=
  withChildren_withChildren (by rw [List.length_map]) h

/-- The parts make no difference to what stands at the root. -/
theorem bare_mapParts (e : Expr) (f : Slot × Expr → Expr) : (e.mapParts f).bare = e.bare := by
  have hlength : (e.parts.map f).length = e.children.length := by
    rw [List.length_map, length_parts]
  have hblank : (e.mapParts f).children.map (fun _ => constant .null) =
      e.children.map fun _ => constant .null := by
    rw [mapParts, (withChildren_spec hlength).1, List.map_const', List.map_const', hlength]
  rw [bare, hblank]
  exact withChildren_withChildren hlength (by rw [List.length_map])

theorem eq_label_of_bare (h : e.bare = .label name) : e = .label name := by
  have hsame := e.bare_spec.2
  rw [h] at hsame
  cases hsame
  rfl

/-- At every path of two expressions the same stands only if they are the same. -/
theorem eq_of_bare_partAt? {a b : Expr}
    (h : ∀ path, (a.partAt? path).map bare = (b.partAt? path).map bare) : a = b := by
  induction a using induction_on_children generalizing b with
  | step a ih =>
    have hroot : a.bare = b.bare := Option.some.inj (h [])
    have hlength : a.parts.length = b.parts.length := by
      rw [length_parts, length_parts, ← a.length_children_bare, hroot, b.length_children_bare]
    have hchildren : a.children = b.children := by
      rw [← map_snd_parts, ← map_snd_parts]
      refine List.ext_getElem (by simpa using hlength) fun i ha hb => ?_
      rw [List.length_map] at ha hb
      rw [List.getElem_map, List.getElem_map]
      refine ih _ (mem_children_of_mem_parts (List.getElem_mem ha)) fun path => ?_
      simpa [partAt?, List.getElem?_eq_getElem ha, List.getElem?_eq_getElem hb] using h (i :: path)
    calc a = a.bare.withChildren a.children := by
          rw [withChildren_bare rfl, withChildren_children]
      _ = b.bare.withChildren b.children := by rw [hroot, hchildren]
      _ = b := by rw [withChildren_bare rfl, withChildren_children]

end Expr

/-! ### Counting paths -/

/-- A list has just the paths with a property, each of them once. -/
structure Enumerates (paths : List (List Nat)) (P : List Nat → Prop) : Prop where
  nodup : paths.Nodup
  mem_iff : ∀ path, path ∈ paths ↔ P path

/-- Paths with the same property are as many, however they are listed. -/
theorem Enumerates.length_eq {paths paths' : List (List Nat)} {P : List Nat → Prop}
    (h : Enumerates paths P) (h' : Enumerates paths' P) : paths.length = paths'.length :=
  ((List.perm_ext_iff_of_nodup h.nodup h'.nodup).2 fun path =>
    (h.mem_iff path).trans (h'.mem_iff path).symm).length_eq

/-- The paths with a property that go on to one of some parts, whose positions are counted from an
offset: the paths of all parts, each behind the position of its part. -/
theorem exists_enumerates_parts {P : Expr.Slot × Expr → List Nat → Prop}
    {count : Expr.Slot × Expr → Nat} {parts : List (Expr.Slot × Expr)}
    (h : ∀ p ∈ parts, ∃ paths, Enumerates paths (P p) ∧ paths.length = count p) (offset : Nat) :
    ∃ paths, Enumerates paths (fun path =>
        ∃ i p rest, path = (offset + i) :: rest ∧ parts[i]? = some p ∧ P p rest) ∧
      paths.length = (parts.map count).sum := by
  induction parts generalizing offset with
  | nil => exact ⟨[], ⟨List.nodup_nil, by simp⟩, rfl⟩
  | cons part parts ih =>
      obtain ⟨hpart, hparts⟩ := List.forall_mem_cons.1 h
      obtain ⟨first, hfirst, hfirstLength⟩ := hpart
      obtain ⟨others, hothers, hothersLength⟩ := ih hparts (offset + 1)
      refine ⟨first.map (offset :: ·) ++ others, ⟨?_, fun path => ?_⟩, ?_⟩
      · refine List.nodup_append.2 ⟨?_, hothers.nodup, ?_⟩
        · exact (List.nodup_map_iff fun _ _ heq => (List.cons.inj heq).2).2 hfirst.nodup
        · rintro _ hmem path hother rfl
          obtain ⟨rest, -, rfl⟩ := List.mem_map.1 hmem
          obtain ⟨i, p, rest, heq, -⟩ := (hothers.mem_iff _).1 hother
          have hposition := (List.cons.inj heq).1
          omega
      · rw [List.mem_append, List.mem_map, hothers.mem_iff]
        constructor
        · rintro (⟨rest, hrest, rfl⟩ | ⟨i, p, rest, rfl, hp, hP⟩)
          · exact ⟨0, part, rest, rfl, rfl, (hfirst.mem_iff rest).1 hrest⟩
          · exact ⟨i + 1, p, rest, by rw [Nat.add_right_comm, Nat.add_assoc], hp, hP⟩
        · rintro ⟨i, p, rest, rfl, hp, hP⟩
          cases i with
          | zero =>
              obtain rfl := Option.some.inj hp
              exact .inl ⟨rest, (hfirst.mem_iff rest).2 hP, rfl⟩
          | succ i => exact .inr ⟨i, p, rest, by rw [Nat.add_right_comm, Nat.add_assoc], hp, hP⟩
      · rw [List.length_append, List.length_map, hfirstLength, hothersLength, List.map_cons,
          List.sum_cons]

namespace Expr

/-- How often a name is free in an expression, by how often it is in the parts. -/
theorem count_freeNames {e : Expr} (hlabel : ∀ name, e ≠ .label name) (name : String) :
    e.freeNames.count name =
      (e.parts.map fun p =>
        if name ∈ e.boundIn p.1 then 0 else p.2.freeNames.count name).sum := by
  rw [freeNames_eq hlabel, List.count_flatMap]
  refine congrArg List.sum (List.map_congr_left fun p _ => ?_)
  rw [Function.comp_apply, freeOutside]
  split
  · next hbound =>
      refine List.count_eq_zero.2 fun hmem => ?_
      simp [hbound] at hmem
  · next hfree => exact List.count_filter (by simp [hfree])

/-- A name is free at as many paths as the list of free names has it. -/
theorem exists_enumerates_freeAt (e : Expr) (name : String) :
    ∃ paths, Enumerates paths (e.FreeAt name) ∧ paths.length = e.freeNames.count name := by
  induction e using induction_on_children with
  | step e ih =>
    obtain ⟨other, rfl⟩ | hlabel := e.eq_label_or_ne
    · have hcons (i : Nat) (path : List Nat) : ¬ (label other).FreeAt name (i :: path) := by
        simp [freeAt_cons_iff, parts]
      by_cases hname : other = name
      · subst hname
        refine ⟨[[]], ⟨List.nodup_singleton _, fun path => ?_⟩, by simp [freeNames]⟩
        cases path with
        | nil => simp [freeAt_nil_iff]
        | cons i path => simp [hcons]
      · refine ⟨[], ⟨List.nodup_nil, fun path => ?_⟩, by simp [freeNames, hname]⟩
        cases path with
        | nil => simp [freeAt_nil_iff, hname]
        | cons i path => simp [hcons]
    · have hparts (p : Slot × Expr) (hp : p ∈ e.parts) : ∃ paths,
          Enumerates paths (fun path => name ∉ e.boundIn p.1 ∧ p.2.FreeAt name path) ∧
            paths.length = if name ∈ e.boundIn p.1 then 0 else p.2.freeNames.count name := by
        by_cases hbound : name ∈ e.boundIn p.1
        · exact ⟨[], ⟨List.nodup_nil, by simp [hbound]⟩, by simp [hbound]⟩
        · simpa [hbound] using ih p.2 (mem_children_of_mem_parts hp)
      obtain ⟨paths, hpaths, hlength⟩ := exists_enumerates_parts hparts 0
      refine ⟨paths, ⟨hpaths.nodup, fun path => (hpaths.mem_iff path).trans ?_⟩,
        hlength.trans (count_freeNames hlabel name).symm⟩
      cases path with
      | nil => simp [freeAt_nil_iff, hlabel name]
      | cons i path => simp [freeAt_cons_iff]

end Expr

end GraphQuery
