import GraphQuery.Proofs.Expr.Paths
import GraphQuery.Proofs.Expr.Renaming

/-!
# What a renaming changes

A renaming changes an expression at the paths at which the name is free and nowhere else: there it
puts the label with the new name, and everywhere else there stands what stood there. It binds the
same names on the way to every path. So the name is free nowhere afterwards, unless it was renamed
to itself; and if the new name was no label and is bound nowhere, it is free where the old name was,
and renaming it back undoes the renaming.

## Main results

* `Expr.parts_rename`: the parts of an expression in which a name is renamed.
* `Expr.run_traverse_relabeling`: the traversal counts the places at which the name is free.
* `Expr.partAt?_rename_of_freeAt`, `Expr.bare_partAt?_rename`: what stands at each path afterwards.
* `Expr.rename_rename_cancel`: renaming back.
* `Expr.traverse_relabeling_exact`: what renaming does and what it leaves alone.
-/

namespace GraphQuery

namespace Expr

variable {source target name : String} {e : Expr} {path : List Nat}

/-! ### By parts -/

theorem boundIn_rename (e : Expr) : (e.rename source target).boundIn = e.boundIn := by
  obtain ⟨name, rfl⟩ | hlabel := e.eq_label_or_ne
  · rw [rename_label]
    funext slot
    cases slot <;> rfl
  · rw [rename_eq hlabel, (sameRoot_mapParts e _).boundIn_eq]

/-- A part is renamed if the name is not bound in it. -/
theorem parts_rename (e : Expr) :
    (e.rename source target).parts =
      e.parts.map fun p =>
        (p.1, if source ∈ e.boundIn p.1 then p.2 else p.2.rename source target) := by
  obtain ⟨name, rfl⟩ | hlabel := e.eq_label_or_ne
  · rw [rename_label]
    rfl
  · rw [rename_eq hlabel, parts_mapParts]

/-! ### The traversal -/

theorem beq_label_iff : (e == .label name) = true ↔ e = .label name := by
  cases e <;> simp [BEq.beq, beq]

theorem label_beq_label (name name' : String) :
    (label name == label name') = (name == name') := rfl

theorem beq_label_of_ne (hlabel : ∀ name, e ≠ .label name) (name : String) :
    (e == .label name) = false :=
  Bool.eq_false_iff.2 fun h => hlabel name (beq_label_iff.1 h)

/-- A traversal of parts each of which is renamed and counted renames and counts in those parts in
which the name is not bound. -/
theorem run_visitParts_relabeling (e : Expr)
    (h : ∀ p ∈ e.parts, ∀ n, (p.2.traverse (.relabeling source target)).run n =
      ((p.2.rename source target, p.2 == .label source), n + p.2.freeNames.count source))
    (n : Nat) :
    ((Traversal.relabeling source target).visitParts e e.parts).run n =
      (e.parts.map fun p => if source ∈ e.boundIn p.1 then p.2 else p.2.rename source target,
        n + (e.parts.map fun p =>
          if source ∈ e.boundIn p.1 then 0 else p.2.freeNames.count source).sum) := by
  have hdescends (slot : Slot) (n : Nat) :
      ((Traversal.relabeling source target).descends e slot).run n =
        (e.renamesIn source slot, n) := rfl
  have hvisited {α : Type} (f g : Slot × Expr → α) :
      (e.parts.map fun p => if e.renamesIn source p.1 then f p else g p) =
        e.parts.map fun p => if source ∈ e.boundIn p.1 then g p else f p :=
    List.map_congr_left fun p hp => by rw [if_congr (renamesIn_iff hp) rfl rfl, ite_not]
  rw [Traversal.run_visitParts_counting (fun e => (e.rename source target, e == .label source))
    (fun e => e.freeNames.count source) hdescends h, hvisited, hvisited]

/-- What is done at a node once its parts are renamed. -/
theorem run_leave_relabeling (source target : String) (e : Expr) (n : Nat) :
    ((Traversal.relabeling source target).leave e).run n =
      (relabeled? source target e, n + if e == .label source then 1 else 0) := by
  cases e with
  | label name =>
      rw [label_beq_label, relabeled?]
      by_cases hname : name = source
      · subst hname
        simp only [Traversal.relabeling, beq_self_eq_true, if_true]
        rfl
      · simp only [Traversal.relabeling, beq_eq_false_iff_ne.2 hname, if_neg hname,
          if_neg Bool.false_ne_true]
        rfl
  | _ => rfl

/-- The traversal renames and counts the free occurrences of the name; the flag tells whether the
root was one. -/
theorem run_traverse_relabeling (source target : String) (e : Expr) (n : Nat) :
    (e.traverse (.relabeling source target)).run n =
      ((e.rename source target, e == .label source), n + e.freeNames.count source) := by
  induction e using induction_on_children generalizing n with
  | step e ih =>
    obtain ⟨name, rfl⟩ | hlabel := e.eq_label_or_ne
    · have hparts : ((Traversal.relabeling source target).visitParts (label name) []).run n =
          ([], n) := rfl
      rw [run_traverse hparts (run_leave_relabeling source target (label name) n)]
      have hstanding : (label name).withChildren [] = label name := rfl
      rw [hstanding, rename_label, freeNames, List.count_singleton, relabeled?, label_beq_label]
      by_cases hname : name = source
      · simp [hname]
      · simp [hname, beq_eq_false_iff_ne.2 hname]
    · have hparts := run_visitParts_relabeling e
        (fun p hp => ih p.2 (mem_children_of_mem_parts hp)) n
      rw [← count_freeNames hlabel] at hparts
      have hstanding : e.rename source target = e.withChildren (e.parts.map fun p =>
          if source ∈ e.boundIn p.1 then p.2 else p.2.rename source target) := rename_eq hlabel
      -- what stands there once the parts are renamed is no label either, and so it is left standing
      have hne (name : String) : e.rename source target ≠ .label name := by
        rw [rename_eq hlabel]
        exact mapParts_ne_label hlabel _ name
      have hleave := run_leave_relabeling source target (e.rename source target)
        (n + e.freeNames.count source)
      rw [relabeled?_of_ne hne, beq_label_of_ne hne, hstanding] at hleave
      rw [run_traverse hparts hleave, beq_label_of_ne hlabel, hstanding]
      rfl

/-! ### By paths -/

theorem boundAlong_rename (e : Expr) (path : List Nat) :
    (e.rename source target).boundAlong path = e.boundAlong path := by
  induction path generalizing e with
  | nil => rfl
  | cons i path ih =>
      rw [boundAlong, boundAlong, parts_rename, List.getElem?_map, boundIn_rename]
      cases e.parts[i]? with
      | none => rfl
      | some p =>
          refine congrArg (e.boundIn p.1 ++ ·) ?_
          dsimp only
          split
          · rfl
          · exact ih p.2

/-- Where the name is free there is the new name afterwards. -/
theorem partAt?_rename_of_freeAt (h : e.FreeAt source path) :
    (e.rename source target).partAt? path = some (.label target) := by
  induction path generalizing e with
  | nil =>
      obtain rfl := freeAt_nil_iff.1 h
      rw [rename_label, if_pos rfl]
      rfl
  | cons i path ih =>
      obtain ⟨p, hp, hfree, hrest⟩ := freeAt_cons_iff.1 h
      rw [partAt?, parts_rename, List.getElem?_map, hp]
      simpa [hfree] using ih hrest

/-- Where the name is not free there is afterwards what there was before. -/
theorem bare_partAt?_rename (target : String) (h : ¬ e.FreeAt source path) :
    ((e.rename source target).partAt? path).map bare = (e.partAt? path).map bare := by
  induction path generalizing e with
  | nil =>
      refine congrArg some ?_
      obtain ⟨name, rfl⟩ | hlabel := e.eq_label_or_ne
      · have hname : name ≠ source := fun heq => h (freeAt_nil_iff.2 (heq ▸ rfl))
        rw [rename_label, if_neg hname]
      · rw [rename_eq hlabel, bare_mapParts]
  | cons i path ih =>
      rw [partAt?, partAt?, parts_rename, List.getElem?_map]
      cases hp : e.parts[i]? with
      | none => rfl
      | some p =>
          by_cases hbound : source ∈ e.boundIn p.1
          · simp [hbound]
          · have hrest : ¬ p.2.FreeAt source path := fun hfree =>
              h (freeAt_cons_iff.2 ⟨p, hp, hbound, hfree⟩)
            simpa [hbound] using ih hrest

/-- A label of another name stands where it stood before. -/
theorem partAt?_of_partAt?_rename (hne : name ≠ target)
    (h : (e.rename source target).partAt? path = some (.label name)) :
    e.partAt? path = some (.label name) := by
  by_cases hfree : e.FreeAt source path
  · rw [partAt?_rename_of_freeAt hfree] at h
    cases h
    exact absurd rfl hne
  · have hsame := bare_partAt?_rename target hfree
    rw [h] at hsame
    obtain ⟨n, hn, hbare⟩ := Option.map_eq_some_iff.1 hsame.symm
    rw [hn, eq_label_of_bare hbare]

/-- After a renaming the name is free nowhere. -/
theorem not_freeAt_rename (hne : source ≠ target) (path : List Nat) :
    ¬ (e.rename source target).FreeAt source path := by
  rintro ⟨hpart, hbound⟩
  rw [boundAlong_rename] at hbound
  have hbefore : e.FreeAt source path := ⟨partAt?_of_partAt?_rename hne hpart, hbound⟩
  rw [partAt?_rename_of_freeAt hbefore] at hpart
  cases hpart
  exact hne rfl

/-- A name that is free nowhere is not renamed. -/
theorem rename_eq_self (h : ∀ path, ¬ e.FreeAt source path) : e.rename source target = e :=
  eq_of_bare_partAt? fun path => bare_partAt?_rename target (h path)

/-! ### Renaming back -/

theorem boundAlong_subset_innerVars (e : Expr) (path : List Nat) :
    e.boundAlong path ⊆ e.innerVars := by
  induction path generalizing e with
  | nil => exact List.nil_subset _
  | cons i path ih =>
      intro name hname
      rw [boundAlong] at hname
      cases hp : e.parts[i]? with
      | none => simp [hp] at hname
      | some p =>
          rw [hp] at hname
          have hmem := mem_children_of_mem_parts (List.mem_of_getElem? hp)
          rcases List.mem_append.1 hname with hroot | hpart
          · exact mem_innerVars_iff.2 (.inl (boundIn_subset_binders e p.1 hroot))
          · exact mem_innerVars_iff.2 (.inr ⟨p.2, hmem, ih p.2 hpart⟩)

section Back

variable (hlabel : .label target ∉ e.nodes) (hbound : target ∉ e.innerVars)

include hlabel hbound

/-- A new name that was no label and is bound nowhere is free just where the old name was. -/
theorem freeAt_rename_iff (path : List Nat) :
    (e.rename source target).FreeAt target path ↔ e.FreeAt source path := by
  constructor
  · rintro ⟨hpart, -⟩
    by_contra hfree
    have hsame := bare_partAt?_rename target hfree
    rw [hpart] at hsame
    obtain ⟨n, hn, hbare⟩ := Option.map_eq_some_iff.1 hsame.symm
    exact hlabel (eq_label_of_bare hbare ▸ mem_nodes_of_partAt? hn)
  · intro hfree
    refine ⟨partAt?_rename_of_freeAt hfree, ?_⟩
    rw [boundAlong_rename]
    exact fun hmem => hbound (boundAlong_subset_innerVars e path hmem)

/-- Renaming such a name back undoes the renaming. -/
theorem rename_rename_cancel : (e.rename source target).rename target source = e := by
  refine eq_of_bare_partAt? fun path => ?_
  have hiff : (e.rename source target).FreeAt target path ↔ e.FreeAt source path :=
    freeAt_rename_iff hlabel hbound path
  by_cases hfree : e.FreeAt source path
  · rw [partAt?_rename_of_freeAt (hiff.2 hfree), hfree.1]
  · rw [bare_partAt?_rename source (mt hiff.1 hfree), bare_partAt?_rename target hfree]

end Back

/-! ### What a renaming does -/

/-- A list of the paths at which a name is free is as long as the renaming counts. -/
theorem count_freeNames_eq_length {places : List (List Nat)}
    (h : Enumerates places (e.FreeAt name)) : e.freeNames.count name = places.length := by
  obtain ⟨paths, hpaths, hlength⟩ := e.exists_enumerates_freeAt name
  rw [← hlength, hpaths.length_eq h]

/-- Renaming replaces the label at every path at which the name is free, and leaves alone what
stands at every other path. It counts these paths, and its flag tells whether the root was such a
label. Renaming once more changes and counts nothing. If the new name was no label and is bound
nowhere, renaming it back gives the expression as it was, and counts as many. -/
theorem traverse_relabeling_exact (e : Expr) (hne : source ≠ target) :
    ∃ places, Enumerates places (e.FreeAt source) ∧
      (∀ path ∈ places, (e.rename source target).partAt? path = some (.label target)) ∧
      (∀ path ∉ places,
        ((e.rename source target).partAt? path).map bare = (e.partAt? path).map bare) ∧
      (∃ replaced, (replaced = true ↔ e = .label source) ∧
        ∀ n, (e.traverse (.relabeling source target)).run n =
          ((e.rename source target, replaced), n + places.length)) ∧
      (∀ n, ((e.rename source target).traverse (.relabeling source target)).run n =
        ((e.rename source target, false), n)) ∧
      (.label target ∉ e.nodes → target ∉ e.innerVars →
        ∃ replaced, (replaced = true ↔ e = .label source) ∧
          ∀ n, ((e.rename source target).traverse (.relabeling target source)).run n =
            ((e, replaced), n + places.length)) := by
  obtain ⟨places, hplaces, -⟩ := e.exists_enumerates_freeAt source
  have hfree {path : List Nat} : path ∈ places ↔ e.FreeAt source path := hplaces.mem_iff path
  refine ⟨places, hplaces, fun path hpath => partAt?_rename_of_freeAt (hfree.1 hpath),
    fun path hpath => bare_partAt?_rename target (mt hfree.2 hpath),
    ⟨e == .label source, beq_label_iff, fun n => ?_⟩, fun n => ?_, fun hlabel hbound => ?_⟩
  · rw [run_traverse_relabeling, count_freeNames_eq_length hplaces]
  · have hnone : Enumerates [] ((e.rename source target).FreeAt source) :=
      ⟨List.nodup_nil, fun path => by simp [not_freeAt_rename hne path]⟩
    have hroot : (e.rename source target == .label source) = false :=
      Bool.eq_false_iff.2 fun h =>
        not_freeAt_rename hne [] (freeAt_nil_iff.2 (beq_label_iff.1 h))
    rw [run_traverse_relabeling, rename_eq_self (not_freeAt_rename hne), hroot,
      count_freeNames_eq_length hnone]
    rfl
  · have hiff (path : List Nat) :
        (e.rename source target).FreeAt target path ↔ e.FreeAt source path :=
      freeAt_rename_iff hlabel hbound path
    have hback : Enumerates places ((e.rename source target).FreeAt target) :=
      ⟨hplaces.nodup, fun path => hfree.trans (hiff path).symm⟩
    refine ⟨e.rename source target == .label target, ?_, fun n => ?_⟩
    · rw [beq_label_iff, ← freeAt_nil_iff, hiff, freeAt_nil_iff]
    · rw [run_traverse_relabeling, rename_rename_cancel hlabel hbound,
        count_freeNames_eq_length hback]

/-- In `[k, [k IN k | k], reduce(k = k, y IN k | k)]` the name `k` is free at four places, not in
the mappings. -/
theorem traverse_relabeling_exact_shadowed :
    ∃ places, Enumerates places ((Expr.list [.label "k",
        .comprehension "k" (.label "k") none (some (.label "k")) none,
        .reduce "k" (.label "k") "y" (.label "k") (.label "k") none]).FreeAt "k") ∧
      places.length = 4 ∧
      ∀ n, ((Expr.list [.label "z",
          .comprehension "k" (.label "z") none (some (.label "k")) none,
          .reduce "k" (.label "z") "y" (.label "z") (.label "k") none]).traverse
            (.relabeling "z" "k")).run n =
        ((.list [.label "k",
          .comprehension "k" (.label "k") none (some (.label "k")) none,
          .reduce "k" (.label "k") "y" (.label "k") (.label "k") none], false), n + 4) := by
  have hne : "k" ≠ "z" := by decide
  obtain ⟨places, hplaces, -, -, ⟨_, -, hrun⟩, -, hback⟩ :=
    traverse_relabeling_exact (.list [.label "k",
      .comprehension "k" (.label "k") none (some (.label "k")) none,
      .reduce "k" (.label "k") "y" (.label "k") (.label "k") none]) hne
  have hlength : places.length = 4 := (Nat.zero_add _).symm.trans (congrArg Prod.snd (hrun 0)).symm
  obtain ⟨replaced, hreplaced, hrun⟩ := hback (by simp [nodes, nodesAll, nodesPart]) (by decide)
  obtain rfl : replaced = false := Bool.eq_false_iff.2 fun h => Expr.noConfusion (hreplaced.1 h)
  exact ⟨places, hplaces, hlength, fun n => hlength ▸ hrun n⟩

end Expr

end GraphQuery
