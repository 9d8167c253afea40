import Mathlib.Data.List.Perm.Subperm
import GraphQuery.Entries

/-!
# Entries in the order of their keys

Inserting keeps entries in order and loses nothing but an earlier binding of the same key. So the
entries of a list of bindings are in order, they are among the bindings, each at most as often as
there, and entries that are in order already are left as they are.

## Main results

* `Entries.sorted_ofList`: the entries of a list of bindings are in order.
* `Entries.ofList_of_sorted`: entries that are in order are left as they are.
* `Entries.ofList_subperm`: the entries of a list are among its bindings.
* `Entries.ofList_of_perm`: entries are made up again from their listing in any order.
* `Entries.lookup_eq_some_iff_mem`: an entry is what its key leads to.
-/

namespace GraphQuery

namespace Entries

variable {κ α : Type} [LT κ] [DecidableLT κ] [DecidableEq κ]

theorem mem_insert {key : κ} {value : α} {entry : κ × α} :
    ∀ {entries : List (κ × α)}, entry ∈ insert key value entries →
      entry = (key, value) ∨ entry ∈ entries
  | [], h => by simpa [insert] using h
  | (k, v) :: rest, h => by
    rw [insert] at h
    split at h
    · simpa using h
    split at h
    · rcases List.mem_cons.1 h with h | h
      · exact .inl h
      · exact .inr (List.mem_cons_of_mem _ h)
    · rcases List.mem_cons.1 h with rfl | h
      · exact .inr List.mem_cons_self
      · exact (mem_insert h).imp_right (List.mem_cons_of_mem _)

/-- Nothing is in the result that was not there, or more often than it was. -/
theorem insert_subperm (key : κ) (value : α) : ∀ entries : List (κ × α),
    (insert key value entries).Subperm ((key, value) :: entries)
  | [] => .refl _
  | (k, v) :: rest => by
    rw [insert]
    split
    · exact .refl _
    split
    · exact ((List.sublist_cons_self _ rest).cons_cons (key, value)).subperm
    · have hrest := (List.subperm_cons (k, v)).2 (insert_subperm key value rest)
      exact hrest.trans (List.Perm.swap _ _ rest).subperm

theorem foldl_insert_subperm : ∀ bindings entries : List (κ × α),
    (bindings.foldl (fun es (k, v) => insert k v es) entries).Subperm (entries ++ bindings)
  | [], entries => by rw [List.foldl_nil, List.append_nil]
  | (k, v) :: bindings, entries => by
    rw [List.foldl_cons]
    refine (foldl_insert_subperm bindings _).trans ?_
    refine ((List.subperm_append_right bindings).2 (insert_subperm k v entries)).trans ?_
    exact List.perm_middle.symm.subperm

theorem ofList_subperm (bindings : List (κ × α)) : (ofList bindings).Subperm bindings :=
  foldl_insert_subperm bindings []

/-- A key that is not there yet is added. -/
theorem insert_perm {key : κ} (value : α) : ∀ {entries : List (κ × α)},
    key ∉ entries.map Prod.fst → (insert key value entries).Perm ((key, value) :: entries)
  | [], _ => .refl _
  | (k, v) :: rest, h => by
    obtain ⟨hne, hrest⟩ := not_or.1 (mt List.mem_cons.2 h)
    rw [insert]
    split
    · exact .refl _
    exact ((insert_perm value hrest).cons (k, v)).trans (.swap _ _ rest)

theorem foldl_insert_perm : ∀ {bindings entries : List (κ × α)},
    ((entries ++ bindings).map Prod.fst).Nodup →
      (bindings.foldl (fun es (k, v) => insert k v es) entries).Perm (entries ++ bindings)
  | [], entries, _ => by rw [List.foldl_nil, List.append_nil]
  | (k, v) :: bindings, entries, h => by
    have hkey : k ∉ entries.map Prod.fst := by
      rw [List.map_append, List.map_cons, List.nodup_append] at h
      exact fun hk => h.2.2 k hk k List.mem_cons_self rfl
    have hmoved : (insert k v entries ++ bindings).Perm (entries ++ (k, v) :: bindings) :=
      ((insert_perm v hkey).append_right bindings).trans List.perm_middle.symm
    have hnodup := ((hmoved.map Prod.fst).nodup_iff).2 h
    exact (foldl_insert_perm hnodup).trans hmoved

/-! ### Lookup -/

omit [LT κ] [DecidableLT κ] in
theorem lookup_cons (key : κ) (value : α) (rest : List (κ × α)) (sought : κ) :
    ((key, value) :: rest).lookup sought =
      if sought = key then some value else rest.lookup sought := by
  rw [List.lookup_cons]
  split <;> simp_all

theorem lookup_insert (key : κ) (value : α) (sought : κ) : ∀ entries : List (κ × α),
    (insert key value entries).lookup sought =
      if sought = key then some value else entries.lookup sought
  | [] => lookup_cons key value [] sought
  | (k, v) :: rest => by
    have hrest := lookup_insert key value sought rest
    rw [insert]
    split
    · rw [lookup_cons]
    split
    · rename_i heq
      rw [lookup_cons, lookup_cons, heq]
      by_cases h : sought = k <;> simp [h]
    · rename_i hne
      rw [lookup_cons, lookup_cons, hrest]
      by_cases h : sought = k
      · simp [h, Ne.symm hne]
      · simp [h]

/-! ### Order -/

/-- A key beyond all others is put last. -/
theorem insert_of_all_lt [@Std.Asymm κ (· < ·)] {key : κ} {value : α} :
    ∀ {entries : List (κ × α)}, (∀ entry ∈ entries, entry.1 < key) →
      insert key value entries = entries ++ [(key, value)]
  | [], _ => rfl
  | (k, v) :: rest, h => by
    have hk : k < key := h (k, v) List.mem_cons_self
    have hne : key ≠ k := by
      rintro rfl
      exact Std.Asymm.asymm _ _ hk hk
    rw [insert, if_neg (Std.Asymm.asymm _ _ hk), if_neg hne,
      insert_of_all_lt fun entry he => h entry (List.mem_cons_of_mem _ he), List.cons_append]

omit [DecidableLT κ] [DecidableEq κ] in
theorem sorted_append_cons {entries rest : List (κ × α)} {entry : κ × α}
    (h : Sorted (entries ++ entry :: rest)) : ∀ e ∈ entries, e.1 < entry.1 := fun _ he =>
  (List.pairwise_append.1 h).2.2 _ he _ List.mem_cons_self

omit [DecidableLT κ] in
/-- A key has one entry, so an entry is what its key leads to. -/
theorem lookup_eq_some_iff_mem [@Std.Asymm κ (· < ·)] {entries : List (κ × α)}
    (h : Sorted entries) {key : κ} {value : α} :
    entries.lookup key = some value ↔ (key, value) ∈ entries := by
  rw [List.lookup_eq_some_iff]
  constructor
  · rintro ⟨before, after, rfl, -⟩
    exact List.mem_append_right before List.mem_cons_self
  · intro hmem
    obtain ⟨before, after, rfl⟩ := List.append_of_mem hmem
    refine ⟨before, after, rfl, fun entry he => bne_iff_ne.2 fun heq => ?_⟩
    have hlt : entry.1 < key := sorted_append_cons h entry he
    rw [← heq] at hlt
    exact Std.Asymm.asymm _ _ hlt hlt

theorem foldl_insert_of_sorted [@Std.Asymm κ (· < ·)] :
    ∀ {bindings entries : List (κ × α)}, Sorted (entries ++ bindings) →
      bindings.foldl (fun es (k, v) => insert k v es) entries = entries ++ bindings
  | [], entries, _ => by simp
  | (k, v) :: bindings, entries, h => by
    have hlast : insert k v entries = entries ++ [(k, v)] :=
      insert_of_all_lt (sorted_append_cons h)
    rw [List.append_cons] at h
    simp only [List.foldl_cons, hlast, foldl_insert_of_sorted h, ← List.append_cons]

theorem ofList_of_sorted [@Std.Asymm κ (· < ·)] {bindings : List (κ × α)}
    (h : Sorted bindings) : ofList bindings = bindings :=
  foldl_insert_of_sorted h

variable [@Std.Trichotomous κ (· < ·)] [@Trans κ κ κ (· < ·) (· < ·) (· < ·)]

theorem sorted_insert (key : κ) (value : α) : ∀ {entries : List (κ × α)}, Sorted entries →
    Sorted (insert key value entries)
  | [], _ => by simp [insert, Sorted]
  | (k, v) :: rest, h => by
    obtain ⟨hk, hrest⟩ := List.pairwise_cons.1 h
    rw [insert]
    split
    · rename_i hlt
      refine List.pairwise_cons.2 ⟨fun entry he => ?_, h⟩
      rcases List.mem_cons.1 he with rfl | he
      · exact hlt
      · exact Trans.trans hlt (hk entry he)
    split
    · rename_i _ heq
      exact List.pairwise_cons.2 ⟨fun entry he => heq ▸ hk entry he, hrest⟩
    · rename_i hnlt hne
      have hgt : k < key := Decidable.byContradiction fun hn =>
        hne (Std.Trichotomous.trichotomous _ _ hnlt hn)
      refine List.pairwise_cons.2 ⟨fun entry he => ?_, sorted_insert key value hrest⟩
      rcases mem_insert he with rfl | he
      · exact hgt
      · exact hk entry he

theorem sorted_ofList (bindings : List (κ × α)) : Sorted (ofList bindings) := by
  have hfold : ∀ (bindings entries : List (κ × α)), Sorted entries →
      Sorted (bindings.foldl (fun es (k, v) => insert k v es) entries) := by
    intro bindings
    induction bindings with
    | nil => exact fun _ h => h
    | cons binding bindings ih => exact fun _ h => ih _ (sorted_insert _ _ h)
  exact hfold bindings [] List.Pairwise.nil

/-- Bindings of different keys, in whatever order, make the entries that are these in order. -/
theorem ofList_of_perm [@Std.Asymm κ (· < ·)] {bindings entries : List (κ × α)}
    (h : bindings.Perm entries) (hsorted : Sorted entries) : ofList bindings = entries := by
  have hkeys : (entries.map Prod.fst).Nodup := by
    refine List.Pairwise.map _ (fun a b hlt heq => ?_) hsorted
    have hlt' := hlt
    rw [heq] at hlt'
    exact Std.Asymm.asymm _ _ hlt' hlt'
  have hperm : (ofList bindings).Perm bindings :=
    foldl_insert_perm ((h.map Prod.fst).nodup_iff.2 hkeys)
  refine List.Perm.eq_of_pairwise (fun a b _ _ hab hba => ?_) (sorted_ofList bindings) hsorted
    (hperm.trans h)
  exact absurd hba (Std.Asymm.asymm _ _ hab)

end Entries

end GraphQuery
