/-!
# Computations that may fail

A computation in steps gives a result exactly if each step gives the one that the next step needs,
and it fails exactly if the first step or what follows it fails.

## Main results

* `GraphQuery.bind_eq_ok`, `GraphQuery.map_eq_ok`: the results of a computation in steps.
* `GraphQuery.bind_eq_error`, `GraphQuery.map_eq_error`: its failures.
* `GraphQuery.mapM_map_eq_ok`: items that are read back one after the other.
* `GraphQuery.mapError_bind`, `GraphQuery.mapError_map`: another account of its failures.
-/

namespace GraphQuery

variable {ε α β : Type}

@[simp] theorem bind_eq_ok {x : Except ε α} {f : α → Except ε β} {b : β} :
    x >>= f = .ok b ↔ ∃ a, x = .ok a ∧ f a = .ok b := by
  cases x <;> simp [bind, Except.bind]

@[simp] theorem map_eq_ok {x : Except ε α} {f : α → β} {b : β} :
    f <$> x = .ok b ↔ ∃ a, x = .ok a ∧ f a = b := by
  cases x <;> simp [Functor.map, Except.map]

@[simp] theorem pure_eq_ok {a b : α} : (pure a : Except ε α) = .ok b ↔ a = b := by
  simp [pure, Except.pure]

@[simp] theorem bind_eq_error {x : Except ε α} {f : α → Except ε β} {e : ε} :
    x >>= f = .error e ↔ x = .error e ∨ ∃ a, x = .ok a ∧ f a = .error e := by
  cases x <;> simp [bind, Except.bind]

@[simp] theorem map_eq_error {x : Except ε α} {f : α → β} {e : ε} :
    f <$> x = .error e ↔ x = .error e := by
  cases x <;> simp [Functor.map, Except.map]

/-- Only what follows a result matters. -/
theorem bind_congr_ok {x : Except ε α} {f g : α → Except ε β} (h : ∀ a, x = .ok a → f a = g a) :
    x >>= f = x >>= g := by
  cases x with
  | error e => rfl
  | ok a => exact h a rfl

/-! ### One item after the other -/

theorem mapM_congr {f g : α → Except ε β} {items : List α} (h : ∀ a ∈ items, f a = g a) :
    items.mapM f = items.mapM g := by
  induction items with
  | nil => rfl
  | cons a items ih =>
    obtain ⟨ha, hitems⟩ := List.forall_mem_cons.1 h
    rw [List.mapM_cons, List.mapM_cons, ha, ih hitems]

/-- Each item gives a result if all of them do. -/
theorem exists_of_mapM_eq_ok {f : α → Except ε β} {items : List α} {results : List β}
    (h : items.mapM f = .ok results) : ∀ a ∈ items, ∃ b, f a = .ok b := by
  induction items generalizing results with
  | nil => simp
  | cons a items ih =>
    simp only [List.mapM_cons, bind_pure_comp, bind_eq_ok, map_eq_ok] at h
    obtain ⟨b, hb, rest, hrest, -⟩ := h
    exact List.forall_mem_cons.2 ⟨⟨b, hb⟩, ih hrest⟩

/-- Items are read back from what each of them is read back from. -/
theorem mapM_map_eq_ok {read : α → Except ε β} {write : β → α} {items : List β}
    (h : ∀ b ∈ items, read (write b) = .ok b) : (items.map write).mapM read = .ok items := by
  induction items with
  | nil => rfl
  | cons b items ih =>
    obtain ⟨hb, hitems⟩ := List.forall_mem_cons.1 h
    rw [List.map_cons, List.mapM_cons, hb, ih hitems]
    rfl

/-! ### Another account of errors -/

variable {g : ε → ε}

@[simp] theorem mapError_bind (x : Except ε α) (f : α → Except ε β) :
    (x >>= f).mapError g = x.mapError g >>= fun a => (f a).mapError g := by
  cases x <;> rfl

@[simp] theorem mapError_map (x : Except ε α) (f : α → β) :
    (f <$> x).mapError g = f <$> x.mapError g := by
  cases x <;> rfl

@[simp] theorem mapError_id (x : Except ε α) : x.mapError id = x := by cases x <;> rfl

theorem mapError_eq_self {x : Except ε α} (h : ∀ e, x = .error e → g e = e) :
    x.mapError g = x := by
  cases x with
  | error e => exact congrArg Except.error (h e rfl)
  | ok a => rfl

end GraphQuery
