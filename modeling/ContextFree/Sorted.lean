/-
  ContextFree/Sorted.lean
  =======================
  **Sorting by a name**, in code-point order.  Members with one name keep the
  order in which they came.

  The sort is by insertion, so it is a structural recursion and a closed list is
  sorted by reduction.  `perm_sortBy` says that nothing is lost or added,
  `pairwise_sortBy` that the names ascend, and `sortBy_eq_of_perm` that for members
  with different names the order in which they came is forgotten.
-/

namespace ContextFree

variable {α : Type}

/-- Puts `x` in front of the first member whose name is not smaller. -/
def insertBy (f : α → String) (x : α) : List α → List α
  | [] => [x]
  | y :: ys => if f x ≤ f y then x :: y :: ys else y :: insertBy f x ys

/-- The members of a list in ascending order of their names. -/
def sortBy (f : α → String) (xs : List α) : List α := xs.foldr (insertBy f) []

def sortNames (names : List String) : List String := sortBy id names

theorem perm_insertBy (f : α → String) (x : α) (ys : List α) :
    (insertBy f x ys).Perm (x :: ys) := by
  induction ys with
  | nil => exact List.Perm.refl _
  | cons y ys ih =>
    unfold insertBy
    split
    · exact List.Perm.refl _
    · exact (ih.cons y).trans (List.Perm.swap x y ys)

theorem perm_sortBy (f : α → String) (xs : List α) : (sortBy f xs).Perm xs := by
  induction xs with
  | nil => exact List.Perm.refl _
  | cons x xs ih => exact (perm_insertBy f x (sortBy f xs)).trans (ih.cons x)

@[simp] theorem mem_sortBy {f : α → String} {xs : List α} {a : α} :
    a ∈ sortBy f xs ↔ a ∈ xs := (perm_sortBy f xs).mem_iff

theorem pairwise_insertBy {f : α → String} (x : α) {ys : List α}
    (h : ys.Pairwise fun a b => f a ≤ f b) : (insertBy f x ys).Pairwise fun a b => f a ≤ f b := by
  induction ys with
  | nil => exact List.pairwise_singleton _ _
  | cons y ys ih =>
    obtain ⟨hy, hys⟩ := List.pairwise_cons.1 h
    unfold insertBy
    split
    · rename_i hxy
      refine List.pairwise_cons.2 ⟨?_, h⟩
      intro z hz
      rcases List.mem_cons.1 hz with rfl | hz
      · exact hxy
      · exact String.le_trans hxy (hy z hz)
    · rename_i hxy
      refine List.pairwise_cons.2 ⟨?_, ih hys⟩
      intro z hz
      rcases List.mem_cons.1 ((perm_insertBy f x ys).mem_iff.1 hz) with rfl | hz
      · exact (String.le_total (f z) (f y)).resolve_left hxy
      · exact hy z hz

theorem pairwise_sortBy (f : α → String) (xs : List α) :
    (sortBy f xs).Pairwise fun a b => f a ≤ f b := by
  induction xs with
  | nil => exact List.Pairwise.nil
  | cons x xs ih => exact pairwise_insertBy x ih

/-- A list with ascending names is sorted already. -/
theorem sortBy_eq_self {f : α → String} {xs : List α} (h : xs.Pairwise fun a b => f a ≤ f b) :
    sortBy f xs = xs := by
  induction xs with
  | nil => rfl
  | cons x xs ih =>
    obtain ⟨hx, hxs⟩ := List.pairwise_cons.1 h
    have step : sortBy f (x :: xs) = insertBy f x (sortBy f xs) := rfl
    rw [step, ih hxs]
    cases xs with
    | nil => rfl
    | cons y ys => exact if_pos (hx y List.mem_cons_self)

theorem map_insertBy (f : α → String) (x : α) (ys : List α) :
    (insertBy f x ys).map f = insertBy id (f x) (ys.map f) := by
  induction ys with
  | nil => rfl
  | cons y ys ih =>
    unfold insertBy
    simp only [id_eq, List.map_cons]
    split
    · rfl
    · rw [List.map_cons, ih]

/-- The names of a sorted list are the sorted names. -/
theorem map_sortBy (f : α → String) (xs : List α) : (sortBy f xs).map f = sortNames (xs.map f) := by
  induction xs with
  | nil => rfl
  | cons x xs ih =>
    have step : sortNames (List.map f (x :: xs)) = insertBy id (f x) (sortNames (xs.map f)) := rfl
    rw [step, ← ih, ← map_insertBy]
    rfl

theorem sortBy_eq_of_perm {f : α → String} {xs ys : List α} (h : xs.Perm ys)
    (inj : ∀ x ∈ xs, ∀ y ∈ xs, f x = f y → x = y) : sortBy f xs = sortBy f ys := by
  have perm : (sortBy f xs).Perm (sortBy f ys) :=
    ((perm_sortBy f xs).trans h).trans (perm_sortBy f ys).symm
  refine perm.eq_of_pairwise ?_ (pairwise_sortBy f xs) (pairwise_sortBy f ys)
  intro a b ha hb hab hba
  exact inj a (mem_sortBy.1 ha) b (h.mem_iff.2 (mem_sortBy.1 hb)) (String.le_antisymm hab hba)

end ContextFree
