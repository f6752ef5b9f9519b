/-
  ContextFree/Proofs/Readers.lean
  ===============================
  **Readers along a list**: a reader is a function that may fail, and reading a list
  succeeds if and only if reading each item does.

  `mapM_eq_ok_iff_exists` is for readers with a specification: what an item must
  denote, what must hold of it, and what is made of it.  `RaisesOnly` says what
  holds of every error that a reader ends with.
-/
import Mathlib.Data.List.Forall2

namespace ContextFree

variable {α β γ ε : Type} {xs : List α}

theorem mapM_eq_ok_iff {f : α → Except ε β} {ys : List β} :
    xs.mapM f = .ok ys ↔ List.Forall₂ (fun x y => f x = .ok y) xs ys := by
  induction xs generalizing ys with
  | nil =>
    rw [List.mapM_nil, List.forall₂_nil_left_iff]
    exact ⟨fun h => (Except.ok.inj h).symm, fun h => congrArg Except.ok h.symm⟩
  | cons x xs ih =>
    rw [List.mapM_cons, List.forall₂_cons_left_iff]
    simp only [← ih]
    cases hx : f x with
    | error e => simp [bind, Except.bind]
    | ok y =>
      cases hxs : xs.mapM f with
      | error e => simp [bind, Except.bind]
      | ok zs => simp [bind, Except.bind, pure, Except.pure, eq_comm]

theorem exists_forall₂ {R : α → β → Prop} (h : ∀ x ∈ xs, ∃ y, R x y) :
    ∃ ys, List.Forall₂ R xs ys := by
  induction xs with
  | nil => exact ⟨[], .nil⟩
  | cons x xs ih =>
    obtain ⟨first, others⟩ := List.forall_mem_cons.1 h
    obtain ⟨y, hy⟩ := first
    obtain ⟨ys, hys⟩ := ih others
    exact ⟨y :: ys, .cons hy hys⟩

theorem forall_of_forall₂ {R : α → β → Prop} {P : β → Prop} {ys : List β}
    (h : List.Forall₂ R xs ys) (hP : ∀ x y, R x y → P y) : ∀ y ∈ ys, P y := by
  induction h with
  | nil => exact List.forall_mem_nil _
  | cons first _ ih => exact List.forall_mem_cons.2 ⟨hP _ _ first, ih⟩

theorem map_eq_of_forall₂ {R : α → β → Prop} {f : β → γ} {F : α → γ} {ys : List β}
    (h : List.Forall₂ R xs ys) (eq : ∀ x y, R x y → f y = F x) : ys.map f = xs.map F := by
  induction h with
  | nil => rfl
  | cons first _ ih => rw [List.map_cons, List.map_cons, eq _ _ first, ih]

theorem forall₂_iff_exists {R : α → β → Prop} {P : β → Prop} {F : β → γ} {zs : List γ} :
    List.Forall₂ (fun x z => ∃ y, R x y ∧ P y ∧ z = F y) xs zs ↔
      ∃ ys, List.Forall₂ R xs ys ∧ (∀ y ∈ ys, P y) ∧ zs = ys.map F := by
  constructor
  · intro all
    induction all with
    | nil => exact ⟨[], .nil, List.forall_mem_nil _, rfl⟩
    | cons first _ ih =>
      obtain ⟨y, hy, hP, rfl⟩ := first
      obtain ⟨ys, hys, hPs, rfl⟩ := ih
      exact ⟨y :: ys, .cons hy hys, List.forall_mem_cons.2 ⟨hP, hPs⟩, rfl⟩
  · rintro ⟨ys, hys, hPs, rfl⟩
    induction hys with
    | nil => exact .nil
    | cons hy _ ih =>
      obtain ⟨hP, hPs⟩ := List.forall_mem_cons.1 hPs
      exact .cons ⟨_, hy, hP, rfl⟩ (ih hPs)

/-- If a reader accepts what denotes some `y` with `P y` and returns `F y`, then reading a list
    accepts what denotes a list of such, and returns the image of that list. -/
theorem mapM_eq_ok_iff_exists {f : α → Except ε γ} {R : α → β → Prop} {P : β → Prop} {F : β → γ}
    (spec : ∀ x z, f x = .ok z ↔ ∃ y, R x y ∧ P y ∧ z = F y) {zs : List γ} :
    xs.mapM f = .ok zs ↔ ∃ ys, List.Forall₂ R xs ys ∧ (∀ y ∈ ys, P y) ∧ zs = ys.map F := by
  simp only [mapM_eq_ok_iff, spec, forall₂_iff_exists]

theorem bind_eq_ok_iff {x : Except ε α} {f : α → Except ε β} {b : β} :
    x >>= f = .ok b ↔ ∃ a, x = .ok a ∧ f a = .ok b := by
  cases x with
  | error e => simp [bind, Except.bind]
  | ok a => simp [bind, Except.bind]

@[simp] theorem mapError_eq_ok_iff {δ : Type} {x : Except ε α} {f : ε → δ} {a : α} :
    x.mapError f = .ok a ↔ x = .ok a := by
  cases x <;> simp [Except.mapError]

@[simp] theorem map_eq_ok_iff {x : Except ε α} {f : α → β} {b : β} :
    x.map f = .ok b ↔ ∃ a, x = .ok a ∧ f a = b := by
  cases x <;> simp [Except.map]

/-! ### The errors of a reader -/

/-- Every error that a reading ends with satisfies `P`. -/
def RaisesOnly (P : ε → Prop) (x : Except ε α) : Prop := ∀ e, x = .error e → P e

namespace RaisesOnly

variable {P : ε → Prop}

theorem ok (a : α) : RaisesOnly P (.ok a) := by
  intro e h
  cases h

theorem error {e : ε} (h : P e) : RaisesOnly P (.error e : Except ε α) := by
  intro e' h'
  cases h'
  exact h

theorem bind {x : Except ε α} {f : α → Except ε β} (hx : RaisesOnly P x)
    (hf : ∀ a, x = .ok a → RaisesOnly P (f a)) : RaisesOnly P (x >>= f) := by
  cases x with
  | error e => exact error (hx e rfl)
  | ok a => exact hf a rfl

theorem mapM {f : α → Except ε β} (h : ∀ x ∈ xs, RaisesOnly P (f x)) :
    RaisesOnly P (xs.mapM f) := by
  induction xs with
  | nil => exact ok []
  | cons x xs ih =>
    obtain ⟨first, others⟩ := List.forall_mem_cons.1 h
    rw [List.mapM_cons]
    exact first.bind fun y _ => (ih others).bind fun ys _ => ok (y :: ys)

theorem map {x : Except ε α} (hx : RaisesOnly P x) (f : α → β) : RaisesOnly P (x.map f) := by
  cases x with
  | error e => exact error (hx e rfl)
  | ok a => exact ok (f a)

theorem mapError {δ : Type} {Q : δ → Prop} {x : Except ε α} {f : ε → δ}
    (hx : RaisesOnly (fun e => Q (f e)) x) : RaisesOnly Q (x.mapError f) := by
  cases x with
  | error e => exact error (hx e rfl)
  | ok a => exact ok a

end RaisesOnly

/-! ### Readers that give no error -/

/-- If a reader accepts what satisfies `P` and returns its image, then reading a list accepts lists
    of such, and returns the list of their images. -/
theorem mapM_eq_some_iff {f : α → Option β} {P : α → Prop} {F : α → β}
    (spec : ∀ x y, f x = some y ↔ P x ∧ y = F x) {ys : List β} :
    xs.mapM f = some ys ↔ (∀ x ∈ xs, P x) ∧ ys = xs.map F := by
  induction xs generalizing ys with
  | nil => simp [eq_comm]
  | cons x xs ih =>
    rw [List.mapM_cons, List.forall_mem_cons]
    cases hx : f x with
    | none =>
      have rejected : ¬ P x := by
        intro hP
        have accepted := (spec x (F x)).2 ⟨hP, rfl⟩
        rw [hx] at accepted
        cases accepted
      simp [rejected]
    | some y =>
      obtain ⟨hP, rfl⟩ := (spec x y).1 hx
      cases hxs : xs.mapM f with
      | none =>
        have rejected : ¬ ∀ x ∈ xs, P x := by
          intro hPs
          have accepted := ih.2 ⟨hPs, rfl⟩
          rw [hxs] at accepted
          cases accepted
        simp [rejected]
      | some zs =>
        obtain ⟨hPs, rfl⟩ := ih.1 hxs
        rw [and_iff_right ⟨hP, hPs⟩]
        simp [eq_comm]

end ContextFree
