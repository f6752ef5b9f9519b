/-
  ContextFree/Distinct.lean
  =========================
  **Lists without repeats.**  New members go last and a member that is already
  there changes nothing, so a list keeps the order of first occurrences.

  `mem_append` and `nodup_append` say what is in such a list and that nothing is
  in it twice; `append_nil_of_nodup` says that a list without repeats is left as
  it is.
-/

namespace ContextFree.Distinct

variable {α : Type} [DecidableEq α]

/-- Adds `x` at the end unless it is already there. -/
def insert (xs : List α) (x : α) : List α := if x ∈ xs then xs else xs ++ [x]

def append (xs ys : List α) : List α := ys.foldl insert xs

def ofList (ys : List α) : List α := append [] ys

@[simp] theorem append_nil (xs : List α) : append xs [] = xs := rfl

@[simp] theorem append_cons (xs : List α) (y : α) (ys : List α) :
    append xs (y :: ys) = append (insert xs y) ys := rfl

@[simp] theorem mem_insert {xs : List α} {x a : α} : a ∈ insert xs x ↔ a ∈ xs ∨ a = x := by
  unfold insert
  split
  · exact ⟨Or.inl, fun h => h.elim id (fun e => e ▸ ‹x ∈ xs›)⟩
  · simp

@[simp] theorem mem_append {xs ys : List α} {a : α} : a ∈ append xs ys ↔ a ∈ xs ∨ a ∈ ys := by
  induction ys generalizing xs with
  | nil => simp
  | cons y ys ih => simp [ih, or_assoc]

@[simp] theorem mem_ofList {ys : List α} {a : α} : a ∈ ofList ys ↔ a ∈ ys := by
  simp [ofList]

theorem nodup_insert {xs : List α} (h : xs.Nodup) (x : α) : (insert xs x).Nodup := by
  unfold insert
  split
  · exact h
  · rename_i hx
    refine List.nodup_append.2 ⟨h, by simp, ?_⟩
    intro a ha b hb
    rw [List.mem_singleton.1 hb]
    exact fun e => hx (e ▸ ha)

theorem nodup_append {xs : List α} (h : xs.Nodup) (ys : List α) : (append xs ys).Nodup := by
  induction ys generalizing xs with
  | nil => exact h
  | cons y ys ih => exact ih (nodup_insert h y)

theorem nodup_ofList (ys : List α) : (ofList ys).Nodup := nodup_append List.nodup_nil ys

theorem prefix_append (xs ys : List α) : xs <+: append xs ys := by
  induction ys generalizing xs with
  | nil => exact List.prefix_rfl
  | cons y ys ih =>
    refine List.IsPrefix.trans ?_ (ih (insert xs y))
    unfold insert
    split
    · exact List.prefix_rfl
    · exact List.prefix_append xs [y]

theorem head?_ofList (ys : List α) : (ofList ys).head? = ys.head? := by
  cases ys with
  | nil => rfl
  | cons y ys =>
    have first : ofList (y :: ys) = append [y] ys := by simp [ofList, insert]
    obtain ⟨zs, hzs⟩ := prefix_append [y] ys
    rw [first, ← hzs, List.singleton_append, List.head?_cons, List.head?_cons]

theorem append_append (xs ys zs : List α) : append xs (ys ++ zs) = append (append xs ys) zs :=
  List.foldl_append

theorem append_of_subset {xs ys : List α} (h : ∀ y ∈ ys, y ∈ xs) : append xs ys = xs := by
  induction ys with
  | nil => rfl
  | cons y ys ih =>
    obtain ⟨hy, hys⟩ := List.forall_mem_cons.1 h
    rw [append_cons, insert, if_pos hy, ih hys]

/-- Members that come several times in a row may come once. -/
theorem append_flatMap_const {β γ : Type} (k : β → α) (l : β → List γ) {ps : List β}
    (h : ∀ p ∈ ps, l p ≠ []) (xs : List α) :
    append xs (ps.flatMap fun p => (l p).map fun _ => k p) = append xs (ps.map k) := by
  induction ps generalizing xs with
  | nil => rfl
  | cons p ps ih =>
    obtain ⟨hp, hps⟩ := List.forall_mem_cons.1 h
    obtain ⟨c, cs, hcs⟩ := List.exists_cons_of_ne_nil hp
    have again : append (insert xs (k p)) (cs.map fun _ => k p) = insert xs (k p) := by
      apply append_of_subset
      simp
    rw [List.flatMap_cons, append_append, hcs, List.map_cons, List.map_cons, append_cons, again,
      ih hps, append_cons]

theorem append_of_disjoint {xs ys : List α} (hys : ys.Nodup) (h : ∀ y ∈ ys, y ∉ xs) :
    append xs ys = xs ++ ys := by
  induction ys generalizing xs with
  | nil => simp
  | cons y ys ih =>
    obtain ⟨hy, hys⟩ := List.nodup_cons.1 hys
    have hins : insert xs y = xs ++ [y] := if_neg (h y List.mem_cons_self)
    rw [append_cons, hins, ih hys]
    · simp
    · intro z hz hmem
      rcases List.mem_append.1 hmem with hx | hx
      · exact h z (List.mem_cons_of_mem y hz) hx
      · exact hy (List.mem_singleton.1 hx ▸ hz)

/-- The values of a function along a list: each of them stands for the first argument that gives
    it. -/
theorem exists_append_map_eq {β : Type} (f : β → α) {R : β → β → Prop} {bs : List β}
    (order : bs.Pairwise R) (xs : List α) :
    ∃ firsts : List β, firsts.Sublist bs ∧ append xs (bs.map f) = xs ++ firsts.map f ∧
      ∀ b ∈ firsts, f b ∉ xs ∧ ∀ c ∈ bs, f c = f b → c = b ∨ R b c := by
  induction bs generalizing xs with
  | nil => exact ⟨[], List.Sublist.slnil, by simp, fun b hb => absurd hb List.not_mem_nil⟩
  | cons b bs ih =>
    obtain ⟨before, order⟩ := List.pairwise_cons.1 order
    by_cases known : f b ∈ xs
    · -- An earlier argument, or `xs` itself, has given the value of `b`.
      obtain ⟨firsts, sub, eq, first⟩ := ih order xs
      refine ⟨firsts, sub.cons b, ?_, ?_⟩
      · rw [List.map_cons, append_cons, insert, if_pos known, eq]
      · intro d hd
        obtain ⟨new, least⟩ := first d hd
        refine ⟨new, List.forall_mem_cons.2 ⟨?_, least⟩⟩
        exact fun same => absurd (same ▸ known) new
    · obtain ⟨firsts, sub, eq, first⟩ := ih order (xs ++ [f b])
      refine ⟨b :: firsts, sub.cons_cons b, ?_, List.forall_mem_cons.2 ⟨⟨known, ?_⟩, ?_⟩⟩
      · rw [List.map_cons, append_cons, insert, if_neg known, eq, List.map_cons, List.append_assoc,
          List.singleton_append]
      · exact List.forall_mem_cons.2 ⟨fun _ => Or.inl rfl, fun c hc _ => Or.inr (before c hc)⟩
      · intro d hd
        obtain ⟨new, least⟩ := first d hd
        refine ⟨fun old => new (List.mem_append_left _ old), List.forall_mem_cons.2 ⟨?_, least⟩⟩
        exact fun same => absurd (same ▸ List.mem_append_right xs (List.mem_singleton.2 rfl)) new

/-- Without repeats, the values of a function along a list are those of the first arguments. -/
theorem exists_ofList_map_eq {β : Type} (f : β → α) {R : β → β → Prop} {bs : List β}
    (order : bs.Pairwise R) :
    ∃ firsts : List β, firsts.Sublist bs ∧ ofList (bs.map f) = firsts.map f ∧
      ∀ b ∈ firsts, ∀ c ∈ bs, f c = f b → c = b ∨ R b c := by
  obtain ⟨firsts, sub, eq, first⟩ := exists_append_map_eq f order []
  exact ⟨firsts, sub, eq, fun b hb => (first b hb).2⟩

theorem ofList_of_nodup {ys : List α} (h : ys.Nodup) : ofList ys = ys := by
  unfold ofList
  rw [append_of_disjoint h (fun _ _ => List.not_mem_nil), List.nil_append]

end ContextFree.Distinct
