/-
  ContextFree/Text/Pieces.lean
  ============================
  **Pieces of texts**: a text cut at separating characters, and texts put
  together with a separator between them.

  `splitOn` gives one piece more than there are separators.
-/

namespace ContextFree.Text

/-- Puts a character in front of the first of some pieces. -/
def consFirst (c : Char) : List (List Char) → List (List Char)
  | [] => [[c]]
  | p :: ps => (c :: p) :: ps

/-- The pieces between the characters that satisfy `p`. -/
def splitOn (p : Char → Bool) : List Char → List (List Char)
  | [] => [[]]
  | c :: cs => if p c then [] :: splitOn p cs else consFirst c (splitOn p cs)

/-- The texts in order, with a separator between every two. -/
def join (separator : String) : List String → String
  | [] => ""
  | [s] => s
  | s :: t :: rest => s ++ separator ++ join separator (t :: rest)

@[simp] theorem join_nil (separator : String) : join separator [] = "" := rfl

@[simp] theorem join_singleton (separator s : String) : join separator [s] = s := rfl

theorem join_cons_cons (separator s t : String) (rest : List String) :
    join separator (s :: t :: rest) = s ++ separator ++ join separator (t :: rest) := rfl

/-- Without a separator the texts follow one another. -/
theorem toList_join_empty (ts : List String) :
    (join "" ts).toList = (ts.map String.toList).flatten := by
  induction ts with
  | nil => rfl
  | cons t ts ih =>
    cases ts with
    | nil => simp
    | cons u ts => simp [join_cons_cons, ih]

theorem mem_join {separator : String} {ts : List String} {c : Char}
    (h : c ∈ (join separator ts).toList) : c ∈ separator.toList ∨ ∃ t ∈ ts, c ∈ t.toList := by
  induction ts with
  | nil => exact absurd h List.not_mem_nil
  | cons t ts ih =>
    cases ts with
    | nil => exact Or.inr ⟨t, List.mem_cons_self, h⟩
    | cons u ts =>
      rw [join_cons_cons, String.toList_append, String.toList_append, List.mem_append,
        List.mem_append] at h
      rcases h with (h | h) | h
      · exact Or.inr ⟨t, List.mem_cons_self, h⟩
      · exact Or.inl h
      · rcases ih h with h | h
        · exact Or.inl h
        · obtain ⟨v, hv, h⟩ := h
          exact Or.inr ⟨v, List.mem_cons_of_mem t hv, h⟩

theorem splitOn_ne_nil (p : Char → Bool) (cs : List Char) : splitOn p cs ≠ [] := by
  cases cs with
  | nil => simp [splitOn]
  | cons c cs =>
    unfold splitOn
    split
    · simp
    · cases splitOn p cs <;> simp [consFirst]

theorem splitOn_of_forall_not {p : Char → Bool} {cs : List Char} (h : ∀ c ∈ cs, p c = false) :
    splitOn p cs = [cs] := by
  induction cs with
  | nil => rfl
  | cons c cs ih =>
    obtain ⟨hc, hcs⟩ := List.forall_mem_cons.1 h
    simp [splitOn, hc, ih hcs, consFirst]

/-- A separator cuts the pieces apart. -/
theorem splitOn_append_cons {p : Char → Bool} {c : Char} (hc : p c = true) (xs ys : List Char) :
    splitOn p (xs ++ c :: ys) = splitOn p xs ++ splitOn p ys := by
  induction xs with
  | nil => simp [splitOn, hc]
  | cons x xs ih =>
    simp only [List.cons_append, splitOn, ih]
    split
    · rfl
    · obtain ⟨q, qs, hq⟩ := List.exists_cons_of_ne_nil (splitOn_ne_nil p xs)
      rw [hq]
      rfl

theorem splitOn_cons_of {p : Char → Bool} {xs : List Char} (hxs : ∀ x ∈ xs, p x = false) {c : Char}
    (hc : p c = true) (ys : List Char) : splitOn p (xs ++ c :: ys) = xs :: splitOn p ys := by
  rw [splitOn_append_cons hc, splitOn_of_forall_not hxs, List.singleton_append]

/-- A text is one piece, or a piece with a separator behind it and a text after that. -/
theorem pieces_induction {p : Char → Bool} {motive : List Char → Prop}
    (last : ∀ xs, (∀ x ∈ xs, p x = false) → motive xs)
    (more : ∀ xs c ys, (∀ x ∈ xs, p x = false) → p c = true → motive ys → motive (xs ++ c :: ys))
    (cs : List Char) : motive cs := by
  have behind : ∀ xs, (∀ x ∈ xs, p x = false) → motive (xs ++ cs) := by
    induction cs with
    | nil =>
      intro xs hxs
      rw [List.append_nil]
      exact last xs hxs
    | cons c cs ih =>
      intro xs hxs
      cases hc : p c with
      | true => exact more xs c cs hxs hc (ih [] (List.forall_mem_nil _))
      | false =>
        rw [List.append_cons]
        apply ih
        intro x hx
        rcases List.mem_append.1 hx with hx | hx
        · exact hxs x hx
        · exact List.mem_singleton.1 hx ▸ hc
  exact behind [] (List.forall_mem_nil _)

/-- No piece has a separator in it. -/
theorem not_of_mem_splitOn {p : Char → Bool} {cs piece : List Char} (h : piece ∈ splitOn p cs) :
    ∀ c ∈ piece, p c = false := by
  induction cs using pieces_induction (p := p) with
  | last xs hxs =>
    rw [splitOn_of_forall_not hxs] at h
    exact List.mem_singleton.1 h ▸ hxs
  | more xs c ys hxs hc ih =>
    rw [splitOn_cons_of hxs hc] at h
    rcases List.mem_cons.1 h with rfl | h
    · exact hxs
    · exact ih h

theorem isInfix_of_mem_splitOn {p : Char → Bool} {cs piece : List Char} (h : piece ∈ splitOn p cs) :
    piece <:+: cs := by
  induction cs using pieces_induction (p := p) with
  | last xs hxs =>
    rw [splitOn_of_forall_not hxs] at h
    exact List.mem_singleton.1 h ▸ List.infix_rfl
  | more xs c ys hxs hc ih =>
    rw [splitOn_cons_of hxs hc] at h
    rcases List.mem_cons.1 h with rfl | h
    · exact (List.prefix_append _ _).isInfix
    · exact List.infix_append_of_infix_right (List.infix_cons (ih h))

end ContextFree.Text
