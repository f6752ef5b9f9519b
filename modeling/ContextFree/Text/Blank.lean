/-
  ContextFree/Text/Blank.lean
  ===========================
  **White space**: the characters that separate and surround words, and the
  functions that strip and split at them.

  `strip` takes the white space off both ends; `words` are the maximal runs
  without white space.
-/
import ContextFree.Text.Pieces

namespace ContextFree.Text

/-- White space: the horizontal and vertical controls, the information separators and the
    characters of the categories Zs, Zl and Zp, by code point. -/
def isBlank (c : Char) : Bool :=
  let n := c.toNat
  (0x09 ≤ n && n ≤ 0x0D) || (0x1C ≤ n && n ≤ 0x20) || n == 0x85 || n == 0xA0 || n == 0x1680 ||
    (0x2000 ≤ n && n ≤ 0x200A) || n == 0x2028 || n == 0x2029 || n == 0x202F || n == 0x205F ||
    n == 0x3000

/-- Takes the white space off the front. -/
def stripLeft (cs : List Char) : List Char := cs.dropWhile isBlank

/-- Takes the white space off the end. -/
def stripRight (cs : List Char) : List Char := (cs.reverse.dropWhile isBlank).reverse

def strip (cs : List Char) : List Char := stripRight (stripLeft cs)

/-- The maximal runs without white space. -/
def words (cs : List Char) : List (List Char) := (splitOn isBlank cs).filter fun w => !w.isEmpty

/-! ### Stripping -/

/-- A text whose first and last character are not blank. -/
structure Trimmed (cs : List Char) : Prop where
  head : ∀ c ∈ cs.head?, isBlank c = false
  last : ∀ c ∈ cs.getLast?, isBlank c = false

theorem dropWhile_append_of_blank {l : List Char} (hl : ∀ c ∈ l, isBlank c = true)
    {cs : List Char} (hcs : ∀ c ∈ cs.head?, isBlank c = false) :
    (l ++ cs).dropWhile isBlank = cs := by
  rw [List.dropWhile_append_of_pos hl]
  cases cs with
  | nil => rfl
  | cons c cs => simp [hcs c rfl]

/-- Stripping takes off the white space around a text that has none at its ends. -/
theorem strip_append {l w r : List Char} (hl : ∀ c ∈ l, isBlank c = true)
    (hr : ∀ c ∈ r, isBlank c = true) (hw : Trimmed w) (hne : w ≠ []) :
    strip (l ++ w ++ r) = w := by
  have left : stripLeft (l ++ w ++ r) = w ++ r := by
    unfold stripLeft
    rw [List.append_assoc]
    apply dropWhile_append_of_blank hl
    obtain ⟨c, w, rfl⟩ := List.exists_cons_of_ne_nil hne
    exact hw.head
  have right : stripRight (w ++ r) = w := by
    unfold stripRight
    rw [List.reverse_append, dropWhile_append_of_blank, List.reverse_reverse]
    · simpa using hr
    · rw [List.head?_reverse]
      exact hw.last
  unfold strip
  rw [left, right]

/-- A text is what stripping leaves of it, with white space on both sides. -/
theorem exists_strip (cs : List Char) : ∃ l r, cs = l ++ strip cs ++ r ∧
    (∀ c ∈ l, isBlank c = true) ∧ (∀ c ∈ r, isBlank c = true) ∧ Trimmed (strip cs) := by
  have notBlank : ∀ ds : List Char, ∀ c ∈ (ds.dropWhile isBlank).head?, isBlank c = false := by
    intro ds c hc
    have h := List.head?_dropWhile_not isBlank ds
    rw [hc] at h
    simpa using h
  obtain ⟨front, hfront⟩ : ∃ front, front = cs.dropWhile isBlank := ⟨_, rfl⟩
  have hstrip : strip cs = (front.reverse.dropWhile isBlank).reverse := by
    rw [hfront]
    rfl
  have hcs : cs = cs.takeWhile isBlank ++ front := by
    rw [hfront, List.takeWhile_append_dropWhile]
  have hfr : front = strip cs ++ (front.reverse.takeWhile isBlank).reverse := by
    rw [hstrip, ← List.reverse_append, List.takeWhile_append_dropWhile, List.reverse_reverse]
  refine ⟨cs.takeWhile isBlank, (front.reverse.takeWhile isBlank).reverse, ?_, ?_, ?_, ?_⟩
  · rw [List.append_assoc, ← hfr]
    exact hcs
  · exact fun c hc => List.all_eq_true.1 List.all_takeWhile c hc
  · exact fun c hc => List.all_eq_true.1 List.all_takeWhile c (List.mem_reverse.1 hc)
  · constructor
    · intro c hc
      apply notBlank cs c
      rw [← hfront, hfr, List.head?_append, Option.mem_def.1 hc]
      rfl
    · intro c hc
      rw [hstrip, List.getLast?_reverse] at hc
      exact notBlank _ c hc

theorem isInfix_strip (cs : List Char) : strip cs <:+: cs := by
  obtain ⟨l, r, hcs, _⟩ := exists_strip cs
  exact ⟨l, r, hcs.symm⟩

/-- A text is a first word, white space, and a rest that does not begin with any. -/
theorem exists_firstWord (cs : List Char) : ∃ s t v, cs = s ++ t ++ v ∧
    (∀ c ∈ s, isBlank c = false) ∧ (∀ c ∈ t, isBlank c = true) ∧
    (∀ c ∈ v.head?, isBlank c = false) ∧ (t = [] → v = []) := by
  induction cs with
  | nil => exact ⟨[], [], [], rfl, by simp⟩
  | cons c cs ih =>
    obtain ⟨s, t, v, rfl, hs, ht, hv, htv⟩ := ih
    cases hc : isBlank c with
    | false =>
      exact ⟨c :: s, t, v, rfl, List.forall_mem_cons.2 ⟨hc, hs⟩, ht, hv, htv⟩
    | true =>
      -- The blank is in front of a word, or joins the white space that follows.
      cases s with
      | nil =>
        exact ⟨[], c :: t, v, rfl, List.forall_mem_nil _, List.forall_mem_cons.2 ⟨hc, ht⟩, hv,
          fun h => absurd h (List.cons_ne_nil c t)⟩
      | cons d s =>
        refine ⟨[], [c], d :: s ++ t ++ v, rfl, List.forall_mem_nil _, ?_, ?_, ?_⟩
        · simpa using hc
        · simpa using hs d List.mem_cons_self
        · exact fun h => absurd h (List.cons_ne_nil c [])

/-! ### Words -/

theorem words_append_cons {c : Char} (hc : isBlank c = true) (xs ys : List Char) :
    words (xs ++ c :: ys) = words xs ++ words ys := by
  unfold words
  rw [splitOn_append_cons hc, List.filter_append]

theorem words_eq_nil {cs : List Char} (h : ∀ c ∈ cs, isBlank c = true) : words cs = [] := by
  induction cs with
  | nil => rfl
  | cons c cs ih =>
    obtain ⟨hc, hcs⟩ := List.forall_mem_cons.1 h
    have split := words_append_cons hc [] cs
    rw [List.nil_append] at split
    rw [split, ih hcs]
    rfl

theorem words_singleton {w : List Char} (hne : w ≠ []) (h : ∀ c ∈ w, isBlank c = false) :
    words w = [w] := by
  unfold words
  rw [splitOn_of_forall_not h]
  simp [hne]

theorem isInfix_of_mem_words {cs w : List Char} (h : w ∈ words cs) : w <:+: cs :=
  isInfix_of_mem_splitOn (List.mem_filter.1 h).1

/-- A word is not empty and has no blank in it. -/
theorem mem_words {cs w : List Char} (h : w ∈ words cs) :
    w ≠ [] ∧ ∀ c ∈ w, isBlank c = false := by
  obtain ⟨hw, hne⟩ := List.mem_filter.1 h
  exact ⟨by simpa using hne, not_of_mem_splitOn hw⟩

end ContextFree.Text
