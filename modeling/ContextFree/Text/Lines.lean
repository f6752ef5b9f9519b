/-
  ContextFree/Text/Lines.lean
  ===========================
  **Lines** of a text and the two conventions on line ends.

  `lines` cuts a text at every line boundary; a boundary at the very end starts
  no further line.  `unifyLineEnds` is what reading a file does to its text:
  each of `\r\n` and `\r` becomes `\n`.
-/
import ContextFree.Text.Blank

namespace ContextFree.Text

def isLineBreak (c : Char) : Bool :=
  let n := c.toNat
  (0x0A ≤ n && n ≤ 0x0D) || (0x1C ≤ n && n ≤ 0x1E) || n == 0x85 || n == 0x2028 || n == 0x2029

/-- The lines of a text without their ends; `\r\n` is one end. -/
def lines : List Char → List (List Char)
  | [] => []
  | '\r' :: '\n' :: cs => [] :: lines cs
  | c :: cs => if isLineBreak c then [] :: lines cs else consFirst c (lines cs)

/-- A line break is white space. -/
theorem isBlank_of_isLineBreak {c : Char} (h : isLineBreak c = true) : isBlank c = true := by
  simp only [isLineBreak, isBlank, Bool.or_eq_true, Bool.and_eq_true, decide_eq_true_eq,
    beq_iff_eq] at h ⊢
  omega

theorem lines_cons {c : Char} (hc : isLineBreak c = false) (cs : List Char) :
    lines (c :: cs) = consFirst c (lines cs) := by
  have notReturn : ∀ rest, c = '\r' → cs = '\n' :: rest → False := by
    intro rest h
    rw [h] at hc
    exact absurd hc (by decide)
  rw [lines.eq_3 c cs notReturn, hc]
  rfl

/-- A text without line breaks, and what is behind the end of its line. -/
theorem lines_append_newline {cs : List Char} (h : ∀ c ∈ cs, isLineBreak c = false)
    (rest : List Char) : lines (cs ++ '\n' :: rest) = cs :: lines rest := by
  induction cs with
  | nil => simp [lines, isLineBreak]
  | cons c cs ih =>
    obtain ⟨hc, hcs⟩ := List.forall_mem_cons.1 h
    rw [List.cons_append, lines_cons hc, ih hcs]
    rfl

theorem lines_of_forall_not {cs : List Char} (h : ∀ c ∈ cs, isLineBreak c = false)
    (hne : cs ≠ []) : lines cs = [cs] := by
  induction cs with
  | nil => exact absurd rfl hne
  | cons c cs ih =>
    obtain ⟨hc, hcs⟩ := List.forall_mem_cons.1 h
    rw [lines_cons hc]
    cases cs with
    | nil => rfl
    | cons d cs => rw [ih hcs (List.cons_ne_nil d cs), consFirst]

/-- Lines that are put together come apart again, unless one of them is empty. -/
theorem lines_join {ls : List String} (hne : ∀ l ∈ ls, l.toList ≠ [])
    (h : ∀ l ∈ ls, ∀ c ∈ l.toList, isLineBreak c = false) :
    lines (join "\n" ls).toList = ls.map String.toList := by
  induction ls with
  | nil => rfl
  | cons l ls ih =>
    obtain ⟨hl, hls⟩ := List.forall_mem_cons.1 h
    obtain ⟨hlne, hlsne⟩ := List.forall_mem_cons.1 hne
    cases ls with
    | nil => rw [join_singleton, lines_of_forall_not hl hlne, List.map_singleton]
    | cons k ls =>
      have text : (join "\n" (l :: k :: ls)).toList =
          l.toList ++ '\n' :: (join "\n" (k :: ls)).toList := by
        simp [join_cons_cons]
      rw [text, lines_append_newline hl, ih hlsne hls]
      rfl

/-- Replaces `\r\n` and `\r` by `\n`. -/
def unifyLineEnds : List Char → List Char
  | [] => []
  | '\r' :: '\n' :: cs => '\n' :: unifyLineEnds cs
  | c :: cs => (if c == '\r' then '\n' else c) :: unifyLineEnds cs

theorem unifyLineEnds_eq_self {cs : List Char} (h : '\r' ∉ cs) : unifyLineEnds cs = cs := by
  fun_induction unifyLineEnds cs with
  | case1 => rfl
  | case2 cs ih => exact absurd List.mem_cons_self h
  | case3 c cs _ ih =>
    obtain ⟨hc, hcs⟩ : '\r' ≠ c ∧ '\r' ∉ cs := by simpa using h
    rw [ih hcs, if_neg fun e => hc (eq_of_beq e).symm]

/-- Line ends of every convention are line boundaries. -/
theorem lines_unifyLineEnds (cs : List Char) : lines (unifyLineEnds cs) = lines cs := by
  fun_induction unifyLineEnds cs with
  | case1 => rfl
  | case2 cs ih =>
    rw [lines.eq_2, ← ih]
    exact lines_append_newline (List.forall_mem_nil _) _
  | case3 c cs pair ih =>
    split
    · rename_i h
      obtain rfl : c = '\r' := beq_iff_eq.1 h
      rw [lines.eq_3 '\r' cs pair, ← ih]
      exact lines_append_newline (List.forall_mem_nil _) _
    · rename_i h
      have notReturn : ∀ {ds : List Char} rest, c = '\r' → ds = '\n' :: rest → False :=
        fun _ hc _ => h (beq_iff_eq.2 hc)
      rw [lines.eq_3 c cs notReturn, lines.eq_3 c _ notReturn, ih]

end ContextFree.Text
