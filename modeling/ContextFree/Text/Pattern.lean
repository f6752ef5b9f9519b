/-
  ContextFree/Text/Pattern.lean
  =============================
  **Patterns**: regular expressions with negative look-ahead.

  A pattern takes a beginning of a text.  `rests` lists what it may leave, in the
  order in which a backtracking matcher comes to it: the first branch of a choice
  first, and the most repetitions first.  A text is accepted if one way through the
  pattern takes all of it.
-/

namespace ContextFree.Text

inductive Pattern where
  /-- One character that satisfies a test. -/
  | char (p : Char → Bool)
  | seq (p q : Pattern)
  | alt (p q : Pattern)
  | star (p : Pattern)
  /-- Takes nothing, where `p` does not take a beginning. -/
  | notAhead (p : Pattern)

namespace Pattern

/-- What is left after repetitions of a step that take something, at most `n` of them. -/
def repeats (step : List Char → List (List Char)) : Nat → List Char → List (List Char)
  | 0, cs => [cs]
  | n + 1, cs =>
    ((step cs).filter fun rest => rest.length < cs.length).flatMap (repeats step n) ++ [cs]

/-- What a pattern may leave of a text. -/
def rests : Pattern → List Char → List (List Char)
  | char _, [] => []
  | char p, c :: cs => if p c then [cs] else []
  | seq p q, cs => (p.rests cs).flatMap q.rests
  | alt p q, cs => p.rests cs ++ q.rests cs
  | star p, cs => repeats p.rests cs.length cs
  | notAhead p, cs => if (p.rests cs).isEmpty then [cs] else []

/-- One repetition or more. -/
def plus (p : Pattern) : Pattern := seq p (star p)

/-- Whether a pattern can take the whole of a text. -/
def accepts (p : Pattern) (cs : List Char) : Bool := (p.rests cs).any List.isEmpty

end Pattern

end ContextFree.Text
