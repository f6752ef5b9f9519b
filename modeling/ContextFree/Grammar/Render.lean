/-
  ContextFree/Grammar/Render.lean
  ===============================
  **The text of a grammar**: a line for each left-hand side that has a right-hand
  side, in the order of the names, with the right-hand sides sorted by their text.
-/
import ContextFree.Grammar.Basic

namespace ContextFree

def Rule.render (r : Rule) : String := r.lhs.name ++ " -> " ++ Rhs.render r.rhs

namespace Grammar

def renderLine (A : Symbol) (rhss : List Rhs) : String :=
  A.name ++ " -> " ++ Text.join " | " (sortNames (rhss.map Rhs.render))

/-- The lines of a grammar; a left-hand side without a right-hand side has none. -/
def renderLines (g : Grammar) : List String :=
  (g.lhssByName.filter fun A => !(g.rhss A).isEmpty).map fun A => renderLine A (g.rhss A)

/-- The text of a grammar, without a line end after the last line. -/
def render (g : Grammar) : String := Text.join "\n" g.renderLines

end Grammar

end ContextFree
