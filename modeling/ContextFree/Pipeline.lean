/-
  ContextFree/Pipeline.lean
  =========================
  **The pipeline** from a grammar to its Chomsky normal form.

  A valid grammar passes five stages, in this order: empty right-hand sides go,
  unit rules go, unreachable symbols go, symbols that derive no word go, and what
  is left is converted.  `stages` keeps every result.  `events` and `exhibits`
  say what the run logs and shows; both are functions of the grammar alone.
-/
import ContextFree.Grammar.Validity
import ContextFree.Unit
import ContextFree.Useless
import ContextFree.Chomsky
import ContextFree.Log

namespace ContextFree

/-- The results of the five stages, and the supply of names after the last one. -/
structure Stages where
  epsilonFree : Grammar
  unitFree : Grammar
  reachable : Grammar
  generating : Grammar
  chomsky : Grammar
  names : NameSupply

def Stages.toList (s : Stages) : List Grammar :=
  [s.epsilonFree, s.unitFree, s.reachable, s.generating, s.chomsky]

/-- A grammar as it is shown on the way: lines of notes, a title, and the grammar. -/
structure Exhibit where
  notes : List String
  title : String
  grammar : Grammar

namespace Exhibit

def ruler (c : Char) : String := String.ofList (List.replicate 80 c)

/-- The notes, then the title between rulers, the grammar, and an empty line. -/
def lines (e : Exhibit) : List String :=
  e.notes ++ [ruler '=', e.title, ruler '-', e.grammar.render, ""]

/-- The pieces in which an exhibit is written: every line, and apart from it its end. -/
def pieces (e : Exhibit) : List String := e.lines.flatMap fun line => [line, "\n"]

def render (e : Exhibit) : String := Text.join "" e.pieces

end Exhibit

namespace Grammar

/-- Runs the five stages.  Fresh names avoid every symbol of the given grammar, also those that a
    stage drops. -/
def stages (g : Grammar) : Stages :=
  let epsilonFree := g.withoutEpsilon
  let unitFree := epsilonFree.withoutUnits
  let reachable := unitFree.onlyReachable
  let generating := reachable.onlyGenerating
  let (chomsky, names) := generating.toChomsky (.ofUsed g.declaredNames)
  ⟨epsilonFree, unitFree, reachable, generating, chomsky, names⟩

/-! Each stage is made from the one before it. -/

theorem stages_epsilonFree (g : Grammar) : g.stages.epsilonFree = g.withoutEpsilon := by
  simp only [stages]

theorem stages_unitFree (g : Grammar) :
    g.stages.unitFree = g.stages.epsilonFree.withoutUnits := by simp only [stages]

theorem stages_reachable (g : Grammar) :
    g.stages.reachable = g.stages.unitFree.onlyReachable := by simp only [stages]

theorem stages_generating (g : Grammar) :
    g.stages.generating = g.stages.reachable.onlyGenerating := by simp only [stages]

theorem stages_chomsky (g : Grammar) :
    g.stages.chomsky = (g.stages.generating.toChomsky (.ofUsed g.declaredNames)).1 := by
  simp only [stages]

theorem stages_names (g : Grammar) :
    g.stages.names = (g.stages.generating.toChomsky (.ofUsed g.declaredNames)).2 := by
  simp only [stages]

def checkedStages (g : Grammar) : Except Defect Stages := g.check.map fun _ => g.stages

/-- The Chomsky normal form of a valid grammar. -/
def chomskyForm (g : Grammar) : Except Defect Grammar := g.checkedStages.map Stages.chomsky

/-! ### What a run reports -/

def builtEvent (g : Grammar) : Event :=
  .grammarBuilt g.nonterminals.size g.terminals.size g.start.name

def readEvent (g : Grammar) : Event := .textRead g.table.size g.start.name

/-- The unit closures that hold more than their symbol. -/
def unitEvents (g : Grammar) : List Event :=
  g.lhssByName.filterMap fun A =>
    let closure := g.unitReach A
    if closure.length ≤ 1 then none else some (.unitsFollowed A.name (closure.map Symbol.name))

/-- The event of a language without words, if the start symbol derives none. -/
def emptyEvents (g : Grammar) : List Event :=
  if g.start ∈ g.generating then [] else [.languageEmpty g.start.name]

def events (g : Grammar) : List Event :=
  let s := g.stages
  [.begun .epsilon, .nullableFound (SymbolSet.sortedNames g.nullable), .begun .unit] ++
  s.epsilonFree.unitEvents ++
  [.begun .unreachable, .unreachableDropped (SymbolSet.sortedNames s.unitFree.unreachable),
    .begun .nongenerating,
    .nongeneratingDropped (SymbolSet.sortedNames s.reachable.nongenerating)] ++
  s.reachable.emptyEvents ++ [.begun .chomsky] ++ s.names.allocated.map .nameAllocated ++
  [.chomskyReached s.chomsky.nonterminals.size]

def exhibits (g : Grammar) (spelling : Text.Spelling) : List Exhibit :=
  let s := g.stages
  [ ⟨["Nullable symbols: " ++ spelling.quotedList (SymbolSet.sortedNames g.nullable)],
      "Grammar without epsilon productions", s.epsilonFree⟩,
    ⟨[], "Grammar without unit productions", s.unitFree⟩,
    ⟨[], "After removing unreachable symbols (reachable=" ++
      spelling.quotedList (SymbolSet.sortedNames s.unitFree.reachable) ++ ")", s.reachable⟩,
    ⟨[], "After removing non-generating symbols (generating=" ++
      spelling.quotedList (SymbolSet.sortedNames s.reachable.generating) ++ ")", s.generating⟩,
    ⟨[], "Grammar in CNF", s.chomsky⟩ ]

/-- What a run shows of a grammar whose names are plain. -/
def transcript (g : Grammar) : String := Text.join "" ((g.exhibits .plain).map Exhibit.render)

end Grammar

end ContextFree
