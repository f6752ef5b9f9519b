/-
  ContextFree/Grammar/Text.lean
  =============================
  **Grammars as text.**

      S -> a S b | A
      A → c | ε

  A production line has a left-hand side, an arrow, and alternatives separated by
  bars; the symbols of an alternative are separated by spaces and tabs.  The word
  `ε` or `eps` on its own is the empty right-hand side.  Lines that are blank or
  begin with `#` are skipped.

  The text declares nothing: a name is a non-terminal if it is a left-hand side
  anywhere in the text or begins with an upper-case character, else a terminal.
  The start symbol is the first left-hand side.
-/
import ContextFree.Grammar.Basic
import ContextFree.Text.Lines
import ContextFree.Text.Pattern
import ContextFree.Text.Quoted
import ContextFree.Text.Uppercase

namespace ContextFree

inductive TextError where
  /-- This line, counted from one, is not a production. -/
  | invalidProduction (line : Nat) (text : String)
  /-- A word for the empty right-hand side is not alone on this line. -/
  | epsilonNotAlone (line : Nat)
  | noProductions
  deriving DecidableEq

def TextError.message : TextError → String
  | invalidProduction i line =>
      "line " ++ Nat.repr i ++ ": invalid production " ++ Text.quote line
  | epsilonNotAlone i => "line " ++ Nat.repr i ++ ": epsilon must be an alternative on its own"
  | noProductions => "no productions found"

/-- A production line: a left-hand side and its alternatives, as names. -/
structure Production where
  lhs : String
  alternatives : List (List String)
  deriving DecidableEq

namespace Production

open Text

/-! ### The form of a line -/

def arrow : Pattern :=
  .alt (.seq (.char (· == '-')) (.char (· == '>'))) (.char (· == '→'))

/-- A symbol is a run without white space, bars and arrows. -/
def symbol : Pattern :=
  .plus (.seq (.notAhead arrow) (.char fun c => !isBlank c && c != '|'))

/-- Spaces or tabs and one more symbol. -/
def nextSymbol : Pattern := .seq (.plus (.char fun c => c == ' ' || c == '\t')) symbol

def alternative : Pattern := .seq symbol (.star nextSymbol)

def blanks : Pattern := .star (.char isBlank)

/-- A bar and one more alternative. -/
def nextAlternative : Pattern :=
  .seq blanks (.seq (.char (· == '|')) (.seq blanks alternative))

/-- Alternatives with bars between them, up to the end of the line. -/
def rightSide : Pattern :=
  .seq blanks (.seq alternative (.seq (.star nextAlternative) blanks))

/-- A symbol, an arrow, and alternatives. -/
def form : Pattern := .seq blanks (.seq symbol (.seq blanks (.seq arrow rightSide)))

/-! ### The meaning of a line -/

/-- The text before and after the first arrow. -/
def cutArrow : List Char → Option (List Char × List Char)
  | [] => none
  | '-' :: '>' :: cs => some ([], cs)
  | '→' :: cs => some ([], cs)
  | c :: cs => (cutArrow cs).map fun p => (c :: p.1, p.2)

def isEpsilonWord (w : List Char) : Bool := w == ['ε'] || w == ['e', 'p', 's']

/-- The symbols of an alternative; nothing if a word for the empty right-hand side is not alone. -/
def symbols? (cs : List Char) : Option (List String) :=
  let ws := words cs
  if ws.any isEpsilonWord then (if ws.length = 1 then some [] else none)
  else some (ws.map String.ofList)

/-- Reads a production line; its form is checked before its meaning. -/
def ofLine (i : Nat) (line : List Char) : Except TextError Production :=
  if form.accepts line then
    match cutArrow line with
    | none => .error (.invalidProduction i (String.ofList line))
    | some (front, rest) =>
      match (splitOn (· == '|') rest).mapM symbols? with
      | some alternatives => .ok ⟨String.ofList (strip front), alternatives⟩
      | none => .error (.epsilonNotAlone i)
  else .error (.invalidProduction i (String.ofList line))

/-- Blank lines and comments are skipped. -/
def isSkipped (line : List Char) : Bool :=
  let body := stripLeft line
  body.isEmpty || body.head? == some '#'

/-- The production lines of a text with their numbers, counted from one over all lines. -/
def numberedLines (text : String) : List (Nat × List Char) :=
  ((lines text.toList).zipIdx 1 |>.map fun p => (p.2, p.1)).filter fun p => !isSkipped p.2

def ofText (text : String) : Except TextError (List Production) :=
  (numberedLines text).mapM fun p => ofLine p.1 p.2

end Production

namespace Grammar

/-- The symbol of a name, given the left-hand sides of the text. -/
def symbolOf (lhss : List String) (name : String) : Symbol :=
  if name ∈ lhss || (name.toList.head?.any Text.isUppercase) then .nonterminal name
  else .terminal name

def rulesOf (ps : List Production) : List Rule :=
  ps.flatMap fun p => p.alternatives.map fun names =>
    ⟨.nonterminal p.lhs, names.map (symbolOf (ps.map Production.lhs))⟩

/-- The grammar of production lines with a first left-hand side. -/
def ofProductions (start : String) (ps : List Production) : Grammar :=
  let rules := rulesOf ps
  let symbols : SymbolSet := .ofList (rules.flatMap Rule.rhs)
  (ofSymbols (.nonterminal start) (symbols.select Symbol.isNonterminal)
    (symbols.select Symbol.isTerminal)).addRules rules

def ofText (text : String) : Except TextError Grammar :=
  match Production.ofText text with
  | .error e => .error e
  | .ok [] => .error .noProductions
  | .ok (p :: ps) => .ok (ofProductions p.lhs (p :: ps))

end Grammar

end ContextFree
