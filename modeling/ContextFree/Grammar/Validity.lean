/-
  ContextFree/Grammar/Validity.lean
  =================================
  **Valid grammars**: the start symbol is a declared non-terminal, no name is
  declared both as a non-terminal and as a terminal, and every rule mentions
  declared symbols only.

  `check` finds the first defect in that order.  `Valid` adds what a check of
  names cannot see: that the declared non-terminals are non-terminals and the
  declared terminals are terminals.
-/
import ContextFree.Grammar.Render
import ContextFree.Text.Surrogates

namespace ContextFree

inductive Defect where
  /-- The start symbol is a terminal or not declared. -/
  | startNotNonterminal (start : Symbol)
  | declaredTwice (names : List String)
  | unknownLhs (lhs : Symbol)
  | unknownSymbol (rule : Rule) (symbol : Symbol)
  deriving DecidableEq

def Defect.message (spelling : Text.Spelling) : Defect → String
  | startNotNonterminal s => "start symbol " ++ s.name ++ " is not a non-terminal"
  | declaredTwice names =>
      "symbols declared both terminal and non-terminal: " ++ spelling.quotedList names
  | unknownLhs A => "production for unknown non-terminal " ++ A.name
  | unknownSymbol r s => r.render ++ ": unknown symbol " ++ s.name

namespace Grammar

/-- Whether a symbol is declared, as either kind. -/
def Declares (g : Grammar) (s : Symbol) : Prop := s ∈ g.nonterminals ∨ s ∈ g.terminals

instance (g : Grammar) (s : Symbol) : Decidable (g.Declares s) :=
  inferInstanceAs (Decidable (s ∈ g.nonterminals ∨ s ∈ g.terminals))

/-- The names that are declared as both kinds, in ascending order. -/
def declaredTwice (g : Grammar) : List String :=
  let names := Std.ExtTreeSet.ofList (g.terminals.toList.map Symbol.name)
  (Std.ExtTreeSet.ofList (g.nonterminals.toList.map Symbol.name) : NameSet).toList.filter
    (names.contains ·)

/-- The first defect among the rules of one left-hand side. -/
def lhsDefect? (g : Grammar) (A : Symbol) (rhss : List Rhs) : Option Defect :=
  if A ∈ g.nonterminals then
    rhss.findSome? fun r =>
      (r.find? fun s => !decide (g.Declares s)).map fun s => .unknownSymbol ⟨A, r⟩ s
  else some (.unknownLhs A)

def defect? (g : Grammar) : Option Defect :=
  if !(g.start.isNonterminal && g.nonterminals.contains g.start) then
    some (.startNotNonterminal g.start)
  else if !g.declaredTwice.isEmpty then some (.declaredTwice g.declaredTwice)
  else g.table.entries.findSome? fun e => g.lhsDefect? e.1 e.2

def check (g : Grammar) : Except Defect Unit :=
  match g.defect? with
  | some d => .error d
  | none => .ok ()

/-- A valid grammar passes the check, and its declared symbols are of the kind they are declared
    with. -/
structure Valid (g : Grammar) : Prop where
  check_eq_ok : g.check = .ok ()
  isNonterminal_of_mem : ∀ s ∈ g.nonterminals, s.isNonterminal = true
  isTerminal_of_mem : ∀ s ∈ g.terminals, s.isTerminal = true

theorem check_eq_ok_iff {g : Grammar} : g.check = .ok () ↔ g.defect? = none := by
  unfold check
  constructor
  · intro pass
    split at pass
    · cases pass
    · assumption
  · intro pass
    rw [pass]

theorem valid_iff {g : Grammar} :
    g.Valid ↔ g.defect? = none ∧ (∀ s ∈ g.nonterminals.toList, s.isNonterminal = true) ∧
      ∀ s ∈ g.terminals.toList, s.isTerminal = true := by
  simp only [Std.ExtTreeSet.mem_toList]
  constructor
  · exact fun hg => ⟨check_eq_ok_iff.1 hg.check_eq_ok, hg.isNonterminal_of_mem, hg.isTerminal_of_mem⟩
  · rintro ⟨pass, hnts, hts⟩
    exact ⟨check_eq_ok_iff.2 pass, hnts, hts⟩

instance (g : Grammar) : Decidable g.Valid := decidable_of_iff _ valid_iff.symm

end Grammar

end ContextFree
