/-
  ContextFree/Symbol.lean
  =======================
  **Symbols** of a context-free grammar, right-hand sides, and finite sets of
  symbols.

  A symbol is a non-terminal or a terminal with a name; the two kinds are never
  equal, whatever their names.  Symbols are ordered: every non-terminal comes
  before every terminal, and within a kind the names decide, by code point.  The
  order is a lawful linear order, so a finite set of symbols is an extensional
  search tree: two sets with the same members are equal.
-/
import ContextFree.Text.Pieces
import Std.Data.ExtTreeSet

namespace ContextFree

/-- A symbol of a grammar: a kind and a name. -/
inductive Symbol where
  | nonterminal (name : String)
  | terminal (name : String)
  deriving DecidableEq

namespace Symbol

def name : Symbol → String
  | nonterminal a => a
  | terminal a => a

def isNonterminal : Symbol → Bool
  | nonterminal _ => true
  | terminal _ => false

def isTerminal : Symbol → Bool
  | nonterminal _ => false
  | terminal _ => true

@[simp] theorem name_nonterminal (a : String) : (nonterminal a).name = a := rfl

@[simp] theorem name_terminal (a : String) : (terminal a).name = a := rfl

@[simp] theorem isNonterminal_nonterminal (a : String) : (nonterminal a).isNonterminal = true := rfl

@[simp] theorem isNonterminal_terminal (a : String) : (terminal a).isNonterminal = false := rfl

@[simp] theorem isTerminal_nonterminal (a : String) : (nonterminal a).isTerminal = false := rfl

@[simp] theorem isTerminal_terminal (a : String) : (terminal a).isTerminal = true := rfl

theorem not_isTerminal {x : Symbol} (h : x.isNonterminal = true) : ¬ x.isTerminal = true := by
  cases x with
  | nonterminal a => exact Bool.false_ne_true
  | terminal a => cases h

theorem eq_of_name_eq {x y : Symbol} (hx : x.isNonterminal = true) (hy : y.isNonterminal = true)
    (h : x.name = y.name) : x = y := by
  cases x with
  | nonterminal a =>
    cases y with
    | nonterminal b => exact congrArg nonterminal h
    | terminal b => cases hy
  | terminal a => cases hx

theorem nonterminal_name {x : Symbol} (h : x.isNonterminal = true) : nonterminal x.name = x :=
  eq_of_name_eq rfl h rfl

theorem terminal_name {x : Symbol} (h : x.isTerminal = true) : terminal x.name = x := by
  cases x with
  | nonterminal a => cases h
  | terminal a => rfl

/-- A symbol is its kind and its name. -/
theorem eq_of_kind_of_name {x y : Symbol} (kind : x.isNonterminal = true ↔ y.isNonterminal = true)
    (h : x.name = y.name) : x = y := by
  cases x with
  | nonterminal a => exact eq_of_name_eq rfl (kind.1 rfl) h
  | terminal a =>
    cases y with
    | nonterminal b => exact absurd (kind.2 rfl) Bool.false_ne_true
    | terminal b => exact congrArg terminal h

/-! ### The order of symbols -/

/-- Non-terminals come first; within a kind the names decide. -/
instance : Ord Symbol where
  compare
    | nonterminal a, nonterminal b => compare a b
    | nonterminal _, terminal _ => .lt
    | terminal _, nonterminal _ => .gt
    | terminal a, terminal b => compare a b

instance : Std.OrientedOrd Symbol where
  eq_swap {s t} := by
    cases s <;> cases t
    · exact Std.OrientedOrd.eq_swap (α := String)
    · rfl
    · rfl
    · exact Std.OrientedOrd.eq_swap (α := String)

instance : Std.TransOrd Symbol where
  isLE_trans {s t u} h₁ h₂ := by
    cases s <;> cases t <;> cases u
    · exact Std.TransOrd.isLE_trans (α := String) h₁ h₂
    · rfl
    · cases h₂
    · rfl
    · cases h₁
    · cases h₁
    · cases h₂
    · exact Std.TransOrd.isLE_trans (α := String) h₁ h₂

instance : Std.LawfulEqOrd Symbol where
  compare_self {s} := by
    cases s <;> exact Std.ReflOrd.compare_self (α := String)
  eq_of_compare {s t} h := by
    cases s <;> cases t
    · rw [Std.LawfulEqOrd.eq_of_compare (α := String) h]
    · cases h
    · cases h
    · rw [Std.LawfulEqOrd.eq_of_compare (α := String) h]

end Symbol

/-- A right-hand side: the symbols that replace a non-terminal.  The empty one is epsilon. -/
abbrev Rhs := List Symbol

namespace Rhs

/-- The non-terminal that is the whole of a unit right-hand side. -/
def unitTarget? : Rhs → Option Symbol
  | [.nonterminal a] => some (.nonterminal a)
  | _ => none

/-- A unit right-hand side is one non-terminal and nothing else. -/
def isUnit (r : Rhs) : Bool := (unitTarget? r).isSome

/-- The symbols separated by spaces; the empty right-hand side is `ε`. -/
def render (r : Rhs) : String :=
  if r.isEmpty then "ε" else Text.join " " (r.map Symbol.name)

end Rhs

abbrev SymbolSet := Std.ExtTreeSet Symbol compare

/-- The members of a set that satisfy a test. -/
def SymbolSet.select (s : SymbolSet) (p : Symbol → Bool) : SymbolSet := .ofList (s.toList.filter p)

@[simp] theorem SymbolSet.mem_select {s : SymbolSet} {p : Symbol → Bool} {x : Symbol} :
    x ∈ s.select p ↔ x ∈ s ∧ p x = true := by
  simp [SymbolSet.select, Std.ExtTreeSet.mem_ofList]

theorem SymbolSet.mem_insert {s : SymbolSet} {x y : Symbol} : x ∈ s.insert y ↔ x = y ∨ x ∈ s := by
  rw [Std.ExtTreeSet.mem_insert, Std.LawfulEqOrd.compare_eq_iff_eq, eq_comm]

theorem SymbolSet.mem_singleton {x y : Symbol} : x ∈ (∅ : SymbolSet).insert y ↔ x = y := by
  rw [SymbolSet.mem_insert]
  exact or_iff_left Std.ExtTreeSet.not_mem_empty

theorem SymbolSet.mem_insertMany {s : SymbolSet} {xs : List Symbol} {x : Symbol} :
    x ∈ s.insertMany xs ↔ x ∈ s ∨ x ∈ xs := by
  rw [Std.ExtTreeSet.mem_insertMany_list, List.contains_iff_mem]

theorem SymbolSet.mem_ofList {xs : List Symbol} {x : Symbol} :
    x ∈ (.ofList xs : SymbolSet) ↔ x ∈ xs := by
  rw [Std.ExtTreeSet.mem_ofList, List.contains_iff_mem]

abbrev NameSet := Std.ExtTreeSet String compare

theorem NameSet.mem_insert {s : NameSet} {a b : String} : a ∈ s.insert b ↔ a = b ∨ a ∈ s := by
  rw [Std.ExtTreeSet.mem_insert, Std.LawfulEqOrd.compare_eq_iff_eq, eq_comm]

end ContextFree
