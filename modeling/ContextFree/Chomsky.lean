/-
  ContextFree/Chomsky.lean
  ========================
  **Chomsky normal form**: a right-hand side is a terminal, a pair of
  non-terminals or, at the start symbol only, empty.

  The conversion takes two passes.  The first separates terminals from long
  right-hand sides: each such terminal gets one preterminal, a new non-terminal
  with the terminal as its only right-hand side.  The second turns a right-hand
  side of more than two symbols into a chain of pairs, linked by new
  non-terminals.
-/
import ContextFree.Grammar.Basic
import ContextFree.NameSupply

namespace ContextFree

/-! ### Terminals of long right-hand sides -/

/-- Terminals with their preterminals, in the order of allocation. -/
abbrev Preterminals := List (Symbol × Symbol)

def allocatePreterminals : List Symbol → NameSupply → Preterminals × NameSupply
  | [], f => ([], f)
  | a :: as, f =>
    let (name, f) := f.hinted "T" a.name
    let (ps, f) := allocatePreterminals as f
    ((a, .nonterminal name) :: ps, f)

/-- The preterminal of a symbol, or the symbol itself if it has none. -/
def Preterminals.apply (ps : Preterminals) (s : Symbol) : Symbol := (Table.lookup s ps).getD s

/-- A long right-hand side has at least two symbols. -/
def Rhs.isLong (r : Rhs) : Bool := 2 ≤ r.length

/-- Replaces the terminals of a long right-hand side by their preterminals. -/
def Rule.separate (ps : Preterminals) (r : Rule) : Rule :=
  if Rhs.isLong r.rhs then { r with rhs := r.rhs.map ps.apply } else r

namespace Grammar

/-- The terminals of the long right-hand sides in the order of their first use. -/
def longTerminals (g : Grammar) : List Symbol :=
  Distinct.ofList ((g.rules.filter fun r => Rhs.isLong r.rhs).flatMap fun r =>
    r.rhs.filter Symbol.isTerminal)

/-- Replaces the terminals of long right-hand sides by preterminals, which get their rules last. -/
def separateTerminals (g : Grammar) (f : NameSupply) : Grammar × NameSupply :=
  let (ps, f) := allocatePreterminals g.longTerminals f
  let preterminalRules := ps.map fun p => (⟨p.2, [p.1]⟩ : Rule)
  ((ofSymbols g.start g.nonterminals g.terminals).addRules
    (g.rules.map (Rule.separate ps) ++ preterminalRules), f)

/-! ### Chains of pairs -/

/-- The chain of rules for one rule: `A → s₁ s₂ … sₙ` with `n > 2` becomes `A → s₁ X₁`,
    `X₁ → s₂ X₂`, …, `Xₙ₋₂ → sₙ₋₁ sₙ`. -/
def splitRule : Symbol → Rhs → NameSupply → List Rule × NameSupply
  | A, s :: t :: u :: rest, f =>
    let (name, f) := f.next "X"
    let (chain, f) := splitRule (.nonterminal name) (t :: u :: rest) f
    (⟨A, [s, .nonterminal name]⟩ :: chain, f)
  | A, r, f => ([⟨A, r⟩], f)

/-- A chain has right-hand sides of at most two symbols. -/
theorem length_rhs_of_mem_splitRule {A : Symbol} {r : Rhs} {f : NameSupply} {s : Rule}
    (h : s ∈ (splitRule A r f).1) : s.rhs.length ≤ 2 := by
  fun_induction splitRule A r f with
  | case1 A x t u rest f name f' _ chain f'' _ ih =>
    rcases List.mem_cons.1 h with rfl | h
    · exact Nat.le_refl 2
    · simp_all
  | case2 A r f short =>
    rw [List.mem_singleton.1 h]
    match r, short with
    | [], _ => exact Nat.zero_le 2
    | [x], _ => exact Nat.le_succ 1
    | [x, t], _ => exact Nat.le_refl 2
    | x :: t :: u :: rest, short => exact absurd rfl (short x t u rest)

def splitRules : List Rule → NameSupply → List Rule × NameSupply
  | [], f => ([], f)
  | r :: rs, f =>
    let (chain, f) := splitRule r.lhs r.rhs f
    let (rest, f) := splitRules rs f
    (chain ++ rest, f)

def splitLong (g : Grammar) (f : NameSupply) : Grammar × NameSupply :=
  let (rs, f) := splitRules g.rules f
  ((ofSymbols g.start g.nonterminals g.terminals).addRules rs, f)

/-! ### The normal form -/

/-- Separates terminals, then splits. -/
def toChomsky (g : Grammar) (f : NameSupply) : Grammar × NameSupply :=
  let (separated, f) := g.separateTerminals f
  separated.splitLong f

/-- Whether a rule is in normal form for a start symbol. -/
def chomskyRule (start : Symbol) (r : Rule) : Bool :=
  match r.rhs with
  | [] => decide (r.lhs = start)
  | [a] => a.isTerminal
  | [B, C] => B.isNonterminal && C.isNonterminal
  | _ => false

def isChomsky (g : Grammar) : Bool := g.rules.all (chomskyRule g.start)

end Grammar

end ContextFree
