/-
  ContextFree/Grammar/Basic.lean
  ==============================
  **Grammars**: a start symbol, the declared symbols, and for each left-hand side
  its right-hand sides in the order in which they were added.

  Nothing ties the three together here: a table may mention symbols that are not
  declared, and `Grammar.Valid` in `ContextFree.Grammar.Validity` says when it
  does not.  `addRule` declares its left-hand side and adds a right-hand side
  only once.  `rules` lists every rule, left-hand sides in the order of their
  names; every stage that hands out new names follows it.
-/
import ContextFree.Symbol
import ContextFree.Table
import ContextFree.Sorted

namespace ContextFree

structure Rule where
  lhs : Symbol
  rhs : Rhs
  deriving DecidableEq

/-- A context-free grammar.  A left-hand side may be in the table without a right-hand side. -/
structure Grammar where
  start : Symbol
  nonterminals : SymbolSet
  terminals : SymbolSet
  table : Table Symbol (List Rhs)

/-- The names of a set of symbols in ascending order; a name of two symbols is there twice. -/
def SymbolSet.sortedNames (s : SymbolSet) : List String := sortNames (s.toList.map Symbol.name)

namespace Grammar

/-- A grammar without rules; its start symbol is declared. -/
def ofSymbols (start : Symbol) (nonterminals terminals : SymbolSet) : Grammar where
  start := start
  nonterminals := nonterminals.insert start
  terminals := terminals
  table := ∅

def rhss (g : Grammar) (A : Symbol) : List Rhs := (g.table.get? A).getD []

/-- Adds a rule: its left-hand side is declared, and a right-hand side that is there already is not
    added again. -/
def addRule (g : Grammar) (r : Rule) : Grammar :=
  { g with
    nonterminals := g.nonterminals.insert r.lhs
    table := g.table.set r.lhs (Distinct.insert (g.rhss r.lhs) r.rhs) }

def addRules (g : Grammar) (rs : List Rule) : Grammar := rs.foldl addRule g

/-- Gives a symbol its right-hand sides as they stand and declares nothing. -/
def setRhss (g : Grammar) (A : Symbol) (rhss : List Rhs) : Grammar :=
  { g with table := g.table.set A rhss }

def lhssByName (g : Grammar) : List Symbol := sortBy Symbol.name g.table.keys

/-- Every rule: left-hand sides in the order of their names, right-hand sides as they were added. -/
def rules (g : Grammar) : List Rule :=
  g.lhssByName.flatMap fun A => (g.rhss A).map fun r => ⟨A, r⟩

def declaredNames (g : Grammar) : NameSet :=
  Std.ExtTreeSet.ofList ((g.nonterminals.toList ++ g.terminals.toList).map Symbol.name)

/-- Two grammars are the same if start, declared symbols and the right-hand sides of every
    left-hand side agree; the order of the left-hand sides does not matter. -/
def Same (g h : Grammar) : Prop :=
  g.start = h.start ∧ g.nonterminals = h.nonterminals ∧ g.terminals = h.terminals ∧
    ∀ A, g.table.get? A = h.table.get? A

/-- Compares the tables at the keys of both. -/
def sameTable (t u : Table Symbol (List Rhs)) : Bool :=
  (t.keys ++ u.keys).all fun A => t.get? A == u.get? A

theorem sameTable_iff {t u : Table Symbol (List Rhs)} :
    sameTable t u = true ↔ ∀ A, t.get? A = u.get? A := by
  simp only [sameTable, List.all_eq_true, List.mem_append, beq_iff_eq]
  refine ⟨fun h A => ?_, fun h A _ => h A⟩
  by_cases ht : A ∈ t.keys
  · exact h A (Or.inl ht)
  · by_cases hu : A ∈ u.keys
    · exact h A (Or.inr hu)
    · rw [Table.get?_eq_none_iff.2 ht, Table.get?_eq_none_iff.2 hu]

instance (g h : Grammar) : Decidable (Same g h) :=
  decidable_of_iff
    (g.start = h.start ∧ g.nonterminals = h.nonterminals ∧ g.terminals = h.terminals ∧
      sameTable g.table h.table = true)
    (by rw [sameTable_iff]; rfl)

/-- A grammar is its start symbol, its declared symbols and its table. -/
theorem eq_of_parts_eq {g h : Grammar} (start : g.start = h.start)
    (nonterminals : g.nonterminals = h.nonterminals) (terminals : g.terminals = h.terminals)
    (table : g.table = h.table) : g = h := by
  cases g
  cases h
  cases start
  cases nonterminals
  cases terminals
  cases table
  rfl

/-! ### What a grammar holds -/

theorem rhss_eq_nil_of_not_mem_keys {g : Grammar} {A : Symbol} (h : A ∉ g.table.keys) :
    g.rhss A = [] := by
  unfold rhss
  rw [Table.get?_eq_none_iff.2 h]
  rfl

theorem rhss_eq_of_mem_entries {g : Grammar} {e : Symbol × List Rhs} (he : e ∈ g.table.entries) :
    g.rhss e.1 = e.2 := by
  unfold rhss
  rw [Table.get?_eq_some_iff.2 he]
  rfl

theorem mem_entries_of_mem_keys {g : Grammar} {A : Symbol} (hA : A ∈ g.table.keys) :
    (A, g.rhss A) ∈ g.table.entries := by
  obtain ⟨e, he, rfl⟩ := List.mem_map.1 hA
  rw [rhss_eq_of_mem_entries he]
  exact he

theorem mem_keys_of_rhss_ne_nil {g : Grammar} {A : Symbol} (h : g.rhss A ≠ []) :
    A ∈ g.table.keys := by
  apply Decidable.byContradiction
  exact fun hA => h (rhss_eq_nil_of_not_mem_keys hA)

theorem mem_keys_of_mem_rhss {g : Grammar} {A : Symbol} {r : Rhs} (hr : r ∈ g.rhss A) :
    A ∈ g.table.keys := mem_keys_of_rhss_ne_nil (List.ne_nil_of_mem hr)

theorem exists_entry_of_mem_rhss {g : Grammar} {A : Symbol} {r : Rhs} (hr : r ∈ g.rhss A) :
    ∃ rs, (A, rs) ∈ g.table.entries ∧ r ∈ rs :=
  ⟨g.rhss A, mem_entries_of_mem_keys (mem_keys_of_mem_rhss hr), hr⟩

theorem mem_flatMap_entries_of_mem_rhss {g : Grammar} {A : Symbol} {r : Rhs} (hr : r ∈ g.rhss A) :
    r ∈ g.table.entries.flatMap Prod.snd := by
  obtain ⟨rs, hrs, mem⟩ := exists_entry_of_mem_rhss hr
  exact List.mem_flatMap.2 ⟨(A, rs), hrs, mem⟩

theorem mem_rules {g : Grammar} {r : Rule} : r ∈ g.rules ↔ r.rhs ∈ g.rhss r.lhs := by
  unfold rules lhssByName
  simp only [List.mem_flatMap, List.mem_map, mem_sortBy]
  constructor
  · rintro ⟨A, _, s, hs, rfl⟩
    exact hs
  · intro h
    exact ⟨r.lhs, mem_keys_of_mem_rhss h, r.rhs, h, rfl⟩

/-! ### What adding a rule does -/

@[simp] theorem rhss_setRhss (g : Grammar) (A : Symbol) (rs : List Rhs) (B : Symbol) :
    (g.setRhss A rs).rhss B = if A = B then rs else g.rhss B := by
  unfold rhss setRhss
  rw [Table.get?_set]
  split <;> rfl

@[simp] theorem rhss_addRule (g : Grammar) (r : Rule) (B : Symbol) :
    (g.addRule r).rhss B =
      if r.lhs = B then Distinct.insert (g.rhss B) r.rhs else g.rhss B := by
  unfold rhss addRule
  rw [Table.get?_set]
  split
  · rename_i h
    subst h
    rfl
  · rfl

theorem keys_addRule (g : Grammar) (r : Rule) :
    (g.addRule r).table.keys = Distinct.insert g.table.keys r.lhs := Table.keys_set _ _ _

@[simp] theorem start_addRule (g : Grammar) (r : Rule) : (g.addRule r).start = g.start := rfl

@[simp] theorem terminals_addRule (g : Grammar) (r : Rule) :
    (g.addRule r).terminals = g.terminals := rfl

end Grammar

end ContextFree
