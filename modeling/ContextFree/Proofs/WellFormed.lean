/-
  ContextFree/Proofs/WellFormed.lean
  ==================================
  **What the check of a grammar amounts to**: a grammar is valid if and only if it is
  well formed (`valid_iff_wellFormed`), which is said of its symbols and rules and
  not of a search for defects.

  A part of a well-formed grammar is well formed as soon as it declares what it
  mentions (`WellFormed.restrict`).
-/
import ContextFree.Grammar.Validity

namespace ContextFree.Grammar

variable {g h : Grammar}

/-- The start symbol and every left-hand side are declared non-terminals, rules mention declared
    symbols, and no name is declared as both kinds. -/
structure WellFormed (g : Grammar) : Prop where
  start_mem : g.start ∈ g.nonterminals
  isNonterminal_of_mem : ∀ x ∈ g.nonterminals, x.isNonterminal = true
  isTerminal_of_mem : ∀ x ∈ g.terminals, x.isTerminal = true
  name_ne : ∀ x ∈ g.nonterminals, ∀ a ∈ g.terminals, x.name ≠ a.name
  lhs_mem : ∀ A ∈ g.table.keys, A ∈ g.nonterminals
  declares : ∀ A r, r ∈ g.rhss A → ∀ x ∈ r, g.Declares x

/-! ### The tests of the check -/

theorem declaredTwice_eq_nil_iff :
    g.declaredTwice = [] ↔ ∀ x ∈ g.nonterminals, ∀ a ∈ g.terminals, x.name ≠ a.name := by
  have listed : ∀ (s : SymbolSet) (name : String),
      name ∈ (Std.ExtTreeSet.ofList (s.toList.map Symbol.name) : NameSet) ↔
        ∃ x ∈ s, x.name = name := by
    intro s name
    simp only [Std.ExtTreeSet.mem_ofList, List.contains_iff_mem, List.mem_map,
      Std.ExtTreeSet.mem_toList]
  unfold declaredTwice
  simp only [List.filter_eq_nil_iff, Std.ExtTreeSet.mem_toList, Std.ExtTreeSet.contains_iff_mem,
    listed]
  constructor
  · intro none x hx a ha heq
    exact none x.name ⟨x, hx, rfl⟩ ⟨a, ha, heq.symm⟩
  · rintro apart name ⟨x, hx, rfl⟩ ⟨a, ha, heq⟩
    exact apart x hx a ha heq.symm

theorem lhsDefect?_eq_none_iff {A : Symbol} {rhss : List Rhs} :
    g.lhsDefect? A rhss = none ↔ A ∈ g.nonterminals ∧ ∀ r ∈ rhss, ∀ x ∈ r, g.Declares x := by
  unfold lhsDefect?
  split
  · rename_i hA
    simp only [List.findSome?_eq_none_iff, Option.map_eq_none_iff, List.find?_eq_none]
    simp [hA]
  · rename_i hA
    simp [hA]

theorem defect?_eq_none_iff :
    g.defect? = none ↔ (g.start.isNonterminal = true ∧ g.start ∈ g.nonterminals) ∧
      g.declaredTwice = [] ∧ ∀ e ∈ g.table.entries, g.lhsDefect? e.1 e.2 = none := by
  unfold defect?
  split
  · rename_i hstart
    simp only [Bool.not_eq_true', Bool.and_eq_false_iff] at hstart
    constructor
    · intro none
      cases none
    · rintro ⟨⟨hkind, hmem⟩, _⟩
      rcases hstart with h | h
      · rw [hkind] at h
        cases h
      · rw [Std.ExtTreeSet.contains_iff_mem.2 hmem] at h
        cases h
  · rename_i hstart
    simp only [Bool.not_eq_true', Bool.not_eq_false, Bool.and_eq_true,
      Std.ExtTreeSet.contains_iff_mem] at hstart
    split
    · rename_i htwice
      constructor
      · intro none
        cases none
      · rintro ⟨_, hnil, _⟩
        rw [hnil] at htwice
        cases htwice
    · rename_i htwice
      have hnil : g.declaredTwice = [] := by simpa using htwice
      simp [hstart, hnil, List.findSome?_eq_none_iff]

/-- The lists that the entries of the table hold are those of the grammar, which gives the empty list
    to a symbol without an entry. -/
theorem forall_rhss_iff {P : Symbol → List Rhs → Prop} (nil : ∀ A, P A []) :
    (∀ e ∈ g.table.entries, P e.1 e.2) ↔ ∀ A, P A (g.rhss A) := by
  constructor
  · intro all A
    by_cases hA : A ∈ g.table.keys
    · exact all (A, g.rhss A) (mem_entries_of_mem_keys hA)
    · rw [rhss_eq_nil_of_not_mem_keys hA]
      exact nil A
  · intro all e he
    rw [← rhss_eq_of_mem_entries he]
    exact all e.1

theorem forall_entries_iff {P : Symbol → Rhs → Prop} :
    (∀ e ∈ g.table.entries, ∀ r ∈ e.2, P e.1 r) ↔ ∀ A r, r ∈ g.rhss A → P A r :=
  forall_rhss_iff (P := fun A rs => ∀ r ∈ rs, P A r) fun _ => List.forall_mem_nil _

/-- A grammar is valid if and only if it is well formed. -/
theorem valid_iff_wellFormed : g.Valid ↔ g.WellFormed := by
  have entries : (∀ e ∈ g.table.entries, g.lhsDefect? e.1 e.2 = none) ↔
      (∀ A ∈ g.table.keys, A ∈ g.nonterminals) ∧
        ∀ A r, r ∈ g.rhss A → ∀ x ∈ r, g.Declares x := by
    rw [← forall_entries_iff (P := fun _ r => ∀ x ∈ r, g.Declares x)]
    simp only [lhsDefect?_eq_none_iff, forall_and, Table.keys, List.forall_mem_map]
  constructor
  · intro hg
    obtain ⟨⟨_, hstart⟩, hnames, hentries⟩ :=
      defect?_eq_none_iff.1 (check_eq_ok_iff.1 hg.check_eq_ok)
    obtain ⟨hlhs, hrhs⟩ := entries.1 hentries
    exact ⟨hstart, hg.isNonterminal_of_mem, hg.isTerminal_of_mem,
      declaredTwice_eq_nil_iff.1 hnames, hlhs, hrhs⟩
  · intro hg
    refine ⟨check_eq_ok_iff.2 (defect?_eq_none_iff.2 ⟨⟨?_, hg.start_mem⟩, ?_, ?_⟩),
      hg.isNonterminal_of_mem, hg.isTerminal_of_mem⟩
    · exact hg.isNonterminal_of_mem g.start hg.start_mem
    · exact declaredTwice_eq_nil_iff.2 hg.name_ne
    · exact entries.2 ⟨hg.lhs_mem, hg.declares⟩

theorem Valid.wellFormed (hg : g.Valid) : g.WellFormed := valid_iff_wellFormed.1 hg

namespace WellFormed

/-! ### Parts of a grammar -/

theorem lhs_mem_of_mem_rhss (hg : g.WellFormed) {A : Symbol} {r : Rhs} (hr : r ∈ g.rhss A) :
    A ∈ g.nonterminals := hg.lhs_mem A (mem_keys_of_mem_rhss hr)

/-- Fewer declared symbols are well formed if they still hold what is mentioned. -/
theorem restrict (hg : g.WellFormed) (nonterminals : ∀ x ∈ h.nonterminals, x ∈ g.nonterminals)
    (terminals : ∀ a ∈ h.terminals, a ∈ g.terminals) (start_mem : h.start ∈ h.nonterminals)
    (lhs_mem : ∀ A ∈ h.table.keys, A ∈ h.nonterminals)
    (declares : ∀ A r, r ∈ h.rhss A → ∀ x ∈ r, h.Declares x) : h.WellFormed where
  start_mem := start_mem
  isNonterminal_of_mem x hx := hg.isNonterminal_of_mem x (nonterminals x hx)
  isTerminal_of_mem a ha := hg.isTerminal_of_mem a (terminals a ha)
  name_ne x hx a ha := hg.name_ne x (nonterminals x hx) a (terminals a ha)
  lhs_mem := lhs_mem
  declares := declares

/-- The only grammar that declares no symbol but its start symbol and has no rule for it. -/
theorem eq_ofSymbols (hg : g.WellFormed) (only : ∀ x, g.Declares x → x = g.start)
    (none : g.start ∉ g.table.keys) : g = ofSymbols g.start ∅ ∅ := by
  refine eq_of_parts_eq rfl ?_ ?_ ?_
  · apply Std.ExtTreeSet.ext_mem
    intro x
    have single : x ∈ (ofSymbols g.start ∅ ∅).nonterminals ↔ x = g.start :=
      SymbolSet.mem_singleton
    rw [single]
    constructor
    · exact fun hx => only x (Or.inl hx)
    · rintro rfl
      exact hg.start_mem
  · apply Std.ExtTreeSet.ext_mem
    intro a
    refine iff_of_false ?_ Std.ExtTreeSet.not_mem_empty
    intro ha
    have kind := hg.isTerminal_of_mem a ha
    rw [only a (Or.inr ha)] at kind
    exact Symbol.not_isTerminal (hg.isNonterminal_of_mem g.start hg.start_mem) kind
  · apply Table.eq_of_entries_eq
    apply List.eq_nil_iff_forall_not_mem.2
    intro e he
    have key : e.1 ∈ g.table.keys := List.mem_map_of_mem he
    rw [only e.1 (Or.inl (hg.lhs_mem e.1 key))] at key
    exact none key

end WellFormed

end ContextFree.Grammar
