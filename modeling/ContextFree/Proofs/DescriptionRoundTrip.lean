/-
  ContextFree/Proofs/DescriptionRoundTrip.lean
  ============================================
  **The plain data of a grammar give it back.**

  The data name symbols without their kinds.  No name of a valid grammar is declared
  as both kinds, so a reader finds the kinds again (`WellFormed.symbol_outline`), and
  it drops no right-hand side of a grammar that repeats none.  The left-hand sides
  come back in the order of their names, so the grammar read is the same up to this
  order (`WellFormed.same_grammar_outline`).

  Data that are read and written once do not change any more
  (`ofDescription_roundTrip`).
-/
import ContextFree.Proofs.Descriptions
import ContextFree.Proofs.KeyOrder

namespace ContextFree

theorem Table.get?_ofList_of_perm {κ β : Type} [DecidableEq κ] {es : List (κ × β)} {t : Table κ β}
    (h : es.Perm t.entries) (k : κ) : (ofList es).get? k = t.get? k := by
  have nodup : (es.map Prod.fst).Nodup := (h.map Prod.fst).nodup_iff.2 t.nodup_keys
  exact get?_eq_of_perm (by rwa [entries_ofList nodup]) k

theorem SymbolSet.mem_sortedNames {s : SymbolSet} {name : String} :
    name ∈ s.sortedNames ↔ ∃ x ∈ s, x.name = name := by
  simp [sortedNames, sortNames]

section Made

/-! Sets whose symbols are made from their names. -/

variable {s : SymbolSet} {make : String → Symbol} (own : ∀ x ∈ s, make x.name = x)
include own

theorem SymbolSet.exists_name_iff {x : Symbol} :
    (∃ name, make name ∈ s ∧ x = make name) ↔ x ∈ s := by
  constructor
  · rintro ⟨name, hname, rfl⟩
    exact hname
  · intro hx
    exact ⟨x.name, by rwa [own x hx], (own x hx).symm⟩

theorem SymbolSet.mem_sortedNames_iff_make (hname : ∀ name, (make name).name = name)
    {name : String} : name ∈ s.sortedNames ↔ make name ∈ s := by
  refine SymbolSet.mem_sortedNames.trans ⟨?_, fun h => ⟨_, h, hname name⟩⟩
  rintro ⟨x, hx, rfl⟩
  rwa [own x hx]

end Made

namespace Grammar

variable {g h : Grammar}

/-- What the plain data of a grammar say. -/
def outline (g : Grammar) : Outline where
  start := g.start.name
  nonterminals := g.nonterminals.sortedNames
  terminals := g.terminals.sortedNames
  productions := g.lhssByName.map fun A => (A.name, (g.rhss A).map fun r => r.map Symbol.name)

/-- The left-hand sides by name, with their right-hand sides, are the entries in another order. -/
theorem perm_entries_lhssByName (g : Grammar) :
    (g.lhssByName.map fun A => (A, g.rhss A)).Perm g.table.entries := by
  have own : (g.table.keys.map fun A => (A, g.rhss A)) = g.table.entries := by
    unfold Table.keys
    rw [List.map_map]
    refine (List.map_congr_left ?_).trans g.table.entries.map_id
    intro e he
    simp [rhss_eq_of_mem_entries he]
  rw [← own]
  exact (perm_sortBy Symbol.name g.table.keys).map _

theorem declares_outline {x : Symbol} (hx : g.Declares x) : g.outline.Declares x.name :=
  hx.imp (fun h => SymbolSet.mem_sortedNames.2 ⟨x, h, rfl⟩)
    fun h => SymbolSet.mem_sortedNames.2 ⟨x, h, rfl⟩

namespace WellFormed

variable (hg : g.WellFormed)
include hg

/-! ### Kinds from names -/

theorem mem_nonterminals_outline {name : String} :
    name ∈ g.outline.nonterminals ↔ .nonterminal name ∈ g.nonterminals :=
  SymbolSet.mem_sortedNames_iff_make
    (fun x hx => Symbol.nonterminal_name (hg.isNonterminal_of_mem x hx)) Symbol.name_nonterminal

theorem mem_terminals_outline {name : String} :
    name ∈ g.outline.terminals ↔ .terminal name ∈ g.terminals :=
  SymbolSet.mem_sortedNames_iff_make
    (fun x hx => Symbol.terminal_name (hg.isTerminal_of_mem x hx)) Symbol.name_terminal

/-- The name of a declared symbol is resolved to it. -/
theorem symbol_outline {x : Symbol} (hx : g.Declares x) : g.outline.symbol x.name = x := by
  unfold Outline.symbol
  rcases hx with hx | hx
  · have name := Symbol.nonterminal_name (hg.isNonterminal_of_mem x hx)
    rw [if_pos (hg.mem_nonterminals_outline.2 (by rwa [name])), name]
  · have other : x.name ∉ g.outline.nonterminals := fun h =>
      hg.name_ne _ (hg.mem_nonterminals_outline.1 h) x hx (Symbol.name_nonterminal x.name)
    rw [if_neg other, Symbol.terminal_name (hg.isTerminal_of_mem x hx)]

/-! ### What is written -/

theorem isNonterminal_of_mem_keys : ∀ A ∈ g.table.keys, A.isNonterminal = true :=
  fun A hA => hg.isNonterminal_of_mem A (hg.lhs_mem A hA)

/-- Left-hand sides have different names, so each of them has its member. -/
theorem productionMembers_eq : g.productionMembers = g.lhssByName.map fun A =>
    (A.name, Json.array ((g.rhss A).map fun r => .ofNames (r.map Symbol.name))) := by
  refine Table.entries_ofList ?_
  rw [List.map_map]
  refine List.Nodup.map_on ?_ g.nodup_lhssByName
  intro A hA B hB
  exact Symbol.eq_of_name_eq (hg.isNonterminal_of_mem_keys A (mem_sortBy.1 hA))
    (hg.isNonterminal_of_mem_keys B (mem_sortBy.1 hB))

omit hg in
theorem listsRhss_rhss (A : Symbol) :
    (Json.array ((g.rhss A).map fun r => .ofNames (r.map Symbol.name))).ListsRhss
      ((g.rhss A).map fun r => r.map Symbol.name) := by
  refine .array ?_
  rw [List.forall₂_map_left_iff, List.forall₂_map_right_iff, List.forall₂_same]
  exact fun r _ => .array (r.map Symbol.name)

theorem describes_outline : g.description.Describes g.outline where
  start := rfl
  nonterminals := ⟨_, rfl, .array _⟩
  terminals := ⟨_, rfl, .array _⟩
  productions := by
    refine Or.inr ⟨g.productionMembers, rfl, ?_⟩
    unfold outline
    rw [hg.productionMembers_eq, List.forall₂_map_left_iff, List.forall₂_map_right_iff,
      List.forall₂_same]
    exact fun A _ => ⟨rfl, listsRhss_rhss A⟩

theorem wellFormed_outline : g.outline.WellFormed where
  disjoint name hn ht :=
    hg.name_ne _ (hg.mem_nonterminals_outline.1 hn) _ (hg.mem_terminals_outline.1 ht) rfl
  start_mem := SymbolSet.mem_sortedNames.2 ⟨g.start, hg.start_mem, rfl⟩
  lhs_mem p hp := by
    obtain ⟨A, hA, rfl⟩ := List.mem_map.1 hp
    exact SymbolSet.mem_sortedNames.2 ⟨A, hg.lhs_mem A (mem_sortBy.1 hA), rfl⟩
  declares p hp r hr name hname := by
    obtain ⟨A, _, rfl⟩ := List.mem_map.1 hp
    obtain ⟨s, hs, rfl⟩ := List.mem_map.1 hr
    obtain ⟨x, hx, rfl⟩ := List.mem_map.1 hname
    exact declares_outline (hg.declares A s hs x hx)

/-! ### What is read again -/

theorem entry_outline (nodup : ∀ A, (g.rhss A).Nodup) {A : Symbol} (hA : A ∈ g.table.keys) :
    g.outline.entry (A.name, (g.rhss A).map fun r => r.map Symbol.name) = (A, g.rhss A) := by
  have resolved : ((g.rhss A).map fun r => r.map Symbol.name).map
      (fun names => names.map g.outline.symbol) = g.rhss A := by
    rw [List.map_map]
    refine (List.map_congr_left fun r hr => ?_).trans (g.rhss A).map_id
    refine (List.map_map ..).trans ((List.map_congr_left fun x hx => ?_).trans r.map_id)
    exact hg.symbol_outline (hg.declares A r hr x hx)
  unfold Outline.entry
  rw [resolved, Distinct.ofList_of_nodup (nodup A),
    Symbol.nonterminal_name (hg.isNonterminal_of_mem_keys A hA)]

theorem perm_entries_outline (nodup : ∀ A, (g.rhss A).Nodup) :
    (g.outline.productions.map g.outline.entry).Perm g.table.entries := by
  have entries : g.outline.productions.map g.outline.entry =
      g.lhssByName.map fun A => (A, g.rhss A) := by
    refine (List.map_map ..).trans (List.map_congr_left fun A hA => ?_)
    exact hg.entry_outline nodup (mem_sortBy.1 hA)
  rw [entries]
  exact g.perm_entries_lhssByName

theorem same_grammar_outline (nodup : ∀ A, (g.rhss A).Nodup) : g.outline.grammar.Same g := by
  refine ⟨?_, ?_, ?_, ?_⟩
  · exact Symbol.nonterminal_name (hg.isNonterminal_of_mem _ hg.start_mem)
  · apply Std.ExtTreeSet.ext_mem
    intro x
    rw [Outline.mem_nonterminals_grammar hg.wellFormed_outline]
    simp only [hg.mem_nonterminals_outline]
    exact SymbolSet.exists_name_iff fun y hy =>
      Symbol.nonterminal_name (hg.isNonterminal_of_mem y hy)
  · apply Std.ExtTreeSet.ext_mem
    intro x
    rw [Outline.mem_terminals_grammar]
    simp only [hg.mem_terminals_outline]
    exact SymbolSet.exists_name_iff fun y hy => Symbol.terminal_name (hg.isTerminal_of_mem y hy)
  · exact Table.get?_ofList_of_perm (hg.perm_entries_outline nodup)

end WellFormed

theorem Valid.exists_ofDescription_description (hg : g.Valid) (nodup : ∀ A, (g.rhss A).Nodup) :
    ∃ h, ofDescription g.description = .ok h ∧ h.Same g := by
  have wf := hg.wellFormed
  refine ⟨g.outline.grammar, ?_, wf.same_grammar_outline nodup⟩
  exact ofDescription_eq_ok_iff.2 ⟨g.outline, wf.describes_outline, wf.wellFormed_outline, rfl⟩

/-! ### Grammars from data -/

theorem valid_ofDescription {v : Json} (h : ofDescription v = .ok g) : g.Valid := by
  obtain ⟨o, _, ho, rfl⟩ := ofDescription_eq_ok_iff.1 h
  exact valid_iff_wellFormed.2 (Outline.wellFormed_grammar ho)

theorem nodup_rhss_ofDescription {v : Json} (h : ofDescription v = .ok g) (A : Symbol) :
    (g.rhss A).Nodup := by
  obtain ⟨o, _, _, rfl⟩ := ofDescription_eq_ok_iff.1 h
  refine (forall_rhss_iff (P := fun _ rs => rs.Nodup) fun _ => List.nodup_nil).1 ?_ A
  intro e he
  obtain ⟨p, _, rfl⟩ := List.mem_map.1 (Table.mem_of_mem_entries_ofList he)
  exact Distinct.nodup_ofList _

/-- The plain data of a valid grammar that repeats no right-hand side are read as the same grammar.
    So the data of a grammar that has been read from a description are a canonical form of it: they
    are read as the same grammar, whose data they are. -/
theorem ofDescription_roundTrip :
    (∀ g : Grammar, g.Valid → (∀ A, (g.rhss A).Nodup) →
        ∃ h, ofDescription g.description = .ok h ∧ h.Same g) ∧
      ∀ (v : Json) (g : Grammar), ofDescription v = .ok g →
        ∃ h, ofDescription g.description = .ok h ∧ h.Same g ∧ h.description = g.description := by
  refine ⟨fun g hg nodup => hg.exists_ofDescription_description nodup, ?_⟩
  intro v g hv
  have hg := valid_ofDescription hv
  obtain ⟨h, hh, same⟩ := hg.exists_ofDescription_description (nodup_rhss_ofDescription hv)
  refine ⟨h, hh, same, ?_⟩
  exact same.description_eq (valid_ofDescription hh).wellFormed.isNonterminal_of_mem_keys

/-- A grammar with an empty name, a name that holds a space, and a left-hand side without a rule. -/
def nameless : Grammar :=
  ((ofSymbols (.nonterminal "") ∅ (.ofList [Symbol.terminal "a b"])).addRules
    [⟨.nonterminal "", [.terminal "a b", .nonterminal ""]⟩, ⟨.nonterminal "", []⟩,
      ⟨.nonterminal "A", []⟩]).setRhss (.nonterminal "A") []

theorem nodup_rhss_nameless (A : Symbol) : (nameless.rhss A).Nodup := by
  unfold nameless
  rw [rhss_setRhss]
  split
  · exact List.nodup_nil
  · apply nodup_rhss_addRules
    exact List.nodup_nil

theorem ofDescription_roundTrip_nameless :
    nameless.Valid ∧ (∃ h, ofDescription nameless.description = .ok h ∧ h.Same nameless) ∧
      ∃ g, ofDescription mixedDescription = .ok g ∧
        ∃ h, ofDescription g.description = .ok h ∧ h.Same g ∧ h.description = g.description := by
  have valid : nameless.Valid := by decide
  refine ⟨valid, ofDescription_roundTrip.1 nameless valid nodup_rhss_nameless, _, rfl, ?_⟩
  exact ofDescription_roundTrip.2 mixedDescription _ rfl

end Grammar

end ContextFree
