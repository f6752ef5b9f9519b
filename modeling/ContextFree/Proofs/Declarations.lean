/-
  ContextFree/Proofs/Declarations.lean
  ====================================
  **Every stage is a valid grammar**, made of symbols of the given one until the
  conversion adds non-terminals with new names (`checkedStages_keep_valid`).

  The first four stages declare what they were given or less, and mention what they
  declare (`DrawnFrom`).  The conversion declares more: a preterminal or a link has
  a name that the supply did not have in use.  The supply starts with all names of
  the given grammar, so a new name is also different from those of the symbols that
  a stage has dropped.
-/
import ContextFree.Proofs.NewSymbols
import ContextFree.Proofs.Stages

namespace ContextFree.Grammar

variable {g h : Grammar} {f : NameSupply}

/-- A well-formed grammar with the start symbol of `g`, made of symbols of `g`, in which no
    right-hand side is repeated. -/
structure DrawnFrom (g h : Grammar) : Prop where
  wellFormed : h.WellFormed
  start_eq : h.start = g.start
  declares : ∀ x, h.Declares x → g.Declares x
  nodup_rhss : ∀ A, (h.rhss A).Nodup

/-! ### The eliminations -/

theorem nodup_rhss_withoutEpsilon (A : Symbol) : (g.withoutEpsilon.rhss A).Nodup := by
  rw [rhss_withoutEpsilon]
  exact Distinct.nodup_ofList _

theorem nodup_rhss_withoutUnits (A : Symbol) : (g.withoutUnits.rhss A).Nodup := by
  rw [rhss_withoutUnits]
  exact Distinct.nodup_ofList _

theorem mem_nonterminals_withTable {t : Table Symbol (List Rhs)} {x : Symbol} :
    x ∈ (g.withTable t).nonterminals ↔
      (x = g.start ∨ x ∈ g.nonterminals) ∨ (g.withTable t).rhss x ≠ [] := by
  have entries : (g.withTable t).table.entries = t.entries := rfl
  have some : x ∈ (t.entries.filter fun e => !e.2.isEmpty).map Prod.fst ↔
      (g.withTable t).rhss x ≠ [] := by
    simp only [List.mem_map, List.mem_filter, Bool.not_eq_true', List.isEmpty_eq_false_iff]
    constructor
    · rintro ⟨e, ⟨he, hne⟩, rfl⟩
      rw [← entries] at he
      rwa [rhss_eq_of_mem_entries he]
    · intro hne
      exact ⟨_, ⟨mem_entries_of_mem_keys (mem_keys_of_rhss_ne_nil hne), hne⟩, rfl⟩
  rw [← some]
  simp only [withTable, SymbolSet.mem_insertMany, SymbolSet.mem_insert]

/-- A new table for the same left-hand sides, with right-hand sides of the same symbols. -/
theorem WellFormed.withTable (hg : g.WellFormed) {t : Table Symbol (List Rhs)}
    (keys : ∀ A ∈ t.keys, A ∈ g.nonterminals)
    (declares : ∀ A r, r ∈ (g.withTable t).rhss A → ∀ x ∈ r, g.Declares x) :
    (g.withTable t).WellFormed ∧ ∀ x, (g.withTable t).Declares x ↔ g.Declares x := by
  have nonterminals : ∀ x, x ∈ (g.withTable t).nonterminals ↔ x ∈ g.nonterminals := by
    intro x
    refine mem_nonterminals_withTable.trans ⟨?_, fun hx => Or.inl (Or.inr hx)⟩
    rintro ((rfl | hx) | some)
    · exact hg.start_mem
    · exact hx
    · exact keys x (mem_keys_of_rhss_ne_nil some)
  have same : ∀ x, (g.withTable t).Declares x ↔ g.Declares x :=
    fun x => or_congr_left (nonterminals x)
  refine ⟨?_, same⟩
  refine hg.restrict (fun x => (nonterminals x).1) (fun a ha => ha) ?_ ?_ ?_
  · exact (nonterminals g.start).2 hg.start_mem
  · exact fun A hA => (nonterminals A).2 (keys A hA)
  · exact fun A r hr x hx => (same x).2 (declares A r hr x hx)

theorem WellFormed.drawnFrom_withoutEpsilon (hg : g.WellFormed) :
    g.DrawnFrom g.withoutEpsilon := by
  have keys : ∀ A ∈ (g.table.mapValues (g.epsilonFreeRhss g.nullable)).keys,
      A ∈ g.nonterminals := by
    intro A hA
    rw [Table.keys_mapValues] at hA
    exact hg.lhs_mem A hA
  have declares : ∀ A r, r ∈ g.withoutEpsilon.rhss A → ∀ x ∈ r, g.Declares x := by
    intro A r hr x hx
    obtain ⟨⟨s, hs, hchoice⟩, _⟩ := mem_rhss_withoutEpsilon.1 hr
    exact hg.declares A s hs x (Rhs.subset_of_mem_choices hchoice x hx)
  obtain ⟨wellFormed, same⟩ := hg.withTable keys declares
  exact ⟨wellFormed, rfl, fun x hx => (same x).1 hx, nodup_rhss_withoutEpsilon⟩

theorem DrawnFrom.withoutUnits (drawn : g.DrawnFrom h) : g.DrawnFrom h.withoutUnits := by
  have keys : ∀ A ∈ (h.table.sortKeys.mapValues fun A _ => h.unitFreeRhss A).keys,
      A ∈ h.nonterminals := by
    intro A hA
    rw [Table.keys_mapValues] at hA
    exact drawn.wellFormed.lhs_mem A (h.table.perm_keys_sortKeys.mem_iff.1 hA)
  have declares : ∀ A r, r ∈ h.withoutUnits.rhss A → ∀ x ∈ r, h.Declares x := by
    intro A r hr x hx
    obtain ⟨⟨B, _, hB⟩, _⟩ := mem_rhss_withoutUnits.1 hr
    exact drawn.wellFormed.declares B r hB x hx
  obtain ⟨wellFormed, same⟩ := drawn.wellFormed.withTable keys declares
  exact ⟨wellFormed, drawn.start_eq, fun x hx => drawn.declares x ((same x).1 hx),
    nodup_rhss_withoutUnits⟩

/-! ### The clean-ups -/

theorem nodup_rhss_onlyReachable {A : Symbol} (hg : (g.rhss A).Nodup) :
    (g.onlyReachable.rhss A).Nodup := by
  rw [rhss_onlyReachable]
  split
  · exact hg
  · exact List.nodup_nil

theorem nodup_rhss_onlyGenerating {A : Symbol} (hg : (g.rhss A).Nodup) :
    (g.onlyGenerating.rhss A).Nodup := by
  rw [rhss_onlyGenerating]
  split
  · exact hg.filter _
  · exact List.nodup_nil

theorem mem_keys_onlyGenerating {A : Symbol} :
    A ∈ g.onlyGenerating.table.keys ↔ A ∈ g.table.keys ∧ A ∈ g.generating := by
  unfold onlyGenerating
  rw [Table.keys_mapValues, Table.mem_keys_filterKeys, Std.ExtTreeSet.contains_iff_mem]

theorem mem_nonterminals_onlyGenerating {x : Symbol} : x ∈ g.onlyGenerating.nonterminals ↔
    x = g.start ∨ x ∈ g.nonterminals ∧ x ∈ g.generating := by
  simp only [onlyGenerating, ofSymbols, SymbolSet.mem_insert, SymbolSet.mem_select,
    Std.ExtTreeSet.contains_iff_mem]

namespace WellFormed

variable (hg : g.WellFormed)
include hg

theorem nonterminalLhss : g.NonterminalLhss :=
  fun A _ hr => hg.isNonterminal_of_mem A (hg.lhs_mem_of_mem_rhss hr)

theorem mem_nonterminals_onlyReachable {x : Symbol} :
    x ∈ g.onlyReachable.nonterminals ↔ x ∈ g.nonterminals ∧ x ∈ g.reachable := by
  simp only [Grammar.onlyReachable, ofSymbols, SymbolSet.mem_insert, SymbolSet.mem_select,
    Std.ExtTreeSet.contains_iff_mem]
  refine ⟨?_, Or.inr⟩
  rintro (rfl | hx)
  · exact ⟨hg.start_mem, start_mem_reachable g⟩
  · exact hx

theorem declares_onlyReachable {x : Symbol} :
    g.onlyReachable.Declares x ↔ g.Declares x ∧ x ∈ g.reachable := by
  have terminals : x ∈ g.onlyReachable.terminals ↔ x ∈ g.terminals ∧ x ∈ g.reachable := by
    simp only [Grammar.onlyReachable, ofSymbols, SymbolSet.mem_select,
      Std.ExtTreeSet.contains_iff_mem]
  unfold Declares
  rw [hg.mem_nonterminals_onlyReachable, terminals, or_and_right]

theorem onlyReachable : g.onlyReachable.WellFormed := by
  refine hg.restrict (fun x hx => (hg.mem_nonterminals_onlyReachable.1 hx).1) ?_ ?_ ?_ ?_
  · exact fun a ha => (SymbolSet.mem_select.1 ha).1
  · exact hg.mem_nonterminals_onlyReachable.2 ⟨hg.start_mem, start_mem_reachable g⟩
  · intro A hA
    obtain ⟨hA, hreach⟩ := Table.mem_keys_filterKeys.1 hA
    exact hg.mem_nonterminals_onlyReachable.2
      ⟨hg.lhs_mem A hA, Std.ExtTreeSet.contains_iff_mem.1 hreach⟩
  · intro A r hr x hx
    obtain ⟨hA, hr⟩ := mem_rhss_onlyReachable.1 hr
    -- What a reachable left-hand side mentions is reachable as well.
    have reach := mem_reachable_of_mem_rhs hA (hg.nonterminalLhss A r hr) hr hx
    exact hg.declares_onlyReachable.2 ⟨hg.declares A r hr x hx, reach⟩

theorem nonterminals_onlyGenerating_subset :
    ∀ x ∈ g.onlyGenerating.nonterminals, x ∈ g.nonterminals := by
  intro x hx
  rcases mem_nonterminals_onlyGenerating.1 hx with rfl | hx
  · exact hg.start_mem
  · exact hx.1

theorem onlyGenerating : g.onlyGenerating.WellFormed := by
  refine hg.restrict hg.nonterminals_onlyGenerating_subset (fun a ha => ha) ?_ ?_ ?_
  · exact mem_nonterminals_onlyGenerating.2 (Or.inl rfl)
  · intro A hA
    obtain ⟨hA, hgen⟩ := mem_keys_onlyGenerating.1 hA
    exact mem_nonterminals_onlyGenerating.2 (Or.inr ⟨hg.lhs_mem A hA, hgen⟩)
  · intro A r hr x hx
    obtain ⟨hr, hcomp⟩ := mem_rhss_onlyGenerating.1 hr
    rcases hg.declares A r hr x hx with hnt | hterm
    · -- A non-terminal of a rule that stays derives a word.
      have hsup := supported_iff.1 (supported_generating_iff.2 hcomp) x hx
      have hgen := hsup.resolve_left (Symbol.not_isTerminal (hg.isNonterminal_of_mem x hnt))
      exact Or.inl (mem_nonterminals_onlyGenerating.2 (Or.inr ⟨hnt, hgen⟩))
    · exact Or.inr hterm

end WellFormed

namespace DrawnFrom

theorem onlyReachable (drawn : g.DrawnFrom h) : g.DrawnFrom h.onlyReachable where
  wellFormed := drawn.wellFormed.onlyReachable
  start_eq := drawn.start_eq
  declares x hx := drawn.declares x (drawn.wellFormed.declares_onlyReachable.1 hx).1
  nodup_rhss A := nodup_rhss_onlyReachable (drawn.nodup_rhss A)

theorem onlyGenerating (drawn : g.DrawnFrom h) : g.DrawnFrom h.onlyGenerating where
  wellFormed := drawn.wellFormed.onlyGenerating
  start_eq := drawn.start_eq
  declares x hx :=
    drawn.declares x (hx.imp (drawn.wellFormed.nonterminals_onlyGenerating_subset x) id)
  nodup_rhss A := nodup_rhss_onlyGenerating (drawn.nodup_rhss A)

end DrawnFrom

/-! ### The conversion -/

theorem nodup_rhss_toChomsky (g : Grammar) (f : NameSupply) (A : Symbol) :
    ((g.toChomsky f).1.rhss A).Nodup := by
  rw [toChomsky_eq_addRules]
  apply nodup_rhss_addRules
  exact List.nodup_nil

namespace DrawnFrom

/-- A supply that starts with the names of `g` has those of the terminals of `h` in use. -/
theorem name_mem_used (drawn : g.DrawnFrom h) :
    ∀ a ∈ h.terminals, a.name ∈ (NameSupply.ofUsed g.declaredNames).used :=
  fun a ha => name_mem_declaredNames (drawn.declares a (Or.inr ha))

theorem name_ne_of_toChomsky (drawn : g.DrawnFrom h) {x : Symbol}
    (hx : (h.toChomsky (.ofUsed g.declaredNames)).1.Declares x) (hnew : ¬ h.Declares x) :
    x.isNonterminal = true ∧ ∀ y, g.Declares y → y.name ≠ x.name := by
  have fresh := drawn.wellFormed.not_mem_known_of_toChomsky drawn.name_mem_used hx hnew
  obtain ⟨hnt, hname⟩ := NameSupply.not_mem_known_iff.1 fresh
  exact ⟨hnt, fun y hy heq => hname (heq ▸ name_mem_declaredNames hy)⟩

end DrawnFrom

/-! ### All five stages -/

theorem Valid.drawnFrom_stages (hg : g.Valid) :
    g.DrawnFrom g.stages.epsilonFree ∧ g.DrawnFrom g.stages.unitFree ∧
      g.DrawnFrom g.stages.reachable ∧ g.DrawnFrom g.stages.generating := by
  have first : g.DrawnFrom g.stages.epsilonFree := by
    rw [stages_epsilonFree]
    exact hg.wellFormed.drawnFrom_withoutEpsilon
  have second : g.DrawnFrom g.stages.unitFree := by
    rw [stages_unitFree]
    exact first.withoutUnits
  have third : g.DrawnFrom g.stages.reachable := by
    rw [stages_reachable]
    exact second.onlyReachable
  have fourth : g.DrawnFrom g.stages.generating := by
    rw [stages_generating]
    exact third.onlyGenerating
  exact ⟨first, second, third, fourth⟩

theorem Valid.wellFormed_stages_chomsky (hg : g.Valid) : g.stages.chomsky.WellFormed := by
  obtain ⟨_, _, _, fourth⟩ := hg.drawnFrom_stages
  rw [stages_chomsky]
  exact fourth.wellFormed.toChomsky fourth.name_mem_used

/-- Each of the five grammars is valid, has the start symbol of the given one and repeats no
    right-hand side.  The first four declare symbols of the given grammar.  What the last one
    declares and the fourth does not is a non-terminal, and no symbol of the given grammar has its
    name. -/
theorem checkedStages_keep_valid (hg : g.Valid) :
    ∃ s, g.checkedStages = .ok s ∧
      (∀ h ∈ s.toList, h.Valid ∧ h.start = g.start ∧ ∀ A, (h.rhss A).Nodup) ∧
      (∀ h ∈ s.toList.dropLast, ∀ x, h.Declares x → g.Declares x) ∧
      ∀ x, s.chomsky.Declares x → ¬ s.generating.Declares x →
        x.isNonterminal = true ∧ ∀ y, g.Declares y → y.name ≠ x.name := by
  obtain ⟨first, second, third, fourth⟩ := hg.drawnFrom_stages
  have valid : ∀ h, g.DrawnFrom h →
      h.Valid ∧ h.start = g.start ∧ ∀ A, (h.rhss A).Nodup := fun h drawn =>
    ⟨valid_iff_wellFormed.2 drawn.wellFormed, drawn.start_eq, drawn.nodup_rhss⟩
  have last : g.stages.chomsky.Valid ∧ g.stages.chomsky.start = g.start ∧
      ∀ A, (g.stages.chomsky.rhss A).Nodup := by
    refine ⟨valid_iff_wellFormed.2 hg.wellFormed_stages_chomsky, ?_, fun A => ?_⟩
    · rw [stages_chomsky, start_toChomsky, fourth.start_eq]
    · rw [stages_chomsky]
      exact nodup_rhss_toChomsky _ _ A
  refine ⟨g.stages, hg.checkedStages_eq, ?_, ?_, ?_⟩
  · unfold Stages.toList
    simp only [List.forall_mem_cons]
    exact ⟨valid _ first, valid _ second, valid _ third, valid _ fourth, last,
      List.forall_mem_nil _⟩
  · unfold Stages.toList
    simp only [List.dropLast, List.forall_mem_cons]
    exact ⟨first.declares, second.declares, third.declares, fourth.declares,
      List.forall_mem_nil _⟩
  · intro x hx hnew
    rw [stages_chomsky] at hx
    exact fourth.name_ne_of_toChomsky hx hnew

/-- `S -> a S b | a b | X1 S`, `X1 -> X1 S`, `T_a -> b`: the names `X1` and `T_a` are taken by
    symbols that the clean-ups drop. -/
def crowded : Grammar :=
  (ofSymbols (.nonterminal "S") ∅
    (.ofList [Symbol.terminal "a", Symbol.terminal "b"])).addRules
    [⟨.nonterminal "S", [.terminal "a", .nonterminal "S", .terminal "b"]⟩,
      ⟨.nonterminal "S", [.terminal "a", .terminal "b"]⟩,
      ⟨.nonterminal "S", [.nonterminal "X1", .nonterminal "S"]⟩,
      ⟨.nonterminal "X1", [.nonterminal "X1", .nonterminal "S"]⟩,
      ⟨.nonterminal "T_a", [.terminal "b"]⟩]

theorem valid_crowded : crowded.Valid := by decide

theorem checkedStages_keep_valid_crowded :
    crowded.Valid ∧ ∃ s, crowded.checkedStages = .ok s ∧
      (∀ h ∈ s.toList, h.Valid ∧ h.start = .nonterminal "S" ∧ ∀ A, (h.rhss A).Nodup) ∧
      (∀ h ∈ s.toList.dropLast, ∀ x, h.Declares x → crowded.Declares x) ∧
      ∀ x, s.chomsky.Declares x → ¬ s.generating.Declares x →
        x.isNonterminal = true ∧ ∀ y, crowded.Declares y → y.name ≠ x.name :=
  ⟨valid_crowded, checkedStages_keep_valid valid_crowded⟩

example : crowded.stages.names.allocated = ["T_a1", "T_b", "X2"] := by decide

end ContextFree.Grammar
