/-
  ContextFree/Proofs/Idempotence.lean
  ===================================
  **A stage that is run twice** does nothing the second time
  (`firstStages_idempotent`).

  Each stage decides by what an analysis finds in its input, and the second run
  analyses another grammar.  The reachable and the generating symbols are still the
  same there, and without unit rules every symbol reaches itself only, so these
  stages give back what they were given, in the same order.

  Fewer symbols are nullable in the second run of the elimination of empty right-hand
  sides, but the start symbol and what expands to it may still be.  Dropping them gives
  right-hand sides that are there already, perhaps in another place.
-/
import ContextFree.Proofs.AlternativeOrder
import ContextFree.Proofs.Usefulness

namespace ContextFree.Grammar

variable {g : Grammar}

/-! ### Tables -/

/-- Where the start symbol and the left-hand sides are declared, a new table is all that changes. -/
theorem withTable_eq {t : Table Symbol (List Rhs)} (start : g.start ∈ g.nonterminals)
    (lhs_mem : ∀ A, (g.withTable t).rhss A ≠ [] → A ∈ g.nonterminals) :
    g.withTable t = { g with table := t } := by
  refine eq_of_parts_eq rfl ?_ rfl rfl
  apply Std.ExtTreeSet.ext_mem
  intro x
  rw [mem_nonterminals_withTable]
  constructor
  · rintro ((rfl | hx) | some)
    · exact start
    · exact hx
    · exact lhs_mem x some
  · exact fun hx => Or.inl (Or.inr hx)

theorem start_mem_nonterminals_withTable (t : Table Symbol (List Rhs)) :
    (g.withTable t).start ∈ (g.withTable t).nonterminals :=
  mem_nonterminals_withTable.2 (Or.inl (Or.inl rfl))

theorem lhs_mem_withTable {t : Table Symbol (List Rhs)} {A : Symbol}
    (some : (g.withTable t).rhss A ≠ []) : A ∈ (g.withTable t).nonterminals :=
  mem_nonterminals_withTable.2 (Or.inr some)

/-- The left-hand sides of a table are declared once. -/
theorem withTable_withTable (t : Table Symbol (List Rhs)) :
    (g.withTable t).withTable t = g.withTable t :=
  withTable_eq (start_mem_nonterminals_withTable t) fun _ some => lhs_mem_withTable (g := g) some

theorem SameRules.refl (g : Grammar) : g.SameRules g :=
  ⟨rfl, rfl, rfl, fun _ => Iff.rfl, fun _ _ => Iff.rfl⟩

/-! ### Empty right-hand sides -/

theorem nullable_of_mem_nullable_withoutEpsilon {A : Symbol} (hA : A ∈ g.withoutEpsilon.nullable) :
    A ∈ g.nullable :=
  mem_nullable_iff.2 (expands_of_withoutEpsilon (mem_nullable_iff.1 hA))

theorem mem_rhss_withoutEpsilon_withoutEpsilon {A : Symbol} {r : Rhs} :
    r ∈ g.withoutEpsilon.withoutEpsilon.rhss A ↔ r ∈ g.withoutEpsilon.rhss A := by
  constructor
  · intro hr
    obtain ⟨⟨s, hs, hchoice⟩, kept⟩ := mem_rhss_withoutEpsilon.1 hr
    apply mem_rhss_withoutEpsilon_of_choice _ hs hchoice kept
    intro x hx
    exact nullable_of_mem_nullable_withoutEpsilon hx
  · intro hr
    -- The right-hand side is a choice of its own, and the empty one was the start symbol's before.
    exact mem_rhss_withoutEpsilon.2
      ⟨⟨r, hr, Rhs.mem_choices_self r⟩, (mem_rhss_withoutEpsilon.1 hr).2⟩

/-- A second run may only list right-hand sides in another order. -/
theorem sameRules_withoutEpsilon_withoutEpsilon (g : Grammar) :
    g.withoutEpsilon.withoutEpsilon.SameRules g.withoutEpsilon := by
  have declared : g.withoutEpsilon.withTable g.withoutEpsilon.table = g.withoutEpsilon :=
    withTable_withTable _
  have same : g.withoutEpsilon.withoutEpsilon.SameRules
      (g.withoutEpsilon.withTable g.withoutEpsilon.table) := by
    apply (SameRules.refl g.withoutEpsilon).withTable
    · intro A
      rw [Table.keys_mapValues]
    · intro A r
      rw [declared]
      exact mem_rhss_withoutEpsilon_withoutEpsilon
  rwa [declared] at same

/-! ### Unit rules -/

theorem UnitFree.unitReach_eq (hu : g.UnitFree) (A : Symbol) : g.unitReach A = [A] := by
  apply unitReach_of_unitTargets_eq_nil
  apply List.eq_nil_iff_forall_not_mem.2
  intro B hB
  obtain ⟨kind, rule⟩ := mem_unitTargets.1 hB
  have unit := isUnit_iff.2 ⟨B, kind, rfl⟩
  rw [hu A [B] rule] at unit
  cases unit

/-- Without unit rules, the right-hand sides of a symbol are its own. -/
theorem UnitFree.unitFreeRhss_eq (hu : g.UnitFree) (hε : g.EpsilonOnlyAtStart) {A : Symbol}
    (nodup : (g.rhss A).Nodup) : g.unitFreeRhss A = g.rhss A := by
  have kept : (g.rhss A).filter (fun r => !Rhs.isUnit r && (!r.isEmpty || decide (A = g.start))) =
      g.rhss A := by
    apply List.filter_eq_self.2
    intro r hr
    rw [hu A r hr]
    cases r with
    | nil => simp [hε A hr]
    | cons x r => rfl
  unfold unitFreeRhss
  rw [hu.unitReach_eq, List.flatMap_singleton, kept]
  exact Distinct.ofList_of_nodup nodup

/-- Without unit rules and with every left-hand side declared, the left-hand sides are put in
    order. -/
theorem UnitFree.withoutUnits_eq (hu : g.UnitFree) (hε : g.EpsilonOnlyAtStart)
    (start : g.start ∈ g.nonterminals) (lhs_mem : ∀ A, g.rhss A ≠ [] → A ∈ g.nonterminals)
    (nodup : ∀ A, (g.rhss A).Nodup) :
    g.withoutUnits = { g with table := g.table.sortKeys } := by
  have table : g.table.sortKeys.mapValues (fun A _ => g.unitFreeRhss A) = g.table.sortKeys := by
    apply Table.mapValues_eq_self
    intro e he
    rw [hu.unitFreeRhss_eq hε (nodup e.1)]
    exact rhss_eq_of_mem_entries (mem_sortBy.1 he)
  unfold withoutUnits
  rw [table]
  apply withTable_eq start
  intro A some
  have same : (g.withTable g.table.sortKeys).rhss A = g.rhss A :=
    congrArg (Option.getD · []) (g.table.get?_sortKeys A)
  rw [same] at some
  exact lhs_mem A some

theorem pairwise_keys_withoutUnits (g : Grammar) :
    g.withoutUnits.table.keys.Pairwise fun A B => A.name ≤ B.name := by
  have keys : g.withoutUnits.table.keys = g.table.sortKeys.keys := Table.keys_mapValues _ _
  rw [keys]
  exact g.table.pairwise_keys_sortKeys

theorem withoutUnits_withoutUnits (g : Grammar) : g.withoutUnits.withoutUnits = g.withoutUnits := by
  have unitFree : g.withoutUnits.UnitFree := unitFree_withoutUnits
  rw [unitFree.withoutUnits_eq epsilonOnlyAtStart_withoutUnits
    (start_mem_nonterminals_withTable _) (fun _ => lhs_mem_withTable) nodup_rhss_withoutUnits,
    Table.sortKeys_eq_self (pairwise_keys_withoutUnits g)]

/-! ### Unreachable symbols -/

theorem WellFormed.reachable_onlyReachable (hg : g.WellFormed) :
    g.onlyReachable.reachable = g.reachable := by
  apply Std.ExtTreeSet.ext_mem
  intro x
  rw [mem_reachable_iff hg.onlyReachable.nonterminalLhss, mem_reachable_iff hg.nonterminalLhss]
  unfold Reaches
  simp only [sentential_onlyReachable_iff hg.nonterminalLhss]

/-- If every declared symbol is reachable, none is deleted. -/
theorem WellFormed.onlyReachable_eq_self (hg : g.WellFormed)
    (all : ∀ x, g.Declares x → x ∈ g.reachable) : g.onlyReachable = g := by
  refine eq_of_parts_eq rfl ?_ ?_ ?_
  · apply Std.ExtTreeSet.ext_mem
    intro x
    rw [hg.mem_nonterminals_onlyReachable]
    exact and_iff_left_of_imp fun hx => all x (Or.inl hx)
  · apply Std.ExtTreeSet.ext_mem
    intro a
    refine SymbolSet.mem_select.trans (and_iff_left_of_imp ?_)
    intro ha
    exact Std.ExtTreeSet.contains_iff_mem.2 (all a (Or.inr ha))
  · apply Table.filterKeys_eq_self
    intro A hA
    exact Std.ExtTreeSet.contains_iff_mem.2 (all A (Or.inl (hg.lhs_mem A hA)))

theorem WellFormed.mem_reachable_of_declares_onlyReachable (hg : g.WellFormed) {x : Symbol}
    (hx : g.onlyReachable.Declares x) : x ∈ g.onlyReachable.reachable := by
  rw [hg.reachable_onlyReachable]
  exact (hg.declares_onlyReachable.1 hx).2

theorem WellFormed.onlyReachable_onlyReachable (hg : g.WellFormed) :
    g.onlyReachable.onlyReachable = g.onlyReachable := by
  apply hg.onlyReachable.onlyReachable_eq_self
  intro x hx
  exact hg.mem_reachable_of_declares_onlyReachable hx

/-! ### Symbols that derive no word -/

theorem generating_onlyGenerating (g : Grammar) : g.onlyGenerating.generating = g.generating := by
  apply Std.ExtTreeSet.ext_mem
  intro A
  rw [mem_generating_iff, mem_generating_iff]
  constructor
  · rintro ⟨r, hr, _⟩
    exact ⟨r, mem_rhss_onlyGenerating.1 hr⟩
  · rintro ⟨r, hr, complete⟩
    have left : r ∈ g.onlyGenerating.rhss A := mem_rhss_onlyGenerating.2 ⟨hr, complete⟩
    exact ⟨r, left, completableRhss_onlyGenerating g ⟨A, r⟩ left⟩

/-- If every left-hand side is generating and every right-hand side expands to a word, nothing is
    deleted. -/
theorem onlyGenerating_eq_self (start : g.start ∈ g.nonterminals)
    (nonterminals : ∀ A ∈ g.nonterminals, A = g.start ∨ A ∈ g.generating)
    (keys : ∀ A ∈ g.table.keys, A ∈ g.generating) (complete : g.CompletableRhss) :
    g.onlyGenerating = g := by
  refine eq_of_parts_eq rfl ?_ rfl ?_
  · apply Std.ExtTreeSet.ext_mem
    intro x
    rw [mem_nonterminals_onlyGenerating]
    constructor
    · rintro (rfl | hx)
      · exact start
      · exact hx.1
    · intro hx
      exact (nonterminals x hx).imp_right fun gen => ⟨hx, gen⟩
  · have filtered : g.table.filterKeys (g.generating.contains ·) = g.table := by
      apply Table.filterKeys_eq_self
      intro A hA
      exact Std.ExtTreeSet.contains_iff_mem.2 (keys A hA)
    have table : g.onlyGenerating.table =
        (g.table.filterKeys (g.generating.contains ·)).mapValues fun _ rhss =>
          rhss.filter (supported Symbol.isTerminal g.generating) := rfl
    rw [table, filtered]
    apply Table.mapValues_eq_self
    intro e he
    apply List.filter_eq_self.2
    intro r hr
    rw [← rhss_eq_of_mem_entries he] at hr
    exact supported_generating_iff.2 (complete ⟨e.1, r⟩ hr)

theorem onlyGenerating_onlyGenerating (g : Grammar) :
    g.onlyGenerating.onlyGenerating = g.onlyGenerating := by
  refine onlyGenerating_eq_self ?_ ?_ ?_ (completableRhss_onlyGenerating g)
  · exact mem_nonterminals_onlyGenerating.2 (Or.inl rfl)
  · intro A hA
    rw [generating_onlyGenerating]
    exact (mem_nonterminals_onlyGenerating.1 hA).imp_right And.right
  · intro A hA
    rw [generating_onlyGenerating]
    exact (mem_keys_onlyGenerating.1 hA).2

/-- Run twice on a valid grammar, the elimination of unit rules and the two clean-ups give what they
    give when run once.  The elimination of empty right-hand sides gives the same start symbol, the
    same declared symbols and, for every left-hand side, the same set of right-hand sides.  Nothing
    is left of what a stage removes: no empty right-hand side off the start symbol, no unit rule, no
    symbol that is not reachable, no right-hand side that expands to no word. -/
theorem firstStages_idempotent (hg : g.Valid) :
    (g.withoutEpsilon.EpsilonOnlyAtStart ∧
      g.withoutEpsilon.withoutEpsilon.SameRules g.withoutEpsilon) ∧
    (g.withoutUnits.UnitFree ∧ g.withoutUnits.withoutUnits = g.withoutUnits) ∧
    ((∀ x, g.onlyReachable.Declares x → g.onlyReachable.Reaches x) ∧
      g.onlyReachable.onlyReachable = g.onlyReachable) ∧
    (g.onlyGenerating.CompletableRhss ∧
      g.onlyGenerating.onlyGenerating = g.onlyGenerating) := by
  have wf := hg.wellFormed
  refine ⟨⟨epsilonOnlyAtStart_withoutEpsilon, sameRules_withoutEpsilon_withoutEpsilon g⟩,
    ⟨unitFree_withoutUnits, withoutUnits_withoutUnits g⟩, ⟨?_, wf.onlyReachable_onlyReachable⟩,
    ⟨completableRhss_onlyGenerating g, onlyGenerating_onlyGenerating g⟩⟩
  intro x hx
  exact reaches_of_mem_reachable (wf.mem_reachable_of_declares_onlyReachable hx)

/-- `S -> S A b | A`, `A -> B | ε`, `B -> A | C a`, `C -> C` and `D -> S b`: `A` is only nullable at
    first, `S` still is in the second run; `A` and `B` lead to each other, `C` derives no word, and
    `D` is not reachable. -/
def tangled : Grammar :=
  (ofSymbols (.nonterminal "S") ∅ (.ofList [Symbol.terminal "a", Symbol.terminal "b"])).addRules
    [⟨.nonterminal "S", [.nonterminal "S", .nonterminal "A", .terminal "b"]⟩,
      ⟨.nonterminal "S", [.nonterminal "A"]⟩,
      ⟨.nonterminal "A", [.nonterminal "B"]⟩,
      ⟨.nonterminal "A", []⟩,
      ⟨.nonterminal "B", [.nonterminal "A"]⟩,
      ⟨.nonterminal "B", [.nonterminal "C", .terminal "a"]⟩,
      ⟨.nonterminal "C", [.nonterminal "C"]⟩,
      ⟨.nonterminal "D", [.nonterminal "S", .terminal "b"]⟩]

theorem firstStages_idempotent_tangled :
    tangled.Valid ∧
    (tangled.withoutEpsilon.EpsilonOnlyAtStart ∧
      tangled.withoutEpsilon.withoutEpsilon.SameRules tangled.withoutEpsilon) ∧
    (tangled.withoutUnits.UnitFree ∧ tangled.withoutUnits.withoutUnits = tangled.withoutUnits) ∧
    ((∀ x, tangled.onlyReachable.Declares x → tangled.onlyReachable.Reaches x) ∧
      tangled.onlyReachable.onlyReachable = tangled.onlyReachable) ∧
    (tangled.onlyGenerating.CompletableRhss ∧
      tangled.onlyGenerating.onlyGenerating = tangled.onlyGenerating) := by
  have valid : tangled.Valid := by decide
  exact ⟨valid, firstStages_idempotent valid⟩

example : [tangled.withoutEpsilon, tangled.withoutEpsilon.withoutEpsilon].map
    (fun g => (g.rhss (.nonterminal "S")).map Rhs.render) =
      [["S A b", "S b", "A b", "b", "A", "ε"], ["S A b", "A b", "S b", "b", "A", "ε"]] := by decide

end ContextFree.Grammar
