/-
  ContextFree/Proofs/UnitElimination.lean
  =======================================
  **Elimination of unit rules**, on grammars without empty right-hand sides,
  keeps the words of every symbol.

  `mem_unitReach_iff` says that the search finds exactly the symbols that a path
  of unit rules leads to.  An expansion to a word leaves such a path at some
  point, through a right-hand side that is no unit; the first symbol of the path
  has it after the elimination.

  A start symbol with an empty right-hand side is not covered: that right-hand
  side is not copied, so a symbol with a path to the start symbol may lose the
  empty word.
-/
import ContextFree.Unit
import ContextFree.Proofs.EpsilonElimination
import Mathlib.Logic.Relation

namespace ContextFree.Grammar

variable {g : Grammar}

/-- No right-hand side is a single non-terminal. -/
def UnitFree (g : Grammar) : Prop := ∀ A r, r ∈ g.rhss A → Rhs.isUnit r = false

/-- A path of unit rules. -/
def UnitPath (g : Grammar) : Symbol → Symbol → Prop :=
  Relation.ReflTransGen fun A B => B ∈ g.unitTargets A

/-! ### The search -/

theorem mem_unitTargets {A B : Symbol} :
    B ∈ g.unitTargets A ↔ B.isNonterminal = true ∧ [B] ∈ g.rhss A := by
  simp only [unitTargets, List.mem_filterMap]
  constructor
  · rintro ⟨r, hr, hB⟩
    unfold Rhs.unitTarget? at hB
    split at hB
    · cases hB
      exact ⟨rfl, hr⟩
    · cases hB
  · rintro ⟨hB, hr⟩
    refine ⟨[B], hr, ?_⟩
    cases B with
    | nonterminal b => rfl
    | terminal b => simp at hB

theorem isUnit_iff {r : Rhs} : Rhs.isUnit r = true ↔ ∃ B, B.isNonterminal = true ∧ r = [B] := by
  unfold Rhs.isUnit Rhs.unitTarget?
  split
  · exact ⟨fun _ => ⟨_, rfl, rfl⟩, fun _ => rfl⟩
  · rename_i hr
    refine ⟨fun h => by simp at h, ?_⟩
    rintro ⟨B, hB, rfl⟩
    cases B with
    | nonterminal b => exact absurd rfl (hr b)
    | terminal b => simp at hB

theorem exists_unitPath_of_mem_followUnits {n : Nat} {seen : SymbolSet} {layer : List Symbol}
    {B : Symbol} (h : B ∈ g.followUnits n seen layer) : ∃ A ∈ layer, g.UnitPath A B := by
  induction n generalizing seen layer with
  | zero => exact absurd h List.not_mem_nil
  | succ n ih =>
    have next : ∀ C ∈ g.newTargets seen layer, ∃ A ∈ layer, g.UnitPath A C := by
      intro C hC
      obtain ⟨⟨A, hA, hAC⟩, _⟩ := mem_newTargets.1 hC
      exact ⟨A, hA, Relation.ReflTransGen.single hAC⟩
    unfold followUnits at h
    split at h
    · exact absurd h List.not_mem_nil
    · rcases List.mem_append.1 h with hB | hB
      · exact next B hB
      · obtain ⟨C, hC, hCB⟩ := ih hB
        obtain ⟨A, hA, hAC⟩ := next C hC
        exact ⟨A, hA, hAC.trans hCB⟩

theorem unseenTargets_le_ruleCount {seen : SymbolSet} : g.unseenTargets seen ≤ g.ruleCount :=
  Nat.le_trans (List.length_filter_le _ _) (List.length_filterMap_le _ _)

theorem newTargets_eq_nil {seen : SymbolSet} (h : g.unseenTargets seen ≤ 0)
    (layer : List Symbol) : g.newTargets seen layer = [] := by
  apply List.eq_nil_iff_forall_not_mem.2
  intro B hB
  obtain ⟨⟨A, _, hAB⟩, new⟩ := mem_newTargets.1 hB
  exact new (mem_of_missing_le_zero h B (mem_allUnitTargets hAB))

/-- The search ends with a set that no unit rule leaves, if the symbols seen have led to seen
    symbols except from the last layer and there are enough rounds for the targets missing. -/
theorem followUnits_closed {n : Nat} {seen : SymbolSet} {layer : List Symbol}
    (behind : ∀ A ∈ seen, A ∉ layer → ∀ B ∈ g.unitTargets A, B ∈ seen)
    (rounds : g.unseenTargets seen ≤ n) :
    ∀ A, A ∈ seen ∨ A ∈ g.followUnits n seen layer →
      ∀ B ∈ g.unitTargets A, B ∈ seen ∨ B ∈ g.followUnits n seen layer := by
  induction n generalizing seen layer with
  | zero =>
    intro A _ B hB
    exact Or.inl (mem_of_missing_le_zero rounds B (mem_allUnitTargets hB))
  | succ n ih =>
    have fresh : ∀ A ∈ layer, ∀ B ∈ g.unitTargets A, B ∈ seen ∨ B ∈ g.newTargets seen layer := by
      intro A hA B hB
      by_cases hseen : B ∈ seen
      · exact Or.inl hseen
      · exact Or.inr (mem_newTargets.2 ⟨⟨A, hA, hB⟩, hseen⟩)
    unfold followUnits
    split
    · rename_i hnone
      intro A hA B hB
      by_cases hlayer : A ∈ layer
      · rcases fresh A hlayer B hB with h | h
        · exact Or.inl h
        · rw [hnone] at h
          exact absurd h List.not_mem_nil
      · exact Or.inl (behind A (hA.resolve_right List.not_mem_nil) hlayer B hB)
    · rename_i hsome
      have behind' : ∀ A ∈ seen.insertMany (g.newTargets seen layer),
          A ∉ g.newTargets seen layer → ∀ B ∈ g.unitTargets A,
            B ∈ seen.insertMany (g.newTargets seen layer) := by
        intro A hA hnew B hB
        have hseen := (SymbolSet.mem_insertMany.1 hA).resolve_right hnew
        by_cases hlayer : A ∈ layer
        · exact SymbolSet.mem_insertMany.2 (fresh A hlayer B hB)
        · exact SymbolSet.mem_insertMany.2 (Or.inl (behind A hseen hlayer B hB))
      -- The layer is not empty, so fewer targets are missing behind it.
      have fewer := unseenTargets_lt hsome
      have closed := ih behind' (by omega)
      simp only [SymbolSet.mem_insertMany, or_assoc] at closed
      simp only [List.mem_append]
      exact closed

/-- The search finds what a path of unit rules leads to. -/
theorem mem_unitReach_iff {A B : Symbol} : B ∈ g.unitReach A ↔ g.UnitPath A B := by
  constructor
  · intro h
    rcases List.mem_cons.1 h with rfl | h
    · exact Relation.ReflTransGen.refl
    · obtain ⟨C, hC, path⟩ := exists_unitPath_of_mem_followUnits h
      rwa [List.mem_singleton.1 hC] at path
  · intro path
    have behind : ∀ C ∈ (∅ : SymbolSet).insert A, C ∉ [A] → ∀ D ∈ g.unitTargets C,
        D ∈ (∅ : SymbolSet).insert A :=
      fun C hC hlayer => absurd (List.mem_singleton.2 (SymbolSet.mem_singleton.1 hC)) hlayer
    have closed := followUnits_closed behind unseenTargets_le_ruleCount
    simp only [SymbolSet.mem_singleton] at closed
    unfold unitReach
    induction path with
    | refl => exact List.mem_cons_self
    | tail _ step ih => exact List.mem_cons.2 (closed _ (List.mem_cons.1 ih) _ step)

/-! ### The rules after the elimination -/

theorem mem_rhss_withoutUnits {A : Symbol} {r : Rhs} :
    r ∈ g.withoutUnits.rhss A ↔
      (∃ B, g.UnitPath A B ∧ r ∈ g.rhss B) ∧ Rhs.isUnit r = false ∧ (r ≠ [] ∨ A = g.start) := by
  simp only [rhss_withoutUnits, unitFreeRhss, Distinct.mem_ofList, List.mem_flatMap,
    List.mem_filter, mem_unitReach_iff, Bool.and_eq_true, Bool.or_eq_true, Bool.not_eq_true',
    decide_eq_true_eq, List.isEmpty_eq_false_iff]
  constructor
  · rintro ⟨B, path, hr, hunit, hempty⟩
    exact ⟨⟨B, path, hr⟩, hunit, hempty⟩
  · rintro ⟨⟨B, path, hr⟩, hunit, hempty⟩
    exact ⟨B, path, hr, hunit, hempty⟩

/-- A right-hand side that is neither empty nor a unit stays. -/
theorem mem_rhss_withoutUnits_of_mem {A : Symbol} {r : Rhs} (hr : r ∈ g.rhss A)
    (hunit : Rhs.isUnit r = false) (hne : r ≠ []) : r ∈ g.withoutUnits.rhss A :=
  mem_rhss_withoutUnits.2 ⟨⟨A, Relation.ReflTransGen.refl, hr⟩, hunit, Or.inl hne⟩

/-- What the target of a unit rule has afterwards, its left-hand side has as well. -/
theorem mem_rhss_withoutUnits_of_target {A B : Symbol} {r : Rhs} (hB : B ∈ g.unitTargets A)
    (hr : r ∈ g.withoutUnits.rhss B) (hne : r ≠ []) : r ∈ g.withoutUnits.rhss A := by
  obtain ⟨⟨C, path, hC⟩, hunit, _⟩ := mem_rhss_withoutUnits.1 hr
  exact mem_rhss_withoutUnits.2 ⟨⟨C, path.head hB, hC⟩, hunit, Or.inl hne⟩

theorem unitFree_withoutUnits : g.withoutUnits.UnitFree :=
  fun _ _ h => (mem_rhss_withoutUnits.1 h).2.1

theorem epsilonOnlyAtStart_withoutUnits : g.withoutUnits.EpsilonOnlyAtStart := by
  intro A h
  exact (mem_rhss_withoutUnits.1 h).2.2.resolve_left fun hne => hne rfl

theorem exists_rhs_of_unitPath {A B : Symbol} {r : Rhs} (path : g.UnitPath A B)
    (hr : r ∈ g.rhss B) : ∃ s, s ∈ g.rhss A := by
  rcases path.cases_head with rfl | ⟨C, step, _⟩
  · exact ⟨r, hr⟩
  · exact ⟨[C], (mem_unitTargets.1 step).2⟩

theorem RulesOver.withoutUnits {K : Set Symbol} (h : g.RulesOver K) :
    g.withoutUnits.RulesOver K := by
  refine ⟨?_, ?_, ?_⟩
  · intro A r hr
    obtain ⟨⟨B, path, hB⟩, _⟩ := mem_rhss_withoutUnits.1 hr
    obtain ⟨s, hs⟩ := exists_rhs_of_unitPath path hB
    exact h.nonterminalLhss A s hs
  · intro A r hr
    obtain ⟨⟨B, path, hB⟩, _⟩ := mem_rhss_withoutUnits.1 hr
    obtain ⟨s, hs⟩ := exists_rhs_of_unitPath path hB
    exact h.lhs_mem A s hs
  · intro A r hr
    obtain ⟨⟨B, _, hB⟩, _⟩ := mem_rhss_withoutUnits.1 hr
    exact h.rhs_mem B r hB

theorem nil_mem_rhss_withoutUnits (hg : g.EpsilonOnlyAtStart) :
    [] ∈ g.withoutUnits.rhss g.start ↔ [] ∈ g.rhss g.start := by
  rw [mem_rhss_withoutUnits]
  constructor
  · rintro ⟨⟨B, _, hB⟩, _⟩
    rwa [hg B hB] at hB
  · intro h
    exact ⟨⟨g.start, Relation.ReflTransGen.refl, h⟩, rfl, Or.inr rfl⟩

/-! ### Expansions -/

theorem expands_of_unitPath {A B : Symbol} (path : g.UnitPath A B) :
    Expands g.ruleSet [A] [B] := by
  induction path with
  | refl => exact Expands.refl _ [A]
  | tail _ step ih => exact ih.trans (Expands.single (mem_unitTargets.1 step).2)

theorem expands_of_withoutUnits {u v : List Symbol} (h : Expands g.withoutUnits.ruleSet u v) :
    Expands g.ruleSet u v := by
  refine h.replay fun A r hr => ?_
  obtain ⟨⟨B, path, hB⟩, _⟩ := mem_rhss_withoutUnits.1 hr
  exact (expands_of_unitPath path).trans (Expands.single hB)

/-- Without empty right-hand sides no word is lost. -/
theorem expands_withoutUnits {u w : List Symbol} (h : Expands (nonemptyRules g.ruleSet) u w)
    (hw : IsWord w) : Expands (nonemptyRules g.withoutUnits.ruleSet) u w := by
  induction h with
  | nil => exact Expands.nil
  | keep x _ ih => exact Expands.keep x (ih (isWord_cons.1 hw).2)
  | @rule A r x u y mem _ _ ihBody ih =>
    obtain ⟨hx, hy⟩ := isWord_append.1 hw
    have body := ihBody hx
    obtain ⟨hr, hne⟩ := mem
    by_cases hunit : Rhs.isUnit r = true
    · -- The rule is a unit rule `A → B`, and `B` leaves the path by a rule that `A` gets as well.
      obtain ⟨B, hB, rfl⟩ := isUnit_iff.1 hunit
      obtain ⟨s, ⟨hs, hsne⟩, hexp⟩ := body.exists_rule hx hB
      have rule := mem_rhss_withoutUnits_of_target (mem_unitTargets.2 ⟨hB, hr⟩) hs hsne
      exact Expands.rule ⟨rule, hsne⟩ hexp (ih hy)
    · have rule := mem_rhss_withoutUnits_of_mem hr (Bool.eq_false_iff.2 hunit) hne
      exact Expands.rule ⟨rule, hne⟩ body (ih hy)

end ContextFree.Grammar
