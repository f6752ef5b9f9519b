/-
  ContextFree/Proofs/Traversal.lean
  =================================
  **A traversal with a queue** finds the reachable symbols.

  The reachable symbols are defined by rounds over all rules.  A traversal keeps a set of
  discovered symbols and a queue of non-terminals that it has not yet followed; it follows
  each of them once, so cycles do no harm.  Every step empties the queue by one symbol or
  discovers another one, and there are no more to discover than right-hand sides mention:
  that is why it ends.

  `Exploring` is the invariant of a step: what is discovered is reachable, and what the
  right-hand sides of a discovered non-terminal mention is discovered as well, unless the
  non-terminal is in the queue.  With an empty queue the discovered symbols are the
  reachable ones (`traverse_eq_reachable`).  These are the symbols of the sentential forms,
  and without the others the sentential forms are the same (`reachable_exact`).
-/
import ContextFree.Proofs.Declarations

namespace ContextFree.Grammar

variable {g : Grammar} {s : SymbolSet} {q : List Symbol} {A : Symbol}

/-! ### The invariant -/

/-- What holds of the discovered symbols and the queue at every step. -/
structure Exploring (g : Grammar) (s : SymbolSet) (q : List Symbol) : Prop where
  start_mem : g.start ∈ s
  reachable : ∀ x ∈ s, x ∈ g.reachable
  queued : ∀ A ∈ q, A ∈ s ∧ A.isNonterminal = true
  followed : ∀ A ∈ s, A.isNonterminal = true → A ∈ q ∨ ∀ r ∈ g.rhss A, ∀ x ∈ r, x ∈ s

namespace Exploring

theorem begin (hstart : g.start.isNonterminal = true) :
    g.Exploring ((∅ : SymbolSet).insert g.start) [g.start] := by
  refine ⟨Std.ExtTreeSet.mem_insert_self, ?_, ?_, ?_⟩
  · intro x hx
    rw [SymbolSet.mem_singleton.1 hx]
    exact start_mem_reachable g
  · exact List.forall_mem_singleton.2 ⟨Std.ExtTreeSet.mem_insert_self, hstart⟩
  · intro A hA _
    exact Or.inl (List.mem_singleton.2 (SymbolSet.mem_singleton.1 hA))

theorem step (inv : g.Exploring s (A :: q)) :
    g.Exploring (s.insertMany (g.discoveries s A))
      (q ++ (g.discoveries s A).filter Symbol.isNonterminal) := by
  obtain ⟨⟨hA, kind⟩, later⟩ := List.forall_mem_cons.1 inv.queued
  have grown : ∀ x ∈ s, x ∈ s.insertMany (g.discoveries s A) :=
    fun x hx => mem_insertMany_discoveries.2 (Or.inl hx)
  refine ⟨grown _ inv.start_mem, ?_, ?_, ?_⟩
  · intro x hx
    rcases mem_insertMany_discoveries.1 hx with hx | ⟨r, hr, hxr⟩
    · exact inv.reachable x hx
    · exact mem_reachable_of_mem_rhs (inv.reachable A hA) kind hr hxr
  · intro B hB
    rcases List.mem_append.1 hB with hB | hB
    · exact ⟨grown B (later B hB).1, (later B hB).2⟩
    · obtain ⟨new, kindB⟩ := List.mem_filter.1 hB
      exact ⟨mem_insertMany_discoveries.2 (Or.inr (mem_discoveries.1 new).1), kindB⟩
  · intro B hB kindB
    by_cases old : B ∈ s
    · rcases inv.followed B old kindB with hq | closed
      · rcases List.mem_cons.1 hq with rfl | hq
        · -- The symbol that has just been followed.
          exact Or.inr fun r hr x hx => mem_insertMany_discoveries.2 (Or.inr ⟨r, hr, hx⟩)
        · exact Or.inl (List.mem_append_left _ hq)
      · exact Or.inr fun r hr x hx => grown x (closed r hr x hx)
    · have mention := (mem_insertMany_discoveries.1 hB).resolve_left old
      have new : B ∈ g.discoveries s A := mem_discoveries.2 ⟨mention, old⟩
      exact Or.inl (List.mem_append_right _ (List.mem_filter.2 ⟨new, kindB⟩))

/-- With an empty queue every reachable symbol is discovered. -/
theorem eq_reachable (inv : g.Exploring s []) (hstart : g.start.isNonterminal = true) :
    s = g.reachable := by
  apply Std.ExtTreeSet.ext_mem
  intro x
  refine ⟨inv.reachable x, ?_⟩
  refine reachable_induction (P := fun x => x ∈ s) inv.start_mem ?_ x
  intro A r hr follow hA x hx
  have kind : A.isNonterminal = true := by
    rcases follow with kind | rfl
    · exact kind
    · exact hstart
  rcases inv.followed A hA kind with hq | closed
  · exact absurd hq List.not_mem_nil
  · exact closed r hr x hx

theorem traverse_eq (hstart : g.start.isNonterminal = true) (inv : g.Exploring s q) :
    g.traverse s q = g.reachable := by
  fun_induction traverse g s q with
  | case1 s => exact inv.eq_reachable hstart
  | case2 s A q ih => exact ih inv.step

end Exploring

/-- From the start symbol the traversal discovers the reachable symbols. -/
theorem traverse_eq_reachable (hstart : g.start.isNonterminal = true) :
    g.traverse ((∅ : SymbolSet).insert g.start) [g.start] = g.reachable :=
  (Exploring.begin hstart).traverse_eq hstart

/-! ### What is reachable and what is left -/

namespace WellFormed

variable (hg : g.WellFormed)
include hg

theorem declares_of_mem_reachable : ∀ x ∈ g.reachable, g.Declares x := by
  apply reachable_induction
  · exact Or.inl hg.start_mem
  · intro A r hr _ _ x hx
    exact hg.declares A r hr x hx

theorem mem_nonterminals_iff {x : Symbol} :
    x ∈ g.nonterminals ↔ x.isNonterminal = true ∧ g.Declares x := by
  constructor
  · exact fun hx => ⟨hg.isNonterminal_of_mem x hx, Or.inl hx⟩
  · rintro ⟨kind, hx | hx⟩
    · exact hx
    · exact absurd (hg.isTerminal_of_mem x hx) (Symbol.not_isTerminal kind)

theorem mem_terminals_iff {x : Symbol} :
    x ∈ g.terminals ↔ x.isTerminal = true ∧ g.Declares x := by
  constructor
  · exact fun hx => ⟨hg.isTerminal_of_mem x hx, Or.inr hx⟩
  · rintro ⟨kind, hx | hx⟩
    · exact absurd kind (Symbol.not_isTerminal (hg.isNonterminal_of_mem x hx))
    · exact hx

/-- Reachable symbols are declared, and they stay so. -/
theorem declares_onlyReachable_iff {x : Symbol} :
    g.onlyReachable.Declares x ↔ x ∈ g.reachable := by
  rw [hg.declares_onlyReachable]
  exact and_iff_right_of_imp (hg.declares_of_mem_reachable x)

end WellFormed

/-- A symbol of a valid grammar is reachable if and only if it occurs in a sentential form, and a
    traversal from the start symbol discovers the reachable symbols.  Without the others exactly
    these are declared, each as what it is, the right-hand sides of the reachable left-hand sides
    are those that they had, other left-hand sides are gone, and the sentential forms are the
    same. -/
theorem reachable_exact (hg : g.Valid) :
    let h := g.onlyReachable
    (∀ x, x ∈ g.reachable ↔ g.Reaches x) ∧
    g.traverse ((∅ : SymbolSet).insert g.start) [g.start] = g.reachable ∧
    (∀ A, A ∈ h.nonterminals ↔ A.isNonterminal = true ∧ A ∈ g.reachable) ∧
    (∀ a, a ∈ h.terminals ↔ a.isTerminal = true ∧ a ∈ g.reachable) ∧
    (∀ A, h.table.get? A = if A ∈ g.reachable then g.table.get? A else none) ∧
    ∀ u, h.Sentential u ↔ g.Sentential u := by
  intro h
  have wf := hg.wellFormed
  have start := wf.isNonterminal_of_mem g.start wf.start_mem
  refine ⟨?_, traverse_eq_reachable start, ?_, ?_, ?_, ?_⟩
  · intro x
    exact mem_reachable_iff wf.nonterminalLhss
  · intro A
    rw [wf.onlyReachable.mem_nonterminals_iff, wf.declares_onlyReachable_iff]
  · intro a
    rw [wf.onlyReachable.mem_terminals_iff, wf.declares_onlyReachable_iff]
  · intro A
    have table : h.table = g.table.filterKeys (g.reachable.contains ·) := rfl
    rw [table, Table.get?_filterKeys]
    simp only [Std.ExtTreeSet.contains_iff_mem]
  · intro u
    exact sentential_onlyReachable_iff wf.nonterminalLhss

theorem reachable_exact_crowded :
    let h := crowded.onlyReachable
    crowded.Valid ∧
    (∀ x, x ∈ crowded.reachable ↔ crowded.Reaches x) ∧
    crowded.traverse ((∅ : SymbolSet).insert crowded.start) [crowded.start] = crowded.reachable ∧
    (∀ A, A ∈ h.nonterminals ↔ A.isNonterminal = true ∧ A ∈ crowded.reachable) ∧
    (∀ a, a ∈ h.terminals ↔ a.isTerminal = true ∧ a ∈ crowded.reachable) ∧
    (∀ A, h.table.get? A = if A ∈ crowded.reachable then crowded.table.get? A else none) ∧
    ∀ u, h.Sentential u ↔ crowded.Sentential u :=
  ⟨valid_crowded, reachable_exact valid_crowded⟩

end ContextFree.Grammar
