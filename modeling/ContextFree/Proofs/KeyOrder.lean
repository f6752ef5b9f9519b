/-
  ContextFree/Proofs/KeyOrder.lean
  ================================
  **The order of the left-hand sides leaves no trace.**

  Two grammars that differ in this order only (`Grammar.Same`) have the same entries
  in another order.  Elimination of empty right-hand sides keeps the order, so the
  first stages of the two are the same in this sense again.  Elimination of unit
  rules puts the left-hand sides in the order of their names; those of a valid
  grammar are non-terminals, so their names differ and there is one such order: from
  the second stage on the grammars are equal (`Same.withoutUnits_eq`).

  What is written and reported of the first two grammars depends on the set of
  nullable symbols, on the right-hand sides, and on the left-hand sides in the order
  of their names, and therefore agrees (`checkedStages_same`).
-/
import ContextFree.Source
import ContextFree.Proofs.Declarations
import Mathlib.Data.List.Forall2

namespace ContextFree

/-! ### Tables with the same view -/

namespace Table

variable {β : Type} {t u : Table Symbol β}

theorem perm_entries_of_get?_eq (same : ∀ A, t.get? A = u.get? A) :
    t.entries.Perm u.entries := by
  have nodup : ∀ v : Table Symbol β, v.entries.Nodup := fun v => v.nodup_keys.of_map
  refine (List.perm_ext_iff_of_nodup (nodup t) (nodup u)).2 fun e => ?_
  obtain ⟨A, rs⟩ := e
  rw [← get?_eq_some_iff, ← get?_eq_some_iff, same]

/-- Sorted by the names of different non-terminals, tables with the same view are equal. -/
theorem sortKeys_eq_of_get?_eq (same : ∀ A, t.get? A = u.get? A)
    (keys : ∀ A ∈ t.keys, A.isNonterminal = true) : t.sortKeys = u.sortKeys := by
  refine eq_of_entries_eq (sortBy_eq_of_perm (perm_entries_of_get?_eq same) ?_)
  rintro ⟨A, rs⟩ hA ⟨B, ss⟩ hB hname
  -- Entries of one name have one key, and so one value.
  have hkey : A = B := Symbol.eq_of_name_eq (keys A (List.mem_map_of_mem hA))
    (keys B (List.mem_map_of_mem hB)) hname
  subst hkey
  rw [← get?_eq_some_iff] at hA hB
  rw [Option.some.inj (hA.symm.trans hB)]

end Table

namespace Grammar

variable {g h : Grammar}

namespace Same

/-! ### What a grammar is read through -/

theorem rhss_eq (same : g.Same h) : g.rhss = h.rhss := by
  obtain ⟨_, _, _, view⟩ := same
  funext A
  unfold rhss
  rw [view]

theorem ruleSet_eq (same : g.Same h) : g.ruleSet = h.ruleSet := by
  unfold ruleSet
  rw [same.rhss_eq]

theorem perm_entries (same : g.Same h) : g.table.entries.Perm h.table.entries :=
  Table.perm_entries_of_get?_eq same.2.2.2

theorem lhssByName_eq (same : g.Same h) (keys : ∀ A ∈ g.table.keys, A.isNonterminal = true) :
    g.lhssByName = h.lhssByName := by
  have perm : g.table.keys.Perm h.table.keys := same.perm_entries.map Prod.fst
  refine sortBy_eq_of_perm perm fun A hA B hB => ?_
  exact Symbol.eq_of_name_eq (keys A hA) (keys B hB)

theorem nullable_eq (same : g.Same h) : g.nullable = h.nullable :=
  productive_eq_of_ruleSet_eq same.ruleSet_eq

theorem declaredNames_eq (same : g.Same h) : g.declaredNames = h.declaredNames := by
  obtain ⟨_, hnts, hts, _⟩ := same
  unfold declaredNames
  rw [hnts, hts]

theorem unitReach_eq (same : g.Same h) : g.unitReach = h.unitReach := by
  have targets : g.newTargets = h.newTargets := by
    unfold newTargets unitTargets
    rw [same.rhss_eq]
  have follow : g.followUnits = h.followUnits := by
    funext n
    induction n with
    | zero => rfl
    | succ n ih =>
      funext seen layer
      simp only [followUnits, targets, ih]
  have count : g.ruleCount = h.ruleCount :=
    (same.perm_entries.flatMap_right Prod.snd).length_eq
  unfold unitReach
  rw [follow, count]

/-! ### The first two stages -/

theorem withTable {t u : Table Symbol (List Rhs)} (same : g.Same h)
    (view : ∀ A, t.get? A = u.get? A) : (g.withTable t).Same (h.withTable u) := by
  obtain ⟨hstart, hnts, hts, _⟩ := same
  have rhss : ∀ A, (g.withTable t).rhss A = (h.withTable u).rhss A :=
    fun A => congrArg (Option.getD · []) (view A)
  refine ⟨hstart, ?_, hts, view⟩
  apply Std.ExtTreeSet.ext_mem
  intro x
  rw [mem_nonterminals_withTable, mem_nonterminals_withTable, hstart, hnts, rhss]

theorem withoutEpsilon (same : g.Same h) : g.withoutEpsilon.Same h.withoutEpsilon := by
  refine same.withTable fun A => ?_
  have one : g.epsilonFreeRhss g.nullable = h.epsilonFreeRhss h.nullable := by
    unfold epsilonFreeRhss
    rw [same.nullable_eq, same.1]
  rw [Table.get?_mapValues, Table.get?_mapValues, one, same.2.2.2]

theorem withoutUnits_eq (same : g.Same h) (keys : ∀ A ∈ g.table.keys, A.isNonterminal = true) :
    g.withoutUnits = h.withoutUnits := by
  have sorted := Table.sortKeys_eq_of_get?_eq same.2.2.2 keys
  have one : g.unitFreeRhss = h.unitFreeRhss := by
    unfold unitFreeRhss
    rw [same.unitReach_eq, same.rhss_eq, same.1]
  obtain ⟨hstart, hnts, hts, _⟩ := same
  unfold Grammar.withoutUnits Grammar.withTable
  rw [sorted, one, hstart, hnts, hts]

theorem refl (g : Grammar) : g.Same g := ⟨rfl, rfl, rfl, fun _ => rfl⟩

theorem symm (same : g.Same h) : h.Same g :=
  ⟨same.1.symm, same.2.1.symm, same.2.2.1.symm, fun A => (same.2.2.2 A).symm⟩

/-! ### What is written and reported -/

theorem render_eq (same : g.Same h) (keys : ∀ A ∈ g.table.keys, A.isNonterminal = true) :
    g.render = h.render := by
  unfold render renderLines
  rw [same.lhssByName_eq keys, same.rhss_eq]

theorem description_eq (same : g.Same h) (keys : ∀ A ∈ g.table.keys, A.isNonterminal = true) :
    g.description = h.description := by
  have lhss := same.lhssByName_eq keys
  have view := same.rhss_eq
  obtain ⟨hstart, hnts, hts, _⟩ := same
  unfold description productionMembers
  rw [lhss, view, hstart, hnts, hts]

theorem unitEvents_eq (same : g.Same h) (keys : ∀ A ∈ g.table.keys, A.isNonterminal = true) :
    g.unitEvents = h.unitEvents := by
  unfold unitEvents
  rw [same.lhssByName_eq keys, same.unitReach_eq]

end Same

/-! ### All five stages -/

theorem Valid.isNonterminal_of_mem_keys_epsilonFree (hg : g.Valid) :
    ∀ A ∈ g.stages.epsilonFree.table.keys, A.isNonterminal = true := by
  have wf := hg.drawnFrom_stages.1.wellFormed
  exact fun A hA => wf.isNonterminal_of_mem A (wf.lhs_mem A hA)

theorem Same.stages_epsilonFree (same : g.Same h) :
    g.stages.epsilonFree.Same h.stages.epsilonFree := by
  rw [Grammar.stages_epsilonFree, Grammar.stages_epsilonFree]
  exact same.withoutEpsilon

/-- From the second stage on nothing depends on the order of the left-hand sides. -/
theorem Same.stages_eq (same : g.Same h) (hg : g.Valid) :
    g.stages.unitFree = h.stages.unitFree ∧ g.stages.reachable = h.stages.reachable ∧
      g.stages.generating = h.stages.generating ∧ g.stages.chomsky = h.stages.chomsky ∧
      g.stages.names = h.stages.names := by
  have second : g.stages.unitFree = h.stages.unitFree := by
    rw [stages_unitFree, stages_unitFree]
    exact same.stages_epsilonFree.withoutUnits_eq hg.isNonterminal_of_mem_keys_epsilonFree
  have third : g.stages.reachable = h.stages.reachable := by
    rw [stages_reachable, stages_reachable, second]
  have fourth : g.stages.generating = h.stages.generating := by
    rw [stages_generating, stages_generating, third]
  refine ⟨second, third, fourth, ?_, ?_⟩
  · rw [stages_chomsky, stages_chomsky, fourth, same.declaredNames_eq]
  · rw [stages_names, stages_names, fourth, same.declaredNames_eq]

theorem Same.events_eq (same : g.Same h) (hg : g.Valid) : g.events = h.events := by
  obtain ⟨second, third, _, last, names⟩ := same.stages_eq hg
  have units := same.stages_epsilonFree.unitEvents_eq hg.isNonterminal_of_mem_keys_epsilonFree
  simp only [events, same.nullable_eq, units, second, third, last, names]

/-- What is shown on the way is the same, line by line. -/
theorem Same.lines_exhibits_eq (same : g.Same h) (hg : g.Valid) (spelling : Text.Spelling) :
    (g.exhibits spelling).map Exhibit.lines = (h.exhibits spelling).map Exhibit.lines := by
  obtain ⟨second, third, fourth, last, _⟩ := same.stages_eq hg
  have first := same.stages_epsilonFree.render_eq hg.isNonterminal_of_mem_keys_epsilonFree
  simp only [exhibits, List.map_cons, List.map_nil, Exhibit.lines, same.nullable_eq,
    first, second, third, fourth, last]

theorem Same.transcript_eq (same : g.Same h) (hg : g.Valid) : g.transcript = h.transcript := by
  have rendered : ∀ es : List Exhibit, es.map Exhibit.render =
      (es.map Exhibit.lines).map fun ls => Text.join "" (ls.flatMap fun l => [l, "\n"]) := by
    intro es
    rw [List.map_map]
    rfl
  rw [transcript, transcript, rendered, rendered, same.lines_exhibits_eq hg]

theorem Same.trace_eq (same : g.Same h) (hg : g.Valid) (hh : h.Valid) :
    (Source.given g).trace = (Source.given h).trace := by
  simp only [Source.trace, Source.grammar, hg.checkedStages_eq, hh.checkedStages_eq,
    Source.events, same.transcript_eq hg, same.events_eq hg]

/-- Runs on two valid grammars that differ in the order of their left-hand sides: the stages are
    the same and are written in the same way, the same names are handed out in the same order, and
    the same is shown and logged. -/
theorem checkedStages_of_same (hg : g.Valid) (hh : h.Valid) (same : g.Same h) :
    ∃ s t, g.checkedStages = .ok s ∧ h.checkedStages = .ok t ∧
      List.Forall₂ (fun a b => a.Same b ∧ a.render = b.render ∧ a.description = b.description)
        s.toList t.toList ∧
      s.names.allocated = t.names.allocated ∧
      (Source.given g).trace = (Source.given h).trace := by
  obtain ⟨second, third, fourth, last, names⟩ := same.stages_eq hg
  have first := same.stages_epsilonFree
  have keys := hg.isNonterminal_of_mem_keys_epsilonFree
  have equal : ∀ {a b : Grammar}, a = b →
      a.Same b ∧ a.render = b.render ∧ a.description = b.description := by
    rintro a _ rfl
    exact ⟨Same.refl a, rfl, rfl⟩
  refine ⟨g.stages, h.stages, hg.checkedStages_eq, hh.checkedStages_eq, ?_, ?_,
    same.trace_eq hg hh⟩
  · unfold Stages.toList
    refine List.Forall₂.cons ⟨first, first.render_eq keys, first.description_eq keys⟩ ?_
    exact List.Forall₂.cons (equal second) (List.Forall₂.cons (equal third)
      (List.Forall₂.cons (equal fourth) (List.Forall₂.cons (equal last) List.Forall₂.nil)))
  · rw [names]

/-- The rules of `crowded` with the left-hand sides in another order. -/
def crowdedReordered : Grammar :=
  (ofSymbols (.nonterminal "S") ∅
    (.ofList [Symbol.terminal "a", Symbol.terminal "b"])).addRules
    [⟨.nonterminal "T_a", [.terminal "b"]⟩,
      ⟨.nonterminal "X1", [.nonterminal "X1", .nonterminal "S"]⟩,
      ⟨.nonterminal "S", [.terminal "a", .nonterminal "S", .terminal "b"]⟩,
      ⟨.nonterminal "S", [.terminal "a", .terminal "b"]⟩,
      ⟨.nonterminal "S", [.nonterminal "X1", .nonterminal "S"]⟩]

theorem checkedStages_of_same_crowded :
    crowded.table.keys ≠ crowdedReordered.table.keys ∧
    ∃ s t, crowded.checkedStages = .ok s ∧ crowdedReordered.checkedStages = .ok t ∧
      List.Forall₂ (fun a b => a.Same b ∧ a.render = b.render ∧ a.description = b.description)
        s.toList t.toList ∧
      s.names.allocated = t.names.allocated ∧
      (Source.given crowded).trace = (Source.given crowdedReordered).trace :=
  ⟨by decide, checkedStages_of_same valid_crowded (by decide) (by decide)⟩

end Grammar

end ContextFree
