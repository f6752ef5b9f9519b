/-
  ContextFree/Proofs/EmptyLanguage.lean
  =====================================
  **Empty languages are reported**: a run warns once if the given grammar has no word
  and not at all otherwise, and the start symbol has a rule in the normal form if and
  only if there is a word (`checkedStages_report_emptiness`).

  The warning is decided by the grammar behind three rewritings: it is given if the
  start symbol is not among the generating symbols there.  What it says about the
  given grammar follows from the language, which is the same
  (`Valid.start_mem_generating_iff`).  Every other event of a run is reported on a
  lower level (`warnings_trace_given`).
-/
import ContextFree.Source
import ContextFree.Proofs.Usefulness

namespace ContextFree

/-- What a run warns of, in order. -/
def Trace.warnings (t : Trace) : List Event := t.log.filter fun e => e.level = .warning

namespace Grammar

variable {g : Grammar}

/-! ### The warnings of a run -/

theorem warnings_unitEvents (g : Grammar) :
    g.unitEvents.filter (fun e => e.level = .warning) = [] := by
  apply List.filter_eq_nil_iff.2
  intro e he
  obtain ⟨A, _, hA⟩ := List.mem_filterMap.1 he
  simp only at hA
  split at hA
  · cases hA
  · cases hA
    simp [Event.level]

theorem warnings_nameAllocated (names : List String) :
    (names.map Event.nameAllocated).filter (fun e => e.level = .warning) = [] := by
  apply List.filter_eq_nil_iff.2
  intro e he
  obtain ⟨name, _, rfl⟩ := List.mem_map.1 he
  simp [Event.level]

theorem warnings_emptyEvents (g : Grammar) :
    g.emptyEvents.filter (fun e => e.level = .warning) = g.emptyEvents := by
  apply List.filter_eq_self.2
  intro e he
  unfold emptyEvents at he
  split at he
  · exact absurd he List.not_mem_nil
  · rw [List.mem_singleton.1 he]
    rfl

/-- Stage four warns of an empty language, and nothing else is a warning. -/
theorem warnings_events (g : Grammar) :
    g.events.filter (fun e => e.level = .warning) = g.stages.reachable.emptyEvents := by
  simp only [events, List.filter_append, warnings_nameAllocated, warnings_emptyEvents,
    warnings_unitEvents]
  simp [Event.level]

theorem Valid.trace_given (hg : g.Valid) :
    (Source.given g).trace = ⟨g.transcript, g.events, none⟩ := by
  simp only [Source.trace, Source.grammar, hg.checkedStages_eq, Source.events, List.nil_append]

theorem Valid.warnings_trace_given (hg : g.Valid) :
    (Source.given g).trace.warnings = g.stages.reachable.emptyEvents := by
  rw [hg.trace_given]
  exact warnings_events g

/-! ### What they say of the given grammar -/

theorem Valid.start_mem_generating_iff (hg : g.Valid) :
    g.stages.reachable.start ∈ g.stages.reachable.generating ↔ ∃ w, g.Generates w := by
  have form := hg.epsilonFreeForm_stages_reachable
  have kind : g.stages.reachable.start.isNonterminal = true := by
    rw [form.start_eq]
    exact hg.checked.1.1
  rw [mem_generating_iff_exists_derivesWord kind]
  exact exists_congr form.generates_iff

theorem Valid.rhss_start_chomsky_ne_nil_iff (hg : g.Valid) :
    g.stages.chomsky.rhss g.stages.chomsky.start ≠ [] ↔ ∃ w, g.Generates w := by
  have form := hg.epsilonFreeForm_stages_chomsky
  have kind : g.stages.chomsky.start.isNonterminal = true := by
    rw [form.start_eq]
    exact hg.checked.1.1
  constructor
  · intro some
    obtain ⟨w, hw⟩ := (cleanedUp_stages_chomsky hg).completableRhss.exists_derivesWord some
    exact ⟨w, (form.generates_iff w).1 hw⟩
  · rintro ⟨w, hw⟩
    exact rhss_ne_nil_of_derivesWord kind ((form.generates_iff w).2 hw)

/-- A run on a valid grammar warns of an empty language, once and of nothing else, and does not warn
    if there is a word.  In the normal form the start symbol has a rule if and only if there is a
    word. -/
theorem checkedStages_report_emptiness (hg : g.Valid) :
    ∃ s, g.checkedStages = .ok s ∧
      ((∀ w, ¬ g.Generates w) →
        (Source.given g).trace.warnings = [.languageEmpty g.start.name]) ∧
      ((∃ w, g.Generates w) → (Source.given g).trace.warnings = []) ∧
      (s.chomsky.rhss s.chomsky.start ≠ [] ↔ ∃ w, g.Generates w) := by
  have start := hg.epsilonFreeForm_stages_reachable.start_eq
  refine ⟨g.stages, hg.checkedStages_eq, ?_, ?_, hg.rhss_start_chomsky_ne_nil_iff⟩
  · intro none
    have dead := mt hg.start_mem_generating_iff.1 (not_exists.2 none)
    rw [hg.warnings_trace_given, emptyEvents, if_neg dead, start]
  · intro some
    rw [hg.warnings_trace_given, emptyEvents, if_pos (hg.start_mem_generating_iff.2 some)]

theorem checkedStages_report_emptiness_deadEnd :
    deadEnd.Valid ∧ ∃ s, deadEnd.checkedStages = .ok s ∧
      ((∀ w, ¬ deadEnd.Generates w) →
        (Source.given deadEnd).trace.warnings = [.languageEmpty "S"]) ∧
      ((∃ w, deadEnd.Generates w) → (Source.given deadEnd).trace.warnings = []) ∧
      (s.chomsky.rhss s.chomsky.start ≠ [] ↔ ∃ w, deadEnd.Generates w) := by
  have valid : deadEnd.Valid := by decide
  exact ⟨valid, checkedStages_report_emptiness valid⟩

example : (Source.given deadEnd).trace.warnings.map (Event.message .plain) =
    ["start symbol S generates no terminal string; the language is empty"] := by decide

end Grammar

end ContextFree
