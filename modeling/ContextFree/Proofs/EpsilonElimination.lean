/-
  ContextFree/Proofs/EpsilonElimination.lean
  ==========================================
  **Elimination of empty right-hand sides** keeps the non-empty words of every
  symbol.

  Soundness is a replay: a variant drops nullable symbols, which expand to the
  empty string.  For the converse, `exists_choice_expands` follows an expansion
  to a word and drops exactly the occurrences that contribute nothing to it.
  What is left never uses an empty right-hand side, not even the one that the
  start symbol may keep: the later stages only have to look after
  `nonemptyRules`.
-/
import ContextFree.Epsilon
import ContextFree.Proofs.Analysis

namespace ContextFree

/-- No symbol but the start symbol has an empty right-hand side. -/
def Grammar.EpsilonOnlyAtStart (g : Grammar) : Prop := ∀ A, [] ∈ g.rhss A → A = g.start

variable {nulls : SymbolSet}

/-! ### Choices -/

theorem Rhs.subset_of_mem_choices {r v : Rhs} (h : v ∈ r.choices nulls) : ∀ x ∈ v, x ∈ r := by
  induction r generalizing v with
  | nil =>
    rw [List.mem_singleton.1 h]
    exact fun x hx => hx
  | cons y r ih =>
    intro x hx
    rcases Rhs.mem_choices_cons.1 h with ⟨u, hu, rfl⟩ | ⟨_, hv⟩
    · rcases List.mem_cons.1 hx with rfl | hx
      · exact List.mem_cons_self
      · exact List.mem_cons_of_mem y (ih hu x hx)
    · exact List.mem_cons_of_mem y (ih hv x hx)

/-- A right-hand side is a choice of its own. -/
theorem Rhs.mem_choices_self (r : Rhs) : r ∈ r.choices nulls :=
  List.mem_of_head? (Rhs.head?_choices nulls r)

theorem Rhs.nil_mem_choices_iff {r : Rhs} : [] ∈ r.choices nulls ↔ ∀ x ∈ r, x ∈ nulls := by
  induction r with
  | nil => simp [Rhs.choices]
  | cons y r ih => simp [Rhs.mem_choices_cons, ih]

/-- Choices of a choice are choices. -/
theorem Rhs.mem_choices_trans {s : SymbolSet} (sub : ∀ x ∈ s, x ∈ nulls) {r v w : Rhs}
    (hv : v ∈ r.choices nulls) (hw : w ∈ Rhs.choices s v) : w ∈ r.choices nulls := by
  induction r generalizing v w with
  | nil =>
    rw [List.mem_singleton.1 hv] at hw
    exact hw
  | cons y r ih =>
    rcases Rhs.mem_choices_cons.1 hv with ⟨u, hu, rfl⟩ | ⟨hy, hv⟩
    · rcases Rhs.mem_choices_cons.1 hw with ⟨t, ht, rfl⟩ | ⟨hy, hw⟩
      · exact Rhs.mem_choices_cons.2 (Or.inl ⟨t, ih hu ht, rfl⟩)
      · exact Rhs.mem_choices_cons.2 (Or.inr ⟨sub y hy, ih hu hw⟩)
    · exact Rhs.mem_choices_cons.2 (Or.inr ⟨hy, ih hv hw⟩)

/-- Where there is nothing to drop there is nothing to choose. -/
theorem Rhs.choices_eq_singleton {r : Rhs} (none : ∀ x ∈ r, x ∉ nulls) :
    r.choices nulls = [r] := by
  induction r with
  | nil => rfl
  | cons y r ih =>
    obtain ⟨hy, none⟩ := List.forall_mem_cons.1 none
    simp [Rhs.choices, hy, ih none]

theorem Rhs.eq_of_mem_choices {r v : Rhs} (none : ∀ x ∈ r, x ∉ nulls) (hv : v ∈ r.choices nulls) :
    v = r := by
  rw [Rhs.choices_eq_singleton none] at hv
  exact List.mem_singleton.1 hv

/-- A choice only drops symbols that expand to the empty string. -/
theorem expands_of_mem_choices {R : Set Rule} (hnulls : ∀ x ∈ nulls, Expands R [x] [])
    {r v : Rhs} (h : v ∈ r.choices nulls) : Expands R r v := by
  induction r generalizing v with
  | nil =>
    rw [List.mem_singleton.1 h]
    exact Expands.nil
  | cons y r ih =>
    rcases Rhs.mem_choices_cons.1 h with ⟨u, hu, rfl⟩ | ⟨hy, hv⟩
    · exact Expands.keep y (ih hu)
    · exact Expands.append (u := [y]) (hnulls y hy) (ih hv)

namespace Grammar

variable {g : Grammar}

/-! ### The rules after the elimination -/

theorem mem_rhss_withoutEpsilon {A : Symbol} {v : Rhs} :
    v ∈ g.withoutEpsilon.rhss A ↔
      (∃ r ∈ g.rhss A, v ∈ r.choices g.nullable) ∧ (v ≠ [] ∨ A = g.start) := by
  simp only [rhss_withoutEpsilon, epsilonFreeRhss, Distinct.mem_ofList, List.mem_filter,
    List.mem_flatMap, Rhs.variants, Bool.or_eq_true, Bool.not_eq_true', decide_eq_true_eq,
    List.isEmpty_eq_false_iff]

theorem epsilonOnlyAtStart_withoutEpsilon : g.withoutEpsilon.EpsilonOnlyAtStart := by
  intro A h
  exact (mem_rhss_withoutEpsilon.1 h).2.resolve_left fun hne => hne rfl

/-- Dropping more symbols that were nullable gives a right-hand side that is there already. -/
theorem mem_rhss_withoutEpsilon_of_choice {s : SymbolSet} (sub : ∀ x ∈ s, x ∈ g.nullable)
    {A : Symbol} {r v : Rhs} (hr : r ∈ g.withoutEpsilon.rhss A) (hv : v ∈ r.choices s)
    (kept : v ≠ [] ∨ A = g.start) : v ∈ g.withoutEpsilon.rhss A := by
  obtain ⟨⟨r₀, hr₀, hchoice⟩, _⟩ := mem_rhss_withoutEpsilon.1 hr
  have again := Rhs.mem_choices_trans sub hchoice hv
  exact mem_rhss_withoutEpsilon.2 ⟨⟨r₀, hr₀, again⟩, kept⟩

theorem RulesOver.withoutEpsilon {K : Set Symbol} (h : g.RulesOver K) :
    g.withoutEpsilon.RulesOver K := by
  refine ⟨?_, ?_, ?_⟩
  · intro A v hv
    obtain ⟨⟨r, hr, _⟩, _⟩ := mem_rhss_withoutEpsilon.1 hv
    exact h.nonterminalLhss A r hr
  · intro A v hv
    obtain ⟨⟨r, hr, _⟩, _⟩ := mem_rhss_withoutEpsilon.1 hv
    exact h.lhs_mem A r hr
  · intro A v hv x hx
    obtain ⟨⟨r, hr, hchoice⟩, _⟩ := mem_rhss_withoutEpsilon.1 hv
    exact h.rhs_mem A r hr x (Rhs.subset_of_mem_choices hchoice x hx)

/-- The start symbol keeps an empty right-hand side if and only if it is nullable. -/
theorem nil_mem_rhss_withoutEpsilon :
    [] ∈ g.withoutEpsilon.rhss g.start ↔ g.start ∈ g.nullable := by
  have h : [] ∈ g.withoutEpsilon.rhss g.start ↔
      ∃ r ∈ g.rhss g.start, ∀ x ∈ r, x ∈ g.nullable := by
    simp only [mem_rhss_withoutEpsilon, Rhs.nil_mem_choices_iff, or_true, and_true]
  rw [h, nullable, mem_productive_iff]
  simp only [supported_iff, Bool.false_eq_true, false_or]

/-! ### Expansions -/

theorem expands_of_withoutEpsilon {u v : List Symbol}
    (h : Expands g.withoutEpsilon.ruleSet u v) : Expands g.ruleSet u v := by
  refine h.replay fun A v hv => ?_
  obtain ⟨⟨r, hr, hchoice⟩, _⟩ := mem_rhss_withoutEpsilon.1 hv
  have drop := expands_of_mem_choices (fun x hx => expands_nil_of_mem_nullable hx) hchoice
  exact (Expands.single hr).trans drop

/-- An expansion to a word is also one of a choice, without empty right-hand sides: an occurrence
    is dropped if and only if it contributes nothing. -/
theorem exists_choice_expands {u w : List Symbol} (h : Expands g.ruleSet u w) (hw : IsWord w) :
    ∃ v ∈ Rhs.choices g.nullable u, Expands (nonemptyRules g.withoutEpsilon.ruleSet) v w := by
  induction h with
  | nil => exact ⟨[], List.mem_singleton.2 rfl, Expands.nil⟩
  | keep x _ ih =>
    obtain ⟨v, hv, hexp⟩ := ih (isWord_cons.1 hw).2
    exact ⟨x :: v, Rhs.mem_choices_cons.2 (Or.inl ⟨v, hv, rfl⟩), Expands.keep x hexp⟩
  | @rule A r x u y mem body _ ihBody ih =>
    obtain ⟨hx, hy⟩ := isWord_append.1 hw
    obtain ⟨v, hv, hexp⟩ := ih hy
    obtain ⟨s, hs, hbody⟩ := ihBody hx
    by_cases hnil : x = []
    · -- The occurrence of `A` contributes nothing: drop it.
      subst hnil
      have hA : A ∈ g.nullable := mem_nullable_iff.2 ((Expands.single mem).trans body)
      exact ⟨v, Rhs.mem_choices_cons.2 (Or.inr ⟨hA, hv⟩), hexp⟩
    · have hs_ne : s ≠ [] := hbody.ne_nil hnil
      have rule : s ∈ g.withoutEpsilon.rhss A :=
        mem_rhss_withoutEpsilon.2 ⟨⟨r, mem, hs⟩, Or.inl hs_ne⟩
      exact ⟨A :: v, Rhs.mem_choices_cons.2 (Or.inl ⟨v, hv, rfl⟩),
        Expands.rule ⟨rule, hs_ne⟩ hbody hexp⟩

/-- Every symbol keeps its non-empty words, without the help of an empty right-hand side. -/
theorem expands_withoutEpsilon {A : Symbol} {w : List Symbol} (h : Expands g.ruleSet [A] w)
    (hw : IsWord w) (hne : w ≠ []) :
    Expands (nonemptyRules g.withoutEpsilon.ruleSet) [A] w := by
  obtain ⟨v, hv, hexp⟩ := exists_choice_expands h hw
  rcases Rhs.mem_choices_cons.1 hv with ⟨u, hu, rfl⟩ | ⟨_, hu⟩
  · rwa [List.mem_singleton.1 hu] at hexp
  · rw [List.mem_singleton.1 hu] at hexp
    exact absurd rfl (hexp.ne_nil hne)

end Grammar

end ContextFree
