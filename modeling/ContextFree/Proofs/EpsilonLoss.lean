/-
  ContextFree/Proofs/EpsilonLoss.lean
  ===================================
  **What the elimination of unit rules loses** where the start symbol has an empty
  right-hand side.

  That right-hand side is not copied, so a symbol whose unit rules lead back to the
  start symbol may lose the empty word.  With it go the words of the language that
  need an occurrence of such a symbol to contribute nothing, and no others:
  `expands_withoutUnits_iff` follows the derivations that are left.

  The language stays if each right-hand side may do without such symbols (`MayDrop`).
  The elimination of empty right-hand sides sees to that (`mayDrop_withoutEpsilon`);
  a grammar that merely has no empty right-hand side but at the start symbol need not
  be of this kind (`not_generates_backToStart`).
-/
import ContextFree.Proofs.UnitElimination
import ContextFree.Proofs.WellFormed

namespace ContextFree

/-- An expansion in which no symbol of `s` is replaced by the empty string. -/
inductive ExpandsKeeping (R : Set Rule) (s : SymbolSet) : List Symbol → List Symbol → Prop where
  | nil : ExpandsKeeping R s [] []
  | keep (x : Symbol) {u v : List Symbol} (rest : ExpandsKeeping R s u v) :
      ExpandsKeeping R s (x :: u) (x :: v)
  | rule {A : Symbol} {r x u v : List Symbol} (mem : ⟨A, r⟩ ∈ R) (body : ExpandsKeeping R s r x)
      (kept : A ∈ s → x ≠ []) (rest : ExpandsKeeping R s u v) :
      ExpandsKeeping R s (A :: u) (x ++ v)

namespace ExpandsKeeping

variable {R : Set Rule} {s : SymbolSet}

theorem expands {u v : List Symbol} (h : ExpandsKeeping R s u v) : Expands R u v := by
  induction h with
  | nil => exact Expands.nil
  | keep x _ ih => exact Expands.keep x ih
  | rule mem _ _ _ ihBody ih => exact Expands.rule mem ihBody ih

theorem append {u u' v v' : List Symbol} (h₁ : ExpandsKeeping R s u u')
    (h₂ : ExpandsKeeping R s v v') : ExpandsKeeping R s (u ++ v) (u' ++ v') := by
  induction h₁ with
  | nil => exact h₂
  | keep x _ ih => exact keep x ih
  | rule mem body kept _ _ ih =>
    rw [List.append_assoc]
    exact rule mem body kept ih

theorem single {A : Symbol} {r x : List Symbol} (mem : ⟨A, r⟩ ∈ R) (body : ExpandsKeeping R s r x)
    (kept : A ∈ s → x ≠ []) : ExpandsKeeping R s [A] x := by
  have h := rule mem body kept nil
  rwa [List.append_nil] at h

end ExpandsKeeping

namespace Grammar

variable {g : Grammar}

/-- The symbols that derive the empty word, but no longer without the unit rules. -/
def losingEpsilon (g : Grammar) : SymbolSet :=
  g.nullable.select fun A => !g.withoutUnits.nullable.contains A

/-- Right-hand sides may do without symbols of `s`: what is left of one is empty or another
    right-hand side of the same symbol. -/
def MayDrop (g : Grammar) (s : SymbolSet) : Prop :=
  ∀ A r, r ∈ g.rhss A → ∀ v ∈ r.choices s, v = [] ∨ v ∈ g.rhss A

theorem mem_losingEpsilon {A : Symbol} : A ∈ g.losingEpsilon ↔
    Expands g.ruleSet [A] [] ∧ ¬ Expands g.withoutUnits.ruleSet [A] [] := by
  unfold losingEpsilon
  rw [SymbolSet.mem_select, mem_nullable_iff, Bool.not_eq_true', ← Bool.not_eq_true,
    Std.ExtTreeSet.contains_iff_mem, mem_nullable_iff]

theorem expands_nil_of_not_mem_losingEpsilon {A : Symbol} (hA : A ∉ g.losingEpsilon)
    (h : Expands g.ruleSet [A] []) : Expands g.withoutUnits.ruleSet [A] [] := by
  by_contra lost
  exact hA (mem_losingEpsilon.2 ⟨h, lost⟩)

instance (g : Grammar) : Decidable g.EpsilonOnlyAtStart :=
  decidable_of_iff (∀ e ∈ g.table.entries, ∀ r ∈ e.2, [] = r → e.1 = g.start)
    ((forall_entries_iff (P := fun A r => [] = r → A = g.start)).trans
      ⟨fun h A hA => h A [] hA rfl, by rintro h A _ hr rfl; exact h A hr⟩)

instance (g : Grammar) (s : SymbolSet) : Decidable (g.MayDrop s) :=
  decidable_of_iff (∀ e ∈ g.table.entries, ∀ r ∈ e.2, ∀ v ∈ r.choices s,
      v = [] ∨ (g.rhss e.1).contains v = true) <| by
    simp only [List.contains_iff_mem]
    exact forall_entries_iff (P := fun A r => ∀ v ∈ r.choices s, v = [] ∨ v ∈ g.rhss A)

/-! ### The derivations that are left -/

theorem expandsKeeping_of_unitPath {s : SymbolSet} {A B : Symbol} {r x : List Symbol}
    (path : g.UnitPath A B) (hr : r ∈ g.rhss B) (body : ExpandsKeeping g.ruleSet s r x)
    (kept : ∀ C, g.UnitPath C B → C ∈ s → x ≠ []) : ExpandsKeeping g.ruleSet s [A] x := by
  induction path using Relation.ReflTransGen.head_induction_on with
  | refl => exact ExpandsKeeping.single hr body (kept B Relation.ReflTransGen.refl)
  | @head A C step path ih =>
    exact ExpandsKeeping.single (mem_unitTargets.1 step).2 ih (kept A (path.head step))

theorem expandsKeeping_of_withoutUnits (hg : g.EpsilonOnlyAtStart) {u w : List Symbol}
    (h : Expands g.withoutUnits.ruleSet u w) :
    ExpandsKeeping g.ruleSet g.losingEpsilon u w := by
  induction h with
  | nil => exact ExpandsKeeping.nil
  | keep x _ ih => exact ExpandsKeeping.keep x ih
  | @rule A r x u y mem body _ ihBody ih =>
    obtain ⟨⟨B, path, hB⟩, hunit, hempty⟩ := mem_rhss_withoutUnits.1 mem
    refine ExpandsKeeping.append (u := [A]) ?_ ih
    by_cases hr : r = []
    · -- Only the start symbol has the rule, and it has it without a path.
      subst hr
      have hA : B = A := (hg B hB).trans (hempty.resolve_left fun hne => hne rfl).symm
      refine ExpandsKeeping.single (hA ▸ hB) ihBody fun hlose => ?_
      exact absurd (Expands.single mem) (mem_losingEpsilon.1 hlose).2
    · -- Every symbol on the path has the rule as well, and derives with it what `A` derives.
      refine expandsKeeping_of_unitPath path hB ihBody fun C hC hlose => ?_
      rintro rfl
      have rule : r ∈ g.withoutUnits.rhss C :=
        mem_rhss_withoutUnits.2 ⟨⟨B, hC, hB⟩, hunit, Or.inl hr⟩
      exact (mem_losingEpsilon.1 hlose).2 ((Expands.single rule).trans body)

/-- A rule in front of what is left is only lost with the empty word, as a unit rule that leads to a
    start symbol with an empty right-hand side. -/
theorem expands_withoutUnits_of_rule {A : Symbol} {r : Rhs} {x : List Symbol} (mem : r ∈ g.rhss A)
    (hr : r ≠ []) (hx : IsWord x) (body : Expands g.withoutUnits.ruleSet r x) :
    Expands g.withoutUnits.ruleSet [A] x ∨
      x = [] ∧ g.start ∈ g.unitTargets A ∧ [] ∈ g.withoutUnits.rhss g.start := by
  by_cases hunit : Rhs.isUnit r = true
  · obtain ⟨B, hB, rfl⟩ := isUnit_iff.1 hunit
    have step : B ∈ g.unitTargets A := mem_unitTargets.2 ⟨hB, mem⟩
    obtain ⟨t, ht, hexp⟩ := body.exists_rule hx hB
    by_cases hne : t = []
    · subst hne
      have hstart : B = g.start := epsilonOnlyAtStart_withoutUnits B ht
      subst hstart
      cases hexp
      exact Or.inr ⟨rfl, step, ht⟩
    · have rule := mem_rhss_withoutUnits_of_target step ht hne
      exact Or.inl ((Expands.single rule).trans hexp)
  · have rule := mem_rhss_withoutUnits_of_mem mem (Bool.eq_false_iff.2 hunit) hr
    exact Or.inl ((Expands.single rule).trans body)

theorem expands_withoutUnits_of_keeping {u w : List Symbol}
    (h : ExpandsKeeping g.ruleSet g.losingEpsilon u w) (hw : IsWord w) :
    Expands g.withoutUnits.ruleSet u w := by
  induction h with
  | nil => exact Expands.nil
  | keep x _ ih => exact Expands.keep x (ih (isWord_cons.1 hw).2)
  | @rule A r x u y mem body kept _ ihBody ih =>
    obtain ⟨hx, hy⟩ := isWord_append.1 hw
    refine Expands.append (u := [A]) ?_ (ih hy)
    by_cases hnil : x = []
    · -- `A` derives the empty word and does not lose it.
      subst hnil
      exact expands_nil_of_not_mem_losingEpsilon (fun hA => kept hA rfl)
        ((Expands.single mem).trans body.expands)
    · have hr : r ≠ [] := body.expands.ne_nil hnil
      exact (expands_withoutUnits_of_rule mem hr hx (ihBody hx)).resolve_right fun lost => hnil lost.1

/-- What is left are the derivations in which no symbol that loses the empty word derives it. -/
theorem expands_withoutUnits_iff (hg : g.EpsilonOnlyAtStart) {u w : List Symbol} (hw : IsWord w) :
    Expands g.withoutUnits.ruleSet u w ↔ ExpandsKeeping g.ruleSet g.losingEpsilon u w :=
  ⟨expandsKeeping_of_withoutUnits hg, fun h => expands_withoutUnits_of_keeping h hw⟩

/-! ### The empty word -/

/-- The start symbol does not lose the empty word. -/
theorem generates_nil_withoutUnits_iff (hg : g.EpsilonOnlyAtStart) :
    g.withoutUnits.Generates [] ↔ g.Generates [] := by
  rw [generates_iff_expands, generates_iff_expands]
  refine ⟨expands_of_withoutUnits, fun h => ?_⟩
  obtain ⟨A, hA⟩ := exists_mem_of_expands_nil h (List.cons_ne_nil _ _)
  have own : [] ∈ g.rhss g.start := hg A hA ▸ hA
  exact Expands.single ((nil_mem_rhss_withoutUnits hg).2 own)

/-- No symbol loses the empty word if no unit rule leads back to a start symbol that has an empty
    right-hand side. -/
theorem expands_nil_withoutUnits (hg : g.EpsilonOnlyAtStart)
    (apart : [] ∈ g.rhss g.start → ∀ A, g.UnitPath A g.start → A = g.start) {u : List Symbol}
    (h : Expands g.ruleSet u []) : Expands g.withoutUnits.ruleSet u [] := by
  generalize hv : ([] : List Symbol) = v at h
  induction h with
  | nil => exact Expands.nil
  | keep x _ _ => cases hv
  | @rule A r x u v mem body _ ihBody ih =>
    obtain ⟨rfl, rfl⟩ := List.append_eq_nil_iff.1 hv.symm
    refine Expands.append (u := [A]) ?_ (ih rfl)
    have body' := ihBody rfl
    by_cases hr : r = []
    · subst hr
      have own : [] ∈ g.rhss g.start := hg A mem ▸ mem
      rw [hg A mem]
      exact Expands.single ((nil_mem_rhss_withoutUnits hg).2 own)
    · rcases expands_withoutUnits_of_rule mem hr isWord_nil body' with h | ⟨_, step, ht⟩
      · exact h
      · -- The rule leads from the start symbol to itself.
        have own := (nil_mem_rhss_withoutUnits hg).1 ht
        rw [apart own A (Relation.ReflTransGen.single step)]
        exact Expands.single ht

/-! ### When the language stays -/

/-- An expansion is also one of what is left when the symbols that lose the empty word are dropped
    where they contribute nothing. -/
theorem exists_choice_expandsKeeping (hg : g.EpsilonOnlyAtStart) (drop : g.MayDrop g.losingEpsilon)
    {u w : List Symbol} (h : Expands g.ruleSet u w) :
    ∃ v ∈ Rhs.choices g.losingEpsilon u, ExpandsKeeping g.ruleSet g.losingEpsilon v w := by
  induction h with
  | nil => exact ⟨[], List.mem_singleton.2 rfl, ExpandsKeeping.nil⟩
  | keep x _ ih =>
    obtain ⟨v, hv, hexp⟩ := ih
    exact ⟨x :: v, Rhs.mem_choices_cons.2 (Or.inl ⟨v, hv, rfl⟩), ExpandsKeeping.keep x hexp⟩
  | @rule A r x u y mem body _ ihBody ih =>
    obtain ⟨v, hv, hexp⟩ := ih
    obtain ⟨t, ht, hbody⟩ := ihBody
    by_cases hnil : x = []
    · subst hnil
      have nullable := (Expands.single mem).trans body
      by_cases hA : A ∈ g.losingEpsilon
      · exact ⟨v, Rhs.mem_choices_cons.2 (Or.inr ⟨hA, hv⟩), hexp⟩
      · have whole := expandsKeeping_of_withoutUnits hg
          (expands_nil_of_not_mem_losingEpsilon hA nullable)
        exact ⟨A :: v, Rhs.mem_choices_cons.2 (Or.inl ⟨v, hv, rfl⟩), whole.append hexp⟩
    · have rule : t ∈ g.rhss A := (drop A r mem t ht).resolve_left (hbody.expands.ne_nil hnil)
      exact ⟨A :: v, Rhs.mem_choices_cons.2 (Or.inl ⟨v, hv, rfl⟩),
        ExpandsKeeping.rule rule hbody (fun _ => hnil) hexp⟩

theorem generates_withoutUnits_iff_of_mayDrop (hg : g.EpsilonOnlyAtStart)
    (drop : g.MayDrop g.losingEpsilon) (w : List String) :
    g.withoutUnits.Generates w ↔ g.Generates w := by
  by_cases hne : w = []
  · rw [hne]
    exact generates_nil_withoutUnits_iff hg
  · rw [generates_iff_expands, generates_iff_expands]
    refine ⟨expands_of_withoutUnits, fun h => ?_⟩
    obtain ⟨v, hv, hexp⟩ := exists_choice_expandsKeeping hg drop h
    -- The start symbol itself is not dropped, since it contributes the whole word.
    rcases Rhs.mem_choices_cons.1 hv with ⟨t, ht, rfl⟩ | ⟨_, ht⟩
    · rw [List.mem_singleton.1 ht] at hexp
      exact expands_withoutUnits_of_keeping hexp (isWord_word w)
    · rw [List.mem_singleton.1 ht] at hexp
      exact absurd rfl (hexp.expands.ne_nil (word_ne_nil hne))

theorem mayDrop_of_unitPath (hg : g.EpsilonOnlyAtStart)
    (apart : [] ∈ g.rhss g.start → ∀ A, g.UnitPath A g.start → A = g.start) :
    g.MayDrop g.losingEpsilon := by
  have none : ∀ x, x ∉ g.losingEpsilon := fun x hx =>
    (mem_losingEpsilon.1 hx).2 (expands_nil_withoutUnits hg apart (mem_losingEpsilon.1 hx).1)
  intro A r hr v hv
  rw [Rhs.eq_of_mem_choices (fun x _ => none x) hv]
  exact Or.inr hr

/-- The elimination of empty right-hand sides leaves rules that may do without these symbols. -/
theorem mayDrop_withoutEpsilon (g : Grammar) :
    g.withoutEpsilon.MayDrop g.withoutEpsilon.losingEpsilon := by
  intro A r hr v hv
  have nulls : ∀ x ∈ g.withoutEpsilon.losingEpsilon, x ∈ g.nullable := fun x hx =>
    mem_nullable_iff.2 (expands_of_withoutEpsilon (mem_losingEpsilon.1 hx).1)
  by_cases hne : v = []
  · exact Or.inl hne
  · exact Or.inr (mem_rhss_withoutEpsilon_of_choice nulls hr hv (Or.inl hne))

/-- Where only the start symbol may have an empty right-hand side, no unit rule is left and no word
    is new.  The words that are left are those with a derivation in which no symbol that loses the
    empty word derives it, and the empty word is one of them if it was one before.  All words are
    left if right-hand sides may do without such symbols, and if no unit rules lead from another
    symbol to a start symbol with an empty right-hand side. -/
theorem withoutUnits_language (hg : g.EpsilonOnlyAtStart) :
    g.withoutUnits.UnitFree ∧ (∀ w, g.withoutUnits.Generates w → g.Generates w) ∧
      (∀ w, g.withoutUnits.Generates w ↔
        ExpandsKeeping g.ruleSet g.losingEpsilon [g.start] (word w)) ∧
      (g.withoutUnits.Generates [] ↔ g.Generates []) ∧
      (g.MayDrop g.losingEpsilon → ∀ w, g.withoutUnits.Generates w ↔ g.Generates w) ∧
      (([] ∈ g.rhss g.start → ∀ A, g.UnitPath A g.start → A = g.start) →
        ∀ w, g.withoutUnits.Generates w ↔ g.Generates w) := by
  refine ⟨unitFree_withoutUnits, fun w hw => ?_, fun w => ?_, generates_nil_withoutUnits_iff hg,
    ?_, ?_⟩
  · rw [generates_iff_expands] at hw ⊢
    exact expands_of_withoutUnits hw
  · rw [generates_iff_expands]
    exact expands_withoutUnits_iff hg (isWord_word w)
  · exact generates_withoutUnits_iff_of_mayDrop hg
  · exact fun apart => generates_withoutUnits_iff_of_mayDrop hg (mayDrop_of_unitPath hg apart)

/-- `S -> A b | b | ε` and `A -> S`: `A` loses the empty word, and `A b` may do without it. -/
def optionalPrefix : Grammar :=
  (ofSymbols (.nonterminal "S") ∅ (.ofList [Symbol.terminal "b"])).addRules
    [⟨.nonterminal "S", [.nonterminal "A", .terminal "b"]⟩,
      ⟨.nonterminal "S", [.terminal "b"]⟩,
      ⟨.nonterminal "S", []⟩,
      ⟨.nonterminal "A", [.nonterminal "S"]⟩]

theorem withoutUnits_language_optionalPrefix :
    optionalPrefix.Valid ∧ optionalPrefix.EpsilonOnlyAtStart ∧
      Symbol.nonterminal "A" ∈ optionalPrefix.losingEpsilon ∧
      optionalPrefix.MayDrop optionalPrefix.losingEpsilon ∧
      optionalPrefix.withoutUnits.UnitFree ∧
      ∀ w, optionalPrefix.withoutUnits.Generates w ↔ optionalPrefix.Generates w := by
  have epsilon : optionalPrefix.EpsilonOnlyAtStart := by decide
  have drop : optionalPrefix.MayDrop optionalPrefix.losingEpsilon := by decide
  obtain ⟨unitFree, _, _, _, same, _⟩ := withoutUnits_language epsilon
  exact ⟨by decide, epsilon, by decide, drop, unitFree, same drop⟩

/-! ### A word that is lost -/

/-- `S -> A b | ε` and `A -> S`: without its unit rule `A` derives no word. -/
def backToStart : Grammar :=
  (ofSymbols (.nonterminal "S") ∅ (.ofList [Symbol.terminal "b"])).addRules
    [⟨.nonterminal "S", [.nonterminal "A", .terminal "b"]⟩,
      ⟨.nonterminal "S", []⟩,
      ⟨.nonterminal "A", [.nonterminal "S"]⟩]

/-- A grammar with no empty right-hand side but at the start symbol loses the word `b`. -/
theorem not_generates_backToStart :
    backToStart.Valid ∧ backToStart.EpsilonOnlyAtStart ∧
      backToStart.Generates ["b"] ∧ ¬ backToStart.withoutUnits.Generates ["b"] := by
  refine ⟨by decide, by decide, ?_, fun lost => ?_⟩
  · have first : [.nonterminal "A", .terminal "b"] ∈ backToStart.rhss backToStart.start := by decide
    have back : [backToStart.start] ∈ backToStart.rhss (.nonterminal "A") := by decide
    have empty : [] ∈ backToStart.rhss backToStart.start := by decide
    have vanish := (Derives.ofRule back).trans (Derives.ofRule empty)
    exact (Derives.ofRule first).trans (vanish.append (Derives.refl [.terminal "b"]))
  · rcases expands_singleton.1 (generates_iff_expands.1 lost) with same | ⟨r, hr, body⟩
    · cases same
    · have listed : backToStart.withoutUnits.rhss backToStart.withoutUnits.start =
          [[.nonterminal "A", .terminal "b"], []] := by decide
      have mem : r ∈ backToStart.withoutUnits.rhss backToStart.withoutUnits.start := hr
      rw [listed] at mem
      rcases List.mem_cons.1 mem with rfl | mem
      · -- `A` would have to derive a word.
        have dead := supported_generating_iff.2 ⟨_, isWord_word ["b"], body⟩
        exact absurd dead (by decide)
      · rw [List.mem_singleton.1 mem] at body
        cases body

end Grammar

end ContextFree
