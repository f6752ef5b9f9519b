/-
  ContextFree/Proofs/ChomskyForm.lean
  ===================================
  **The result of the conversion.**

    * `exists_abbreviates_toChomsky` — its rules abbreviate the rules that it is
      made from, with or without the empty right-hand sides;
    * `isChomsky_toChomsky`          — it is in Chomsky normal form, if only the
      start symbol had an empty right-hand side and no rule was a unit rule;
    * `nil_mem_rhss_toChomsky`       — the empty right-hand sides are the same.

  The only assumption on the supply is that it knows the symbols of the rules.
-/
import ContextFree.Proofs.Conversion
import ContextFree.Proofs.RuleLists
import ContextFree.Proofs.UnitElimination

namespace ContextFree.Grammar

variable {g : Grammar}

/-! ### Grammars made from a list of rules -/

theorem mem_rhss_addRules {rs : List Rule} {A : Symbol} {r : Rhs} :
    r ∈ (g.addRules rs).rhss A ↔ r ∈ g.rhss A ∨ ⟨A, r⟩ ∈ rs := by
  rw [rhss_addRules, Distinct.mem_append, mem_rhssOf]

theorem ruleSet_addRules_ofSymbols (S : Symbol) (nts ts : SymbolSet) (rs : List Rule) :
    ((ofSymbols S nts ts).addRules rs).ruleSet = listedRules rs := by
  ext r
  have empty : r.rhs ∉ (ofSymbols S nts ts).rhss r.lhs := List.not_mem_nil
  exact mem_rhss_addRules.trans (or_iff_right empty)

theorem ruleSet_eq_listedRules (g : Grammar) : g.ruleSet = listedRules g.rules := by
  ext r
  exact mem_rules.symm

/-! ### The two passes -/

theorem ruleSet_separateTerminals (f : NameSupply) :
    (g.separateTerminals f).1.ruleSet =
      listedRules (separatedRules (allocatePreterminals g.longTerminals f).1 g.rules) :=
  ruleSet_addRules_ofSymbols _ _ _ _

theorem ruleSet_toChomsky (f : NameSupply) :
    (g.toChomsky f).1.ruleSet =
      listedRules (splitRules (g.separateTerminals f).1.rules (g.separateTerminals f).2).1 :=
  ruleSet_addRules_ofSymbols _ _ _ _

theorem start_toChomsky (f : NameSupply) : (g.toChomsky f).1.start = g.start := by
  have second : (g.toChomsky f).1.start = (g.separateTerminals f).1.start := start_addRules _
  have first : (g.separateTerminals f).1.start = g.start := start_addRules _
  rw [second, first]

theorem mem_longTerminals {a : Symbol} :
    a ∈ g.longTerminals ↔
      a.isTerminal = true ∧ ∃ r ∈ g.rules, Rhs.isLong r.rhs = true ∧ a ∈ r.rhs := by
  simp only [longTerminals, Distinct.mem_ofList, List.mem_flatMap, List.mem_filter]
  constructor
  · rintro ⟨r, ⟨hr, hlong⟩, ha, hterm⟩
    exact ⟨hterm, r, hr, hlong, ha⟩
  · rintro ⟨hterm, r, hr, hlong, ha⟩
    exact ⟨r, ⟨hr, hlong⟩, ha, hterm⟩

/-! ### With or without the empty right-hand sides -/

section Parts

variable {p : Rhs → Bool} (hp : ∀ r ≠ [], p r = true)
include hp

theorem filter_separatedRules (ps : Preterminals) (rs : List Rule) :
    (separatedRules ps rs).filter (fun r => p r.rhs) =
      separatedRules ps (rs.filter fun r => p r.rhs) := by
  have same : ∀ r, p (Rule.separate ps r).rhs = p r.rhs := by
    intro r
    rw [rhs_separate]
    split
    · rename_i hlong
      have hne : r.rhs ≠ [] := by
        intro h
        rw [h] at hlong
        cases hlong
      rw [hp _ hne, hp _ (by simpa using hne)]
    · rfl
  have all : (ps.map fun q => (⟨q.2, [q.1]⟩ : Rule)).filter (fun r => p r.rhs) =
      ps.map fun q => (⟨q.2, [q.1]⟩ : Rule) := by
    refine List.filter_eq_self.2 fun r hr => ?_
    obtain ⟨q, _, rfl⟩ := List.mem_map.1 hr
    exact hp _ (List.cons_ne_nil _ _)
  unfold separatedRules
  rw [List.filter_append, List.filter_map, all]
  simp only [Function.comp_def, same]

theorem forall_mem_splitRule {A : Symbol} {r : Rhs} {f : NameSupply} (hr : p r = true) :
    ∀ s ∈ (splitRule A r f).1, p s.rhs = true := by
  fun_induction splitRule A r f with
  | case1 A s t u rest f name f' _ chain f'' hchain ih =>
    rw [hchain] at ih
    exact List.forall_mem_cons.2
      ⟨hp _ (List.cons_ne_nil _ _), ih (hp _ (List.cons_ne_nil _ _))⟩
  | case2 A r f _ => exact List.forall_mem_singleton.2 hr

theorem filter_splitRules (rs : List Rule) (f : NameSupply) :
    (splitRules rs f).1.filter (fun r => p r.rhs) =
      (splitRules (rs.filter fun r => p r.rhs) f).1 := by
  induction rs generalizing f with
  | nil => rfl
  | cons r rs ih =>
    have step : ∀ ss, (splitRules (r :: ss) f).1 =
        (splitRule r.lhs r.rhs f).1 ++ (splitRules ss (splitRule r.lhs r.rhs f).2).1 :=
      fun _ => rfl
    by_cases hr : p r.rhs = true
    · have kept : (r :: rs).filter (fun r => p r.rhs) = r :: rs.filter fun r => p r.rhs :=
        List.filter_cons_of_pos hr
      rw [kept, step, step, List.filter_append, ih,
        List.filter_eq_self.2 (forall_mem_splitRule hp hr)]
    · -- A rule that is left out is its own chain and takes no name, so the others get the same.
      have hnil : r.rhs = [] := Classical.byContradiction fun hne => hr (hp _ hne)
      have single : splitRule r.lhs r.rhs f = ([⟨r.lhs, r.rhs⟩], f) := by
        rw [hnil]
        rfl
      have dropped : ∀ ss, (r :: ss).filter (fun r => p r.rhs) = ss.filter fun r => p r.rhs :=
        fun _ => List.filter_cons_of_neg hr
      rw [dropped, step, single, ← ih]
      exact dropped _

end Parts

theorem setOf_mem_listedRules (p : Rhs → Bool) (rs : List Rule) :
    {r | r ∈ listedRules rs ∧ p r.rhs = true} = listedRules (rs.filter fun r => p r.rhs) := by
  ext r
  exact (List.mem_filter (p := fun r : Rule => p r.rhs)).symm

/-! ### Abbreviation -/

theorem outside_allocatePreterminals (f : NameSupply) :
    (allocatePreterminals g.longTerminals f).1.Outside f.known := by
  obtain ⟨fst, nodup, spec, _⟩ := allocatePreterminals_spec g.longTerminals f
  refine ⟨?_, nodup, fun p hp => (spec p hp).2.1⟩
  rw [fst]
  exact Distinct.nodup_ofList _

theorem mem_longTerminals_of_mem {f : NameSupply} {q : Symbol × Symbol}
    (hq : q ∈ (allocatePreterminals g.longTerminals f).1) : q.1 ∈ g.longTerminals := by
  have fst := (allocatePreterminals_spec g.longTerminals f).1
  rw [← fst]
  exact List.mem_map.2 ⟨q, hq, rfl⟩

theorem mentionsOnly_separateTerminals {f : NameSupply} (hg : MentionsOnly f.known g.ruleSet) :
    MentionsOnly (g.separateTerminals f).2.known (g.separateTerminals f).1.ruleSet := by
  obtain ⟨_, _, spec, sub⟩ := allocatePreterminals_spec g.longTerminals f
  have outside := outside_allocatePreterminals (g := g) f
  rw [ruleSet_separateTerminals]
  intro s hs
  rcases mem_separatedRules.1 hs with ⟨r, hr, rfl⟩ | ⟨q, hq, rfl⟩
  · obtain ⟨hlhs, hrhs⟩ := hg r (mem_rules.1 hr)
    refine ⟨?_, fun x hx => ?_⟩
    · rw [lhs_separate]
      exact sub hlhs
    · rcases mem_rhs_separate outside.nodup_fst hx with hx | hpre
      · exact sub (hrhs x hx)
      · obtain ⟨q, hq, rfl⟩ := List.mem_map.1 hpre
        exact (spec q hq).2.2
  · refine ⟨(spec q hq).2.2, List.forall_mem_singleton.2 ?_⟩
    exact Or.inl (mem_longTerminals.1 (mem_longTerminals_of_mem hq)).1

/-- The conversion abbreviates, whether the empty right-hand sides are looked at or not. -/
theorem exists_abbreviates_toChomsky {p : Rhs → Bool} (hp : ∀ r ≠ [], p r = true)
    {f : NameSupply} (hg : MentionsOnly f.known g.ruleSet) :
    ∃ φ, Abbreviates f.known {r | r ∈ g.ruleSet ∧ p r.rhs = true}
      {r | r ∈ (g.toChomsky f).1.ruleSet ∧ p r.rhs = true} φ := by
  have sub : f.known ⊆ (g.separateTerminals f).2.known :=
    (allocatePreterminals_spec g.longTerminals f).2.2.2
  have first : Abbreviates f.known {r | r ∈ g.ruleSet ∧ p r.rhs = true}
      {r | r ∈ (g.separateTerminals f).1.ruleSet ∧ p r.rhs = true}
      (allocatePreterminals g.longTerminals f).1.meaning := by
    rw [ruleSet_separateTerminals, ruleSet_eq_listedRules g, setOf_mem_listedRules,
      setOf_mem_listedRules, filter_separatedRules hp]
    refine abbreviates_separatedRules ?_ (outside_allocatePreterminals f) fun q hq => ?_
    · exact fun r hr => hg r (mem_rules.1 (List.mem_filter.1 hr).1)
    · obtain ⟨hterm, r, hr, hlong, ha⟩ := mem_longTerminals.1 (mem_longTerminals_of_mem hq)
      exact ⟨Or.inl hterm, r,
        List.mem_filter.2 ⟨hr, hp _ (List.ne_nil_of_mem ha)⟩, hlong, ha⟩
  -- The chains are built over all that is known by then, preterminals included.
  have second : ∃ ψ, Abbreviates (g.separateTerminals f).2.known
      {r | r ∈ (g.separateTerminals f).1.ruleSet ∧ p r.rhs = true}
      {r | r ∈ (g.toChomsky f).1.ruleSet ∧ p r.rhs = true} ψ := by
    have known : MentionsOnly (g.separateTerminals f).2.known
        (∅ ∪ listedRules ((g.separateTerminals f).1.rules.filter fun r => p r.rhs)) := by
      rw [Set.empty_union]
      intro r hr
      exact mentionsOnly_separateTerminals hg r (mem_rules.1 (List.mem_filter.1 hr).1)
    rw [ruleSet_toChomsky, ruleSet_eq_listedRules (g.separateTerminals f).1,
      setOf_mem_listedRules, setOf_mem_listedRules, filter_splitRules hp]
    have split := exists_abbreviates_splitRules known
    rwa [Set.empty_union, Set.empty_union] at split
  obtain ⟨ψ, second⟩ := second
  exact ⟨_, first.trans second sub⟩

theorem exists_abbreviates_ruleSet_toChomsky {f : NameSupply}
    (hg : MentionsOnly f.known g.ruleSet) :
    ∃ φ, Abbreviates f.known g.ruleSet (g.toChomsky f).1.ruleSet φ := by
  obtain ⟨φ, abbr⟩ := exists_abbreviates_toChomsky (p := fun _ => true) (fun _ _ => rfl) hg
  simp only [and_true, Set.ofPred_mem_eq] at abbr
  exact ⟨φ, abbr⟩

theorem exists_abbreviates_nonemptyRules_toChomsky {f : NameSupply}
    (hg : MentionsOnly f.known g.ruleSet) :
    ∃ φ, Abbreviates f.known (nonemptyRules g.ruleSet)
      (nonemptyRules (g.toChomsky f).1.ruleSet) φ := by
  obtain ⟨φ, abbr⟩ := exists_abbreviates_toChomsky (p := fun r => !r.isEmpty)
    (fun r hr => by simpa using hr) hg
  simp only [Bool.not_eq_true', List.isEmpty_eq_false_iff] at abbr
  exact ⟨φ, abbr⟩

/-! ### Empty right-hand sides -/

/-- The rules of a chain with less than two symbols are those that were not split. -/
theorem short_mem_splitRule {A B : Symbol} {r u : Rhs} {f : NameSupply} (hu : u.length ≤ 1) :
    (⟨B, u⟩ : Rule) ∈ (splitRule A r f).1 ↔ (⟨B, u⟩ : Rule) = ⟨A, r⟩ := by
  have apart : ∀ C s, 2 ≤ s.length → ¬ (⟨B, u⟩ : Rule) = ⟨C, s⟩ := by
    intro C s hs heq
    have hlength : u.length = s.length := congrArg (fun p : Rule => p.rhs.length) heq
    omega
  fun_induction splitRule A r f with
  | case1 A s t v rest f name f' _ chain f'' hchain ih =>
    rw [hchain] at ih
    have pair : ¬ (⟨B, u⟩ : Rule) = ⟨A, [s, .nonterminal name]⟩ := apart _ _ (Nat.le_refl 2)
    have link := apart (.nonterminal name) (t :: v :: rest) (Nat.le_add_left 2 _)
    have long := apart A (s :: t :: v :: rest) (Nat.le_add_left 2 _)
    rw [List.mem_cons, or_iff_right pair]
    exact ih.trans (iff_of_false link long)
  | case2 A r f _ => exact List.mem_singleton

theorem short_mem_splitRules {B : Symbol} {u : Rhs} (hu : u.length ≤ 1) {rs : List Rule}
    {f : NameSupply} : (⟨B, u⟩ : Rule) ∈ (splitRules rs f).1 ↔ (⟨B, u⟩ : Rule) ∈ rs := by
  induction rs generalizing f with
  | nil => exact Iff.rfl
  | cons r rs ih =>
    have step : (⟨B, u⟩ : Rule) ∈ (splitRules (r :: rs) f).1 ↔
        (⟨B, u⟩ : Rule) ∈ (splitRule r.lhs r.rhs f).1 ∨
          (⟨B, u⟩ : Rule) ∈ (splitRules rs (splitRule r.lhs r.rhs f).2).1 := List.mem_append
    rw [step, short_mem_splitRule hu, ih, List.mem_cons]

theorem nil_mem_separatedRules {B : Symbol} {ps : Preterminals} {rs : List Rule} :
    (⟨B, []⟩ : Rule) ∈ separatedRules ps rs ↔ (⟨B, []⟩ : Rule) ∈ rs := by
  rw [mem_separatedRules]
  constructor
  · rintro (⟨r, hr, heq⟩ | ⟨q, _, heq⟩)
    · have hnil : (Rule.separate ps r).rhs = [] := congrArg Rule.rhs heq
      have hlhs : r.lhs = B := (lhs_separate ps r).symm.trans (congrArg Rule.lhs heq)
      rw [rhs_separate] at hnil
      split at hnil
      · rename_i hlong
        rw [List.map_eq_nil_iff.1 hnil] at hlong
        cases hlong
      · rw [← hlhs, ← hnil]
        exact hr
    · cases congrArg Rule.rhs heq
  · exact fun h => Or.inl ⟨_, h, rfl⟩

theorem nil_mem_rhss_toChomsky {f : NameSupply} {A : Symbol} :
    [] ∈ (g.toChomsky f).1.rhss A ↔ [] ∈ g.rhss A := by
  have last : [] ∈ (g.toChomsky f).1.rhss A ↔ (⟨A, []⟩ : Rule) ∈ (g.toChomsky f).1.ruleSet :=
    Iff.rfl
  have middle : (⟨A, []⟩ : Rule) ∈ (g.separateTerminals f).1.rules ↔
      (⟨A, []⟩ : Rule) ∈ (g.separateTerminals f).1.ruleSet := mem_rules
  rw [last, ruleSet_toChomsky]
  refine (short_mem_splitRules (u := []) (Nat.zero_le 1)).trans ?_
  rw [middle, ruleSet_separateTerminals]
  exact nil_mem_separatedRules.trans mem_rules

/-! ### Left-hand sides -/

theorem isNonterminal_lhs_of_mem_splitRule {A : Symbol} {r : Rhs} {f : NameSupply}
    (hA : A.isNonterminal = true) :
    ∀ s ∈ (splitRule A r f).1, s.lhs.isNonterminal = true := by
  fun_induction splitRule A r f with
  | case1 A s t u rest f name f' _ chain f'' hchain ih =>
    rw [hchain] at ih
    exact List.forall_mem_cons.2 ⟨hA, ih rfl⟩
  | case2 A r f _ => exact List.forall_mem_singleton.2 hA

theorem isNonterminal_lhs_of_mem_splitRules {rs : List Rule} {f : NameSupply}
    (h : ∀ r ∈ rs, r.lhs.isNonterminal = true) :
    ∀ s ∈ (splitRules rs f).1, s.lhs.isNonterminal = true := by
  induction rs generalizing f with
  | nil => exact List.forall_mem_nil _
  | cons r rs ih =>
    obtain ⟨hr, hrs⟩ := List.forall_mem_cons.1 h
    exact List.forall_mem_append.2 ⟨isNonterminal_lhs_of_mem_splitRule hr, ih hrs⟩

theorem NonterminalLhss.toChomsky (hg : g.NonterminalLhss) (f : NameSupply) :
    (g.toChomsky f).1.NonterminalLhss := by
  have separated : ∀ s ∈ (g.separateTerminals f).1.ruleSet, s.lhs.isNonterminal = true := by
    obtain ⟨_, _, spec, _⟩ := allocatePreterminals_spec g.longTerminals f
    rw [ruleSet_separateTerminals]
    intro s hs
    rcases mem_separatedRules.1 hs with ⟨r, hr, rfl⟩ | ⟨q, hq, rfl⟩
    · rw [lhs_separate]
      exact hg r.lhs r.rhs (mem_rules.1 hr)
    · exact (spec q hq).1
  have split : ∀ s ∈ (g.toChomsky f).1.ruleSet, s.lhs.isNonterminal = true := by
    rw [ruleSet_toChomsky]
    exact isNonterminal_lhs_of_mem_splitRules fun r hr => separated r (mem_rules.1 hr)
  exact fun A r hr => split ⟨A, r⟩ hr

/-! ### Normal form -/

theorem isChomsky_iff : g.isChomsky = true ↔ ∀ r ∈ g.ruleSet, chomskyRule g.start r = true := by
  simp only [isChomsky, List.all_eq_true, mem_rules]
  rfl

/-- In normal form a right-hand side is empty, a terminal or a pair of non-terminals. -/
theorem rhs_cases_of_isChomsky (h : g.isChomsky = true) {A : Symbol} {r : Rhs}
    (hr : r ∈ g.rhss A) :
    (r = [] ∧ A = g.start) ∨ (∃ a, r = [a] ∧ a.isTerminal = true) ∨
      ∃ B C, r = [B, C] ∧ B.isNonterminal = true ∧ C.isNonterminal = true := by
  have form : chomskyRule g.start ⟨A, r⟩ = true := isChomsky_iff.1 h ⟨A, r⟩ hr
  rcases r with _ | ⟨B, _ | ⟨C, _ | ⟨D, rest⟩⟩⟩
  · exact Or.inl ⟨rfl, of_decide_eq_true form⟩
  · exact Or.inr (Or.inl ⟨B, rfl, form⟩)
  · have kinds : (B.isNonterminal && C.isNonterminal) = true := form
    rw [Bool.and_eq_true] at kinds
    exact Or.inr (Or.inr ⟨B, C, rfl, kinds⟩)
  · cases form

/-- A rule that splitting brings into normal form. -/
structure Separated (S : Symbol) (r : Rule) : Prop where
  lhs_eq : r.rhs = [] → r.lhs = S
  isTerminal : ∀ a, r.rhs = [a] → a.isTerminal = true
  isNonterminal : Rhs.isLong r.rhs = true → ∀ x ∈ r.rhs, x.isNonterminal = true

theorem chomskyRule_of_mem_splitRule {S A : Symbol} {r : Rhs} {f : NameSupply}
    (h : Separated S ⟨A, r⟩) : ∀ s ∈ (splitRule A r f).1, chomskyRule S s = true := by
  fun_induction splitRule A r f with
  | case1 A s t u rest f name f' _ chain f'' hchain ih =>
    obtain ⟨hs, hrest⟩ := List.forall_mem_cons.1 (h.isNonterminal rfl)
    have tail : Separated S ⟨.nonterminal name, t :: u :: rest⟩ :=
      ⟨fun e => (by cases e), fun a e => (by cases e), fun _ => hrest⟩
    have chained := ih tail
    rw [hchain] at chained
    refine List.forall_mem_cons.2 ⟨?_, chained⟩
    simp [chomskyRule, hs]
  | case2 A r f short =>
    refine List.forall_mem_singleton.2 ?_
    rcases r with _ | ⟨B, _ | ⟨C, _ | ⟨D, rest⟩⟩⟩
    · exact decide_eq_true (h.lhs_eq rfl)
    · exact h.isTerminal B rfl
    · have hB := h.isNonterminal rfl B List.mem_cons_self
      have hC := h.isNonterminal rfl C (List.mem_cons_of_mem _ List.mem_cons_self)
      simp [chomskyRule, hB, hC]
    · exact absurd rfl (short B C D rest)

theorem chomskyRule_of_mem_splitRules {S : Symbol} {rs : List Rule} {f : NameSupply}
    (h : ∀ r ∈ rs, Separated S r) : ∀ s ∈ (splitRules rs f).1, chomskyRule S s = true := by
  induction rs generalizing f with
  | nil => exact fun s hs => absurd hs List.not_mem_nil
  | cons r rs ih =>
    obtain ⟨hr, hrs⟩ := List.forall_mem_cons.1 h
    exact List.forall_mem_append.2 ⟨chomskyRule_of_mem_splitRule hr, ih hrs⟩

/-- A long right-hand side has no terminals after the separation. -/
theorem isNonterminal_apply {f : NameSupply} {r : Rule} (hr : r ∈ g.rules)
    (hlong : Rhs.isLong r.rhs = true) {x : Symbol} (hx : x ∈ r.rhs) :
    (Preterminals.apply (allocatePreterminals g.longTerminals f).1 x).isNonterminal = true := by
  obtain ⟨fst, _, spec, _⟩ := allocatePreterminals_spec g.longTerminals f
  by_cases hmem : x ∈ (allocatePreterminals g.longTerminals f).1.map Prod.fst
  · obtain ⟨q, hq, rfl⟩ := List.mem_map.1 hmem
    rw [Preterminals.apply_of_mem (outside_allocatePreterminals f).nodup_fst hq]
    exact (spec q hq).1
  · rw [Preterminals.apply_of_not_mem hmem]
    rw [fst] at hmem
    cases x with
    | nonterminal a => rfl
    | terminal a => exact absurd (mem_longTerminals.2 ⟨rfl, r, hr, hlong, hx⟩) hmem

theorem separated_separateTerminals (hε : g.EpsilonOnlyAtStart) (hu : g.UnitFree)
    (f : NameSupply) : ∀ r ∈ (g.separateTerminals f).1.ruleSet, Separated g.start r := by
  rw [ruleSet_separateTerminals]
  intro s hs
  rcases mem_separatedRules.1 hs with ⟨r, hr, rfl⟩ | ⟨q, hq, rfl⟩
  · have hmem : r.rhs ∈ g.rhss r.lhs := mem_rules.1 hr
    by_cases hlong : Rhs.isLong r.rhs = true
    · have two : 2 ≤ ((r.rhs.map
          (Preterminals.apply (allocatePreterminals g.longTerminals f).1)).length) := by
        rw [List.length_map]
        exact of_decide_eq_true hlong
      refine ⟨?_, ?_, ?_⟩ <;> rw [rhs_separate, if_pos hlong]
      · intro e
        rw [e] at two
        cases two
      · intro a e
        rw [e] at two
        simp at two
      · intro _ x hx
        obtain ⟨y, hy, rfl⟩ := List.mem_map.1 hx
        exact isNonterminal_apply hr hlong hy
    · refine ⟨?_, ?_, ?_⟩ <;> rw [rhs_separate, if_neg hlong]
      · intro e
        rw [lhs_separate]
        exact hε _ (e ▸ hmem)
      · intro a e
        have hunit := hu _ _ hmem
        rw [e] at hunit
        cases a with
        | nonterminal b => cases hunit
        | terminal b => rfl
      · exact fun h => absurd h hlong
  · refine ⟨fun e => (by cases e), ?_, fun h => (by cases h)⟩
    rintro a e
    cases e
    exact (mem_longTerminals.1 (mem_longTerminals_of_mem hq)).1

/-- The conversion gives a normal form. -/
theorem isChomsky_toChomsky (hε : g.EpsilonOnlyAtStart) (hu : g.UnitFree) (f : NameSupply) :
    (g.toChomsky f).1.isChomsky = true := by
  rw [isChomsky_iff, ruleSet_toChomsky, start_toChomsky]
  refine chomskyRule_of_mem_splitRules fun r hr => ?_
  exact separated_separateTerminals hε hu f r (mem_rules.1 hr)

theorem epsilonOnlyAtStart_of_isChomsky (h : g.isChomsky = true) : g.EpsilonOnlyAtStart :=
  fun A hA => of_decide_eq_true (isChomsky_iff.1 h ⟨A, []⟩ hA)

theorem unitFree_of_isChomsky (h : g.isChomsky = true) : g.UnitFree := by
  intro A r hr
  rw [Bool.eq_false_iff]
  intro hunit
  obtain ⟨B, hB, rfl⟩ := isUnit_iff.1 hunit
  have hterm : B.isTerminal = true := isChomsky_iff.1 h ⟨A, [B]⟩ hr
  exact Symbol.not_isTerminal hB hterm

end ContextFree.Grammar
