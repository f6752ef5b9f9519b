/-
  ContextFree/Proofs/GeneralConversion.lean
  =========================================
  **The conversion of any grammar**: one that no other stage has seen, with unit rules,
  empty right-hand sides and useless symbols, and with names that look like new ones
  (`toChomsky_keeps_words`).

  What the conversion abbreviates does not have to be clean, so every symbol that the
  supply knows keeps its words (`derivesWord_toChomsky_iff`).  Chains make right-hand
  sides short, and what is short already stays as it is
  (`mem_rhss_toChomsky_of_short`).  So the result is in normal form only if the short
  right-hand sides were (`isChomsky_toChomsky_iff`).
-/
import ContextFree.Grammar.Render
import ContextFree.Proofs.Reversal

namespace ContextFree.Grammar

variable {g : Grammar} {f : NameSupply}

/-! ### Words -/

theorem WellFormed.derivesWord_toChomsky_iff (hg : g.WellFormed)
    (hf : ∀ x, g.Declares x → x.name ∈ f.used) {A : Symbol} (hA : A ∈ g.nonterminals)
    (w : List String) : (g.toChomsky f).1.DerivesWord A w ↔ g.DerivesWord A w := by
  obtain ⟨φ, abbr⟩ := exists_abbreviates_ruleSet_toChomsky (mentionsOnly_ruleSet hg hf)
  rw [derivesWord_iff_expands, derivesWord_iff_expands]
  apply abbr.expands_iff
  · intro x hx
    rw [List.mem_singleton.1 hx]
    exact Or.inr (hf A (Or.inl hA))
  · intro x hx
    exact Or.inl (isWord_word w x hx)

/-! ### Lengths -/

theorem length_rhs_of_mem_splitRules {rs : List Rule} :
    ∀ s ∈ (splitRules rs f).1, s.rhs.length ≤ 2 := by
  induction rs generalizing f with
  | nil => exact List.forall_mem_nil _
  | cons r rs ih =>
    intro s hs
    rcases List.mem_append.1 hs with hs | hs
    · exact length_rhs_of_mem_splitRule hs
    · exact ih s hs

theorem length_le_of_mem_rhss_toChomsky {A : Symbol} {r : Rhs}
    (hr : r ∈ (g.toChomsky f).1.rhss A) : r.length ≤ 2 := by
  have rule : (⟨A, r⟩ : Rule) ∈ (g.toChomsky f).1.ruleSet := hr
  rw [ruleSet_toChomsky] at rule
  exact length_rhs_of_mem_splitRules _ rule

/-! ### Normal form -/

/-- Neither pass touches a right-hand side of less than two symbols. -/
theorem mem_rhss_toChomsky_of_short {A : Symbol} {r : Rhs} (hr : r ∈ g.rhss A)
    (short : r.length ≤ 1) : r ∈ (g.toChomsky f).1.rhss A := by
  have separated : (⟨A, r⟩ : Rule) ∈ (g.separateTerminals f).1.ruleSet := by
    rw [ruleSet_separateTerminals]
    apply mem_separatedRules.2
    refine Or.inl ⟨⟨A, r⟩, mem_rules.2 hr, ?_⟩
    apply if_neg
    intro long
    have two : 2 ≤ r.length := of_decide_eq_true long
    omega
  have split : (⟨A, r⟩ : Rule) ∈ (g.toChomsky f).1.ruleSet := by
    rw [ruleSet_toChomsky]
    exact (short_mem_splitRules short).2 (mem_rules.2 separated)
  exact split

/-- The conversion removes no defect of a short right-hand side and adds none. -/
theorem isChomsky_toChomsky_iff :
    (g.toChomsky f).1.isChomsky = true ↔ g.UnitFree ∧ g.EpsilonOnlyAtStart := by
  constructor
  · intro form
    refine ⟨?_, ?_⟩
    · intro A r hr
      by_cases short : r.length ≤ 1
      · exact unitFree_of_isChomsky form A r (mem_rhss_toChomsky_of_short hr short)
      · rw [Bool.eq_false_iff]
        intro unit
        obtain ⟨B, _, rfl⟩ := isUnit_iff.1 unit
        exact short (Nat.le_refl 1)
    · intro A hA
      have start := epsilonOnlyAtStart_of_isChomsky form A (nil_mem_rhss_toChomsky.2 hA)
      rwa [start_toChomsky] at start
  · rintro ⟨unitFree, epsilon⟩
    exact isChomsky_toChomsky epsilon unitFree f

/-- The conversion of a valid grammar, with a supply that knows its names, keeps the words of every
    non-terminal and has right-hand sides of at most two symbols.  It gives a normal form if and
    only if the grammar has no unit rule and no empty right-hand side off the start symbol. -/
theorem toChomsky_keeps_words (hg : g.Valid) (hf : ∀ x, g.Declares x → x.name ∈ f.used) :
    (∀ A ∈ g.nonterminals, ∀ w, (g.toChomsky f).1.DerivesWord A w ↔ g.DerivesWord A w) ∧
    (∀ A, ∀ r ∈ (g.toChomsky f).1.rhss A, r.length ≤ 2) ∧
    ((g.toChomsky f).1.isChomsky = true ↔ g.UnitFree ∧ g.EpsilonOnlyAtStart) := by
  refine ⟨?_, ?_, isChomsky_toChomsky_iff⟩
  · intro A hA w
    exact hg.wellFormed.derivesWord_toChomsky_iff hf hA w
  · intro A r hr
    exact length_le_of_mem_rhss_toChomsky hr

/-- `S -> a S b X1 | X1 | a`, `X1 -> ε` and `T_a -> T_a b`: a unit rule, an empty right-hand side
    off the start symbol, a symbol that no word needs, and two names that look like new ones. -/
def unnormalized : Grammar :=
  (ofSymbols (.nonterminal "S") ∅
    (.ofList [Symbol.terminal "a", Symbol.terminal "b"])).addRules
    [⟨.nonterminal "S",
        [.terminal "a", .nonterminal "S", .terminal "b", .nonterminal "X1"]⟩,
      ⟨.nonterminal "S", [.nonterminal "X1"]⟩,
      ⟨.nonterminal "S", [.terminal "a"]⟩,
      ⟨.nonterminal "X1", []⟩,
      ⟨.nonterminal "T_a", [.nonterminal "T_a", .terminal "b"]⟩]

theorem toChomsky_keeps_words_unnormalized :
    let f := NameSupply.ofUsed unnormalized.declaredNames
    unnormalized.Valid ∧ (∀ x, unnormalized.Declares x → x.name ∈ f.used) ∧
    (∀ A ∈ unnormalized.nonterminals, ∀ w,
      (unnormalized.toChomsky f).1.DerivesWord A w ↔ unnormalized.DerivesWord A w) ∧
    (∀ A, ∀ r ∈ (unnormalized.toChomsky f).1.rhss A, r.length ≤ 2) ∧
    ((unnormalized.toChomsky f).1.isChomsky = true ↔
      unnormalized.UnitFree ∧ unnormalized.EpsilonOnlyAtStart) := by
  intro f
  have valid : unnormalized.Valid := by decide
  have known : ∀ x, unnormalized.Declares x → x.name ∈ f.used :=
    fun _ hx => name_mem_declaredNames hx
  exact ⟨valid, known, toChomsky_keeps_words valid known⟩

example : (unnormalized.toChomsky (.ofUsed unnormalized.declaredNames)).1.renderLines =
    ["S -> T_a1 X2 | X1 | a", "T_a -> T_a T_b", "T_a1 -> a", "T_b -> b", "X1 -> ε", "X2 -> S X3",
      "X3 -> T_b X1"] := by decide

end ContextFree.Grammar
