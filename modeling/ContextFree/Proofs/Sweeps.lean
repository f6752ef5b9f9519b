/-
  ContextFree/Proofs/Sweeps.lean
  ==============================
  **Sweeps in place** find the productive symbols, in whatever order they visit the
  left-hand sides.

  The productive symbols are defined by rounds: each round looks at the set that the
  round before it has left.  A sweep visits one left-hand side after the other and
  looks at the set as it is by then, so what a sweep adds depends on the order of the
  visits, and so does the number of sweeps.  What the last one leaves does not
  (`Lists.sweeps_eq`).

  For the two analyses made of it, this gives the whole meaning of the result: which
  symbols are found, in terms of derivations, and that nothing but the rules decides it
  (`nullable_exact`, `generating_exact`).
-/
import ContextFree.Proofs.CleanUp

namespace ContextFree.Grammar

variable {g : Grammar} {base : Symbol → Bool} {es : List (Symbol × List Rhs)} {s : SymbolSet}

/-! ### Sweeps -/

/-- A list of left-hand sides with right-hand sides holds the rules of a grammar, in some order. -/
def Lists (g : Grammar) (es : List (Symbol × List Rhs)) : Prop :=
  ∀ A r, r ∈ g.rhss A ↔ ∃ rs, (A, rs) ∈ es ∧ r ∈ rs

theorem mem_visit {e : Symbol × List Rhs} {A : Symbol} :
    A ∈ visit base s e ↔ A ∈ s ∨ A = e.1 ∧ ∃ r ∈ e.2, supported base s r = true := by
  unfold visit
  split
  · rename_i some
    rw [SymbolSet.mem_insert, or_comm]
    exact or_congr_right (and_iff_left (List.any_eq_true.1 some)).symm
  · rename_i none
    refine (or_iff_left ?_).symm
    rintro ⟨-, some⟩
    exact none (List.any_eq_true.2 some)

theorem sweep_cons (e : Symbol × List Rhs) :
    sweep base (e :: es) s = sweep base es (visit base s e) := rfl

theorem mem_sweep_of_mem {A : Symbol} (hA : A ∈ s) : A ∈ sweep base es s := by
  induction es generalizing s with
  | nil => exact hA
  | cons e es ih => exact ih (mem_visit.2 (Or.inl hA))

/-- A left-hand side with a right-hand side that is supported before the sweep is there after it. -/
theorem mem_sweep_of_supported {e : Symbol × List Rhs} (he : e ∈ es) {r : Rhs} (hr : r ∈ e.2)
    (hs : supported base s r = true) : e.1 ∈ sweep base es s := by
  induction es generalizing s with
  | nil => exact absurd he List.not_mem_nil
  | cons d es ih =>
    rw [sweep_cons]
    rcases List.mem_cons.1 he with rfl | he
    · exact mem_sweep_of_mem (mem_visit.2 (Or.inr ⟨rfl, r, hr, hs⟩))
    · -- By the time of its visit the set has only grown.
      apply ih he
      exact supported_mono (fun x hx => mem_visit.2 (Or.inl hx)) hs

/-- A property that passes from the right-hand sides to the left-hand side is kept by a sweep. -/
theorem sweep_induction {P : Symbol → Prop}
    (step : ∀ e ∈ es, ∀ r ∈ e.2, (∀ x ∈ r, base x = true ∨ P x) → P e.1)
    (hs : ∀ A ∈ s, P A) : ∀ A ∈ sweep base es s, P A := by
  induction es generalizing s with
  | nil => exact hs
  | cons e es ih =>
    obtain ⟨here, later⟩ := List.forall_mem_cons.1 step
    apply ih later
    intro A hA
    rcases mem_visit.1 hA with hA | ⟨rfl, r, hr, supp⟩
    · exact hs A hA
    · exact here r hr fun x hx => (supported_iff.1 supp x hx).imp_right (hs x)

/-! ### What the sweeps end with -/

/-- Another sweep adds nothing. -/
theorem sweep_sweeps (base : Symbol → Bool) (es : List (Symbol × List Rhs)) :
    sweep base es (sweeps base es) = sweeps base es := by
  refine @grow_saturate _ (es.map Prod.fst) (fun s A => mem_sweep_of_mem) ?_ _ _ ?_
  · intro s
    apply sweep_induction
    · exact fun e he r _ _ => Or.inr (List.mem_map_of_mem he)
    · exact fun A hA => Or.inl hA
  · exact Nat.le_trans (List.length_filter_le _ _) (Nat.le_of_eq (List.length_map _))

namespace Lists

/-- The entries of the table, in any order. -/
theorem of_perm (perm : es.Perm g.table.entries) : g.Lists es := by
  intro A r
  constructor
  · intro hr
    obtain ⟨rs, hrs, mem⟩ := exists_entry_of_mem_rhss hr
    exact ⟨rs, perm.mem_iff.2 hrs, mem⟩
  · rintro ⟨rs, hrs, mem⟩
    rwa [rhss_eq_of_mem_entries (perm.mem_iff.1 hrs)]

variable (lists : g.Lists es)
include lists

theorem productive_of_mem_sweeps : ∀ A ∈ sweeps base es, A ∈ g.productive base := by
  refine saturate_induction (P := fun s => ∀ A ∈ s, A ∈ g.productive base) ?_ es.length ?_
  · intro s hs
    refine sweep_induction ?_ hs
    intro e he r hr supp
    exact mem_productive_of_supported ((lists e.1 r).2 ⟨e.2, he, hr⟩) supp
  · intro A hA
    exact absurd hA Std.ExtTreeSet.not_mem_empty

theorem mem_sweeps_of_productive : ∀ A ∈ g.productive base, A ∈ sweeps base es := by
  apply productive_induction
  intro A r hr supp
  obtain ⟨rs, he, mem⟩ := (lists A r).1 hr
  rw [← sweep_sweeps]
  exact mem_sweep_of_supported he mem (supported_iff.2 supp)

/-- Sweeps over the rules of a grammar, in any order, end with the productive symbols. -/
theorem sweeps_eq (base : Symbol → Bool) : sweeps base es = g.productive base := by
  apply Std.ExtTreeSet.ext_mem
  intro A
  exact ⟨lists.productive_of_mem_sweeps A, lists.mem_sweeps_of_productive A⟩

end Lists

/-! ### Nullable symbols -/

theorem nonterminalLhss_of_keys (keys : ∀ A ∈ g.table.keys, A.isNonterminal = true) :
    g.NonterminalLhss := fun A _ hr => keys A (mem_keys_of_mem_rhss hr)

/-- A symbol is not the empty string, so it takes a step to derive it. -/
theorem derives_nil_iff {A : Symbol} : g.Derives [A] [] ↔ ∃ n, g.DerivesIn (n + 1) [A] [] := by
  constructor
  · rintro ⟨n, h⟩
    cases n with
    | zero => cases h
    | succ n => exact ⟨n, h⟩
  · rintro ⟨n, h⟩
    exact ⟨n + 1, h⟩

/-- The nullable symbols are the non-terminals that derive the empty string in one or more steps.
    They are the same for every grammar with the same rules, and sweeps over the rules end with
    them, in whatever order the rules come. -/
theorem nullable_exact (keys : ∀ A ∈ g.table.keys, A.isNonterminal = true) :
    (∀ A, A ∈ g.nullable ↔ A.isNonterminal = true ∧ ∃ n, g.DerivesIn (n + 1) [A] []) ∧
    (∀ h : Grammar, h.ruleSet = g.ruleSet → h.nullable = g.nullable) ∧
    ∀ es, g.Lists es → sweeps (fun _ => false) es = g.nullable := by
  refine ⟨?_, fun h same => productive_eq_of_ruleSet_eq same, fun es lists => lists.sweeps_eq _⟩
  intro A
  have found : A ∈ g.nullable ↔ ∃ n, g.DerivesIn (n + 1) [A] [] := by
    rw [mem_nullable_iff, ← derives_iff_expands, derives_nil_iff]
  rw [← found]
  refine (and_iff_right_of_imp ?_).symm
  intro hA
  obtain ⟨r, hr, _⟩ := mem_productive_iff.1 hA
  exact nonterminalLhss_of_keys keys A r hr

/-- `S -> A B | C a`, `A -> B`, `B -> ε` and `C -> C a`: visited in this order, one left-hand side
    joins in each sweep. -/
def vanishing : Grammar :=
  (ofSymbols (.nonterminal "S") ∅ (.ofList [Symbol.terminal "a"])).addRules
    [⟨.nonterminal "S", [.nonterminal "A", .nonterminal "B"]⟩,
      ⟨.nonterminal "S", [.nonterminal "C", .terminal "a"]⟩,
      ⟨.nonterminal "A", [.nonterminal "B"]⟩,
      ⟨.nonterminal "B", []⟩,
      ⟨.nonterminal "C", [.nonterminal "C", .terminal "a"]⟩]

theorem nullable_exact_vanishing :
    (∀ A ∈ vanishing.table.keys, A.isNonterminal = true) ∧
    (∀ A, A ∈ vanishing.nullable ↔
      A.isNonterminal = true ∧ ∃ n, vanishing.DerivesIn (n + 1) [A] []) ∧
    (∀ h : Grammar, h.ruleSet = vanishing.ruleSet → h.nullable = vanishing.nullable) ∧
    vanishing.Lists vanishing.table.entries.reverse ∧
    ∀ es, vanishing.Lists es → sweeps (fun _ => false) es = vanishing.nullable := by
  have keys : ∀ A ∈ vanishing.table.keys, A.isNonterminal = true := by decide
  obtain ⟨derive, rules, order⟩ := nullable_exact keys
  exact ⟨keys, derive, rules, Lists.of_perm (List.reverse_perm _), order⟩

/-- A single sweep finds what the order of the visits lets it find. -/
example : [vanishing.table.entries, vanishing.table.entries.reverse].map
    (fun es => SymbolSet.sortedNames (sweep (fun _ => false) es ∅)) =
      [["B"], ["A", "B", "S"]] := by decide

/-! ### Generating symbols -/

/-- A non-terminal is generating if and only if it derives a word.  Without the symbols that derive
    none, a generating symbol keeps a right-hand side and has the words that it had.  Sweeps over
    the rules, in whatever order they come, end with the generating symbols. -/
theorem generating_exact (keys : ∀ A ∈ g.table.keys, A.isNonterminal = true) :
    (∀ A, A.isNonterminal = true → (A ∈ g.generating ↔ ∃ w, g.DerivesWord A w)) ∧
    (∀ A ∈ g.generating, A.isNonterminal = true ∧ g.onlyGenerating.rhss A ≠ [] ∧
      ∀ w, g.onlyGenerating.DerivesWord A w ↔ g.DerivesWord A w) ∧
    (∀ A, A.isNonterminal = true → A ∉ g.generating → ∀ w, ¬ g.DerivesWord A w) ∧
    ∀ es, g.Lists es → sweeps Symbol.isTerminal es = g.generating := by
  refine ⟨?_, ?_, ?_, fun es lists => lists.sweeps_eq _⟩
  · intro A kind
    exact mem_generating_iff_exists_derivesWord kind
  · intro A hA
    obtain ⟨r, hr, complete⟩ := mem_generating_iff.1 hA
    have left : r ∈ g.onlyGenerating.rhss A := mem_rhss_onlyGenerating.2 ⟨hr, complete⟩
    refine ⟨nonterminalLhss_of_keys keys A r hr, List.ne_nil_of_mem left, ?_⟩
    intro w
    exact derivesWord_onlyGenerating_iff
  · intro A kind none w derive
    exact none ((mem_generating_iff_exists_derivesWord kind).2 ⟨w, derive⟩)

theorem generating_exact_vanishing :
    (∀ A ∈ vanishing.table.keys, A.isNonterminal = true) ∧
    (∀ A, A.isNonterminal = true →
      (A ∈ vanishing.generating ↔ ∃ w, vanishing.DerivesWord A w)) ∧
    (∀ A ∈ vanishing.generating,
      A.isNonterminal = true ∧ vanishing.onlyGenerating.rhss A ≠ [] ∧
        ∀ w, vanishing.onlyGenerating.DerivesWord A w ↔ vanishing.DerivesWord A w) ∧
    (∀ A, A.isNonterminal = true → A ∉ vanishing.generating →
      ∀ w, ¬ vanishing.DerivesWord A w) ∧
    vanishing.Lists vanishing.table.entries.reverse ∧
    ∀ es, vanishing.Lists es → sweeps Symbol.isTerminal es = vanishing.generating := by
  have keys : ∀ A ∈ vanishing.table.keys, A.isNonterminal = true := by decide
  obtain ⟨derive, kept, none, order⟩ := generating_exact keys
  exact ⟨keys, derive, kept, none, Lists.of_perm (List.reverse_perm _), order⟩

end ContextFree.Grammar
