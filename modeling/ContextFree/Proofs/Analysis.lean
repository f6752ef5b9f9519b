/-
  ContextFree/Proofs/Analysis.lean
  ================================
  **What the analyses find.**

  The three analyses are saturations; each finds exactly the symbols that its
  name promises, in terms of derivations:

    * `mem_nullable_iff`   — the symbols that expand to the empty string;
    * `mem_generating_iff` — the symbols with a right-hand side that expands to a
      word;
    * `mem_reachable_iff`  — the symbols of the sentential forms.

  Soundness is an induction over the rounds of the saturation.  Completeness is
  an induction over the expansion and only uses that the result is closed.
-/
import ContextFree.Useless
import ContextFree.Proofs.Expansion

namespace ContextFree

/-- Only non-terminals have right-hand sides. -/
def Grammar.NonterminalLhss (g : Grammar) : Prop :=
  ∀ A r, r ∈ g.rhss A → A.isNonterminal = true

/-- Every rule rewrites a non-terminal and mentions symbols of `K` only. -/
structure Grammar.RulesOver (g : Grammar) (K : Set Symbol) : Prop where
  nonterminalLhss : g.NonterminalLhss
  lhs_mem : ∀ A r, r ∈ g.rhss A → A ∈ K
  rhs_mem : ∀ A r, r ∈ g.rhss A → ∀ x ∈ r, x ∈ K

/-- A symbol is reached if it occurs in a sentential form. -/
def Grammar.Reaches (g : Grammar) (x : Symbol) : Prop := ∃ u v, g.Sentential (u ++ x :: v)

namespace Grammar

variable {g : Grammar}

/-! ### Productive symbols -/

theorem supported_iff {base : Symbol → Bool} {s : SymbolSet} {u : Rhs} :
    supported base s u = true ↔ ∀ x ∈ u, base x = true ∨ x ∈ s := by
  simp only [supported, List.all_eq_true, Bool.or_eq_true, Std.ExtTreeSet.contains_iff_mem]

/-- A property that passes from the right-hand sides to the left-hand side holds of all productive
    symbols. -/
theorem productive_induction {base : Symbol → Bool} {P : Symbol → Prop}
    (step : ∀ A r, r ∈ g.rhss A → (∀ x ∈ r, base x = true ∨ P x) → P A) :
    ∀ A ∈ g.productive base, P A := by
  refine saturate_induction (P := fun s => ∀ A ∈ s, P A) ?_ g.table.size ?_
  · intro s hs A hA
    rcases mem_growProductive.1 hA with hA | ⟨r, hr, hsup⟩
    · exact hs A hA
    · exact step A r hr fun x hx => (supported_iff.1 hsup x hx).imp_right (hs x)
  · intro A hA
    exact absurd hA Std.ExtTreeSet.not_mem_empty

theorem mem_productive_of_supported {base : Symbol → Bool} {A : Symbol} {r : Rhs}
    (hr : r ∈ g.rhss A) (h : ∀ x ∈ r, base x = true ∨ x ∈ g.productive base) :
    A ∈ g.productive base := mem_productive_iff.2 ⟨r, hr, supported_iff.2 h⟩

/-- More rules make more symbols productive. -/
theorem productive_of_ruleSet_subset {h : Grammar} {base : Symbol → Bool}
    (sub : g.ruleSet ⊆ h.ruleSet) : ∀ A ∈ g.productive base, A ∈ h.productive base := by
  apply productive_induction
  intro A r hr supp
  exact mem_productive_of_supported (sub (a := ⟨A, r⟩) hr) supp

theorem productive_eq_of_ruleSet_eq {h : Grammar} {base : Symbol → Bool}
    (same : g.ruleSet = h.ruleSet) : g.productive base = h.productive base := by
  apply Std.ExtTreeSet.ext_mem
  intro A
  constructor
  · exact productive_of_ruleSet_subset same.subset A
  · exact productive_of_ruleSet_subset same.symm.subset A

/-! ### Nullable symbols -/

theorem expands_nil_of_mem_nullable {A : Symbol} (h : A ∈ g.nullable) :
    Expands g.ruleSet [A] [] := by
  refine productive_induction (P := fun x => Expands g.ruleSet [x] []) ?_ A h
  intro B r hr hx
  have body : Expands g.ruleSet r (r.flatMap fun _ => []) :=
    expands_flatMap fun x hxr => (hx x hxr).resolve_left (by simp)
  rw [List.flatMap_eq_nil_iff.2 fun _ _ => rfl] at body
  exact (Expands.single hr).trans body

theorem mem_nullable_of_expands_nil {u : List Symbol} (h : Expands g.ruleSet u []) :
    ∀ x ∈ u, x ∈ g.nullable := by
  generalize hv : ([] : List Symbol) = v at h
  induction h with
  | nil => exact fun x hx => absurd hx List.not_mem_nil
  | keep x _ _ => cases hv
  | @rule A r x u v mem _ _ ihBody ih =>
    obtain ⟨hx, hv⟩ := List.append_eq_nil_iff.1 hv.symm
    have hA : A ∈ g.nullable :=
      mem_productive_of_supported mem fun y hy => Or.inr (ihBody hx.symm y hy)
    exact List.forall_mem_cons.2 ⟨hA, ih hv.symm⟩

/-- The nullable symbols are those that expand to the empty string. -/
theorem mem_nullable_iff {A : Symbol} : A ∈ g.nullable ↔ Expands g.ruleSet [A] [] :=
  ⟨expands_nil_of_mem_nullable,
    fun h => mem_nullable_of_expands_nil h A (List.mem_singleton.2 rfl)⟩

/-! ### Generating symbols -/

theorem exists_completable_of_mem_generating {A : Symbol} (h : A ∈ g.generating) :
    ∃ r ∈ g.rhss A, Completable g.ruleSet r := by
  refine productive_induction (P := fun A => ∃ r ∈ g.rhss A, Completable g.ruleSet r) ?_ A h
  intro B r hr hx
  refine ⟨r, hr, completable_iff_forall.2 fun x hxr => ?_⟩
  rcases hx x hxr with hterm | ⟨s, hs, hcomp⟩
  · exact completable_of_isWord fun y hy => (List.mem_singleton.1 hy) ▸ hterm
  · exact hcomp.of_expands (Expands.single hs)

theorem supported_of_expands {u v : List Symbol} (h : Expands g.ruleSet u v)
    (hv : supported Symbol.isTerminal g.generating v = true) :
    supported Symbol.isTerminal g.generating u = true := by
  induction h with
  | nil => exact hv
  | keep x _ ih =>
    simp only [supported_iff, List.forall_mem_cons] at hv ih ⊢
    exact ⟨hv.1, ih hv.2⟩
  | rule mem _ _ ihBody ih =>
    -- Against the direction of the rule: its left-hand side joins the closed set.
    simp only [supported_iff, List.forall_mem_append, List.forall_mem_cons] at hv ihBody ih ⊢
    exact ⟨Or.inr (mem_productive_of_supported mem (ihBody hv.1)), ih hv.2⟩

/-- Strings of terminals and generating symbols are those that expand to a word. -/
theorem supported_generating_iff {u : List Symbol} :
    supported Symbol.isTerminal g.generating u = true ↔ Completable g.ruleSet u := by
  constructor
  · intro h
    refine completable_iff_forall.2 fun x hx => ?_
    rcases supported_iff.1 h x hx with hterm | hgen
    · exact completable_of_isWord fun y hy => (List.mem_singleton.1 hy) ▸ hterm
    · obtain ⟨r, hr, hcomp⟩ := exists_completable_of_mem_generating hgen
      exact hcomp.of_expands (Expands.single hr)
  · rintro ⟨w, hw, h⟩
    exact supported_of_expands h (supported_iff.2 fun x hx => Or.inl (hw x hx))

/-- The generating symbols are those with a right-hand side that expands to a word. -/
theorem mem_generating_iff {A : Symbol} :
    A ∈ g.generating ↔ ∃ r ∈ g.rhss A, Completable g.ruleSet r := by
  refine ⟨exists_completable_of_mem_generating, ?_⟩
  rintro ⟨r, hr, h⟩
  exact mem_productive_of_supported hr (supported_iff.1 (supported_generating_iff.2 h))

theorem exists_derivesWord_iff {A : Symbol} :
    (∃ w, g.DerivesWord A w) ↔ Completable g.ruleSet [A] := by
  rw [completable_iff_exists_word]
  exact exists_congr fun w => derivesWord_iff_expands

theorem rhss_ne_nil_of_derivesWord {A : Symbol} {w : List String} (hA : A.isNonterminal = true)
    (h : g.DerivesWord A w) : g.rhss A ≠ [] := by
  obtain ⟨r, hr, _⟩ := (derivesWord_iff_expands.1 h).exists_rule (isWord_word w) hA
  exact List.ne_nil_of_mem hr

/-- A non-terminal is generating if and only if it derives a word. -/
theorem mem_generating_iff_exists_derivesWord {A : Symbol} (hA : A.isNonterminal = true) :
    A ∈ g.generating ↔ ∃ w, g.DerivesWord A w := by
  rw [mem_generating_iff, exists_derivesWord_iff]
  constructor
  · rintro ⟨r, hr, complete⟩
    exact complete.of_expands (Expands.single hr)
  · rintro ⟨w, hw, expand⟩
    obtain ⟨r, hr, body⟩ := expand.exists_rule hw hA
    exact ⟨r, hr, w, hw, body⟩

/-! ### Reachable symbols -/

/-- A property of the start symbol that passes from the left-hand side to the right-hand sides holds
    of all reachable symbols. -/
theorem reachable_induction {P : Symbol → Prop} (start : P g.start)
    (step : ∀ A r, r ∈ g.rhss A → A.isNonterminal = true ∨ A = g.start → P A → ∀ x ∈ r, P x) :
    ∀ x ∈ g.reachable, P x := by
  refine saturate_induction (P := fun s => ∀ x ∈ s, P x) ?_ g.occurrenceCount ?_
  · intro s hs x hx
    rcases mem_growReachable.1 hx with hx | ⟨A, hA, follow, r, hr, hxr⟩
    · exact hs x hx
    · exact step A r hr follow (hs A hA) x hxr
  · intro x hx
    rw [SymbolSet.mem_singleton.1 hx]
    exact start

theorem reaches_of_mem_reachable {x : Symbol} (h : x ∈ g.reachable) : g.Reaches x := by
  refine reachable_induction (P := g.Reaches) ⟨[], [], Derives.refl [g.start]⟩ ?_ x h
  rintro A r hr _ ⟨u, v, huv⟩ x hxr
  obtain ⟨p, q, rfl⟩ := List.append_of_mem hxr
  refine ⟨u ++ p, q ++ v, huv.trans ?_⟩
  have step := ((Derives.refl u).append (Derives.ofRule hr)).append (Derives.refl v)
  simpa using step

/-- What reachable symbols expand to holds reachable symbols only. -/
theorem forall_mem_reachable_of_expands (hg : g.NonterminalLhss) {u v : List Symbol}
    (h : Expands g.ruleSet u v) (hu : ∀ x ∈ u, x ∈ g.reachable) : ∀ x ∈ v, x ∈ g.reachable := by
  induction h with
  | nil => exact hu
  | keep x _ ih =>
    obtain ⟨hx, hu⟩ := List.forall_mem_cons.1 hu
    exact List.forall_mem_cons.2 ⟨hx, ih hu⟩
  | rule mem _ _ ihBody ih =>
    obtain ⟨hA, hu⟩ := List.forall_mem_cons.1 hu
    refine List.forall_mem_append.2 ⟨ihBody fun x hx => ?_, ih hu⟩
    exact mem_reachable_of_mem_rhs hA (hg _ _ mem) mem hx

/-- The reachable symbols are those of the sentential forms. -/
theorem mem_reachable_iff (hg : g.NonterminalLhss) {x : Symbol} :
    x ∈ g.reachable ↔ g.Reaches x := by
  refine ⟨reaches_of_mem_reachable, ?_⟩
  rintro ⟨u, v, h⟩
  have start : ∀ y ∈ [g.start], y ∈ g.reachable := by
    intro y hy
    rw [List.mem_singleton.1 hy]
    exact start_mem_reachable g
  exact forall_mem_reachable_of_expands hg (sentential_iff_expands.1 h) start x (by simp)

end Grammar

end ContextFree
