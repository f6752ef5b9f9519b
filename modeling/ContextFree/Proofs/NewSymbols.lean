/-
  ContextFree/Proofs/NewSymbols.lean
  ==================================
  **The symbols that the conversion adds**: a preterminal for each terminal of a long
  right-hand side, and a link for each name that a chain takes.

  Two counts are kept over whole lists of rules, up to order.  Splitting adds one
  left-hand side for each link (`perm_lhs_splitRules`).  And it only moves symbols:
  together with the old left-hand sides, the new right-hand sides hold what the old
  ones held and the new left-hand sides (`perm_rhs_splitRules`), so a link occurs as
  often on the right as it does on the left.
-/
import ContextFree.Proofs.Allocation
import ContextFree.Proofs.ChomskyForm
import ContextFree.Proofs.WellFormed

namespace ContextFree

open NameSupply

namespace Grammar

variable {g : Grammar} {f : NameSupply}

/-! ### Links -/

theorem map_lhs_splitRule (A : Symbol) (r : Rhs) (f : NameSupply) :
    (splitRule A r f).1.map Rule.lhs = A :: (run (chainCalls r) f).1.map .nonterminal := by
  fun_induction splitRule A r f with
  | case1 A s t u rest f name f' hnext chain f'' hchain ih =>
    rw [hchain] at ih
    rw [chainCalls_cons, List.map_cons, ih]
    simp only [run, Call.answer, hnext, List.map_cons]
  | case2 A r f short =>
    rw [chainCalls_of_length_le (length_le_two short)]
    rfl

theorem perm_lhs_splitRules (rs : List Rule) (f : NameSupply) :
    ((splitRules rs f).1.map Rule.lhs).Perm
      (rs.map Rule.lhs ++ (run (rs.flatMap fun r => chainCalls r.rhs) f).1.map .nonterminal) := by
  induction rs generalizing f with
  | nil => exact List.Perm.refl _
  | cons r rs ih =>
    have step : (splitRules (r :: rs) f).1 =
        (splitRule r.lhs r.rhs f).1 ++ (splitRules rs (splitRule r.lhs r.rhs f).2).1 := rfl
    have rest := ih (run (chainCalls r.rhs) f).2
    rw [step, List.map_append, map_lhs_splitRule, snd_splitRule, List.flatMap_cons, run_append,
      List.map_append, List.map_cons, List.cons_append, List.cons_append]
    refine List.Perm.cons r.lhs ?_
    -- The links of the first chain move behind the other left-hand sides.
    refine (rest.append_left _).trans ?_
    rw [← List.append_assoc, ← List.append_assoc]
    exact List.perm_append_comm.append_right _

/-- A chain distributes the symbols of its right-hand side and repeats each link once. -/
theorem perm_rhs_splitRule (A : Symbol) (r : Rhs) (f : NameSupply) :
    (A :: (splitRule A r f).1.flatMap Rule.rhs).Perm (r ++ (splitRule A r f).1.map Rule.lhs) := by
  fun_induction splitRule A r f with
  | case1 A s t u rest f name f' hnext chain f'' hchain ih =>
    rw [hchain] at ih
    simp only [List.flatMap_cons, List.map_cons, List.cons_append, List.nil_append]
    -- `A` and `s` change places; the link stands before what the rest of the chain holds.
    refine (List.Perm.swap s A _).trans (List.Perm.cons s ?_)
    refine (List.Perm.cons A ih).trans ?_
    exact List.perm_middle.symm
  | case2 A r f short =>
    simp only [List.flatMap_cons, List.flatMap_nil, List.append_nil, List.map_cons, List.map_nil]
    exact (List.perm_append_singleton A r).symm

theorem perm_rhs_splitRules (rs : List Rule) (f : NameSupply) :
    (rs.map Rule.lhs ++ (splitRules rs f).1.flatMap Rule.rhs).Perm
      (rs.flatMap Rule.rhs ++ (splitRules rs f).1.map Rule.lhs) := by
  induction rs generalizing f with
  | nil => exact List.Perm.refl _
  | cons r rs ih =>
    have step : (splitRules (r :: rs) f).1 =
        (splitRule r.lhs r.rhs f).1 ++ (splitRules rs (splitRule r.lhs r.rhs f).2).1 := rfl
    have chain := perm_rhs_splitRule r.lhs r.rhs f
    have rest := ih (splitRule r.lhs r.rhs f).2
    rw [List.perm_iff_count] at chain rest ⊢
    intro x
    have here := chain x
    have there := rest x
    simp only [step, List.map_append, List.flatMap_append, List.map_cons, List.flatMap_cons,
      List.count_append, List.count_cons] at here there ⊢
    omega

/-! ### The two passes -/

/-- The rules of the conversion in the order in which they are added. -/
def chomskyRules (g : Grammar) (f : NameSupply) : List Rule :=
  (splitRules (g.separateTerminals f).1.rules (g.separateTerminals f).2).1

/-- The names of the links in the order of allocation. -/
def linkNames (g : Grammar) (f : NameSupply) : List String :=
  (run ((g.separateTerminals f).1.rules.flatMap fun r => chainCalls r.rhs)
    (g.separateTerminals f).2).1

theorem toChomsky_eq_addRules (g : Grammar) (f : NameSupply) :
    (g.toChomsky f).1 = (ofSymbols (g.separateTerminals f).1.start
      (g.separateTerminals f).1.nonterminals
      (g.separateTerminals f).1.terminals).addRules (g.chomskyRules f) := by
  simp only [toChomsky, splitLong, chomskyRules]

theorem separateTerminals_eq_addRules (g : Grammar) (f : NameSupply) :
    (g.separateTerminals f).1 = (ofSymbols g.start g.nonterminals g.terminals).addRules
      (separatedRules (allocatePreterminals g.longTerminals f).1 g.rules) := rfl

theorem terminals_separateTerminals (g : Grammar) (f : NameSupply) :
    (g.separateTerminals f).1.terminals = g.terminals := by
  rw [separateTerminals_eq_addRules, terminals_addRules]
  rfl

theorem terminals_toChomsky (g : Grammar) (f : NameSupply) :
    (g.toChomsky f).1.terminals = g.terminals := by
  rw [toChomsky_eq_addRules, terminals_addRules]
  exact terminals_separateTerminals g f

theorem map_lhs_separatedRules (ps : Preterminals) (rs : List Rule) :
    (separatedRules ps rs).map Rule.lhs = rs.map Rule.lhs ++ ps.map Prod.snd := by
  simp only [separatedRules, List.map_append, List.map_map, Function.comp_def, lhs_separate]

theorem known_subset_separateTerminals (g : Grammar) (f : NameSupply) :
    f.known ⊆ (g.separateTerminals f).2.known :=
  (allocatePreterminals_spec g.longTerminals f).2.2.2

theorem nodup_links (g : Grammar) (f : NameSupply) :
    ((g.linkNames f).map Symbol.nonterminal).Nodup :=
  (nodup_run _ _).map fun _ _ h => Symbol.nonterminal.inj h

/-- A link is a non-terminal that was not known, not even as a preterminal. -/
theorem not_mem_known_of_mem_linkNames {name : String} (h : name ∈ g.linkNames f) :
    Symbol.nonterminal name ∉ (g.separateTerminals f).2.known := by
  rintro (hterm | hname)
  · cases hterm
  · exact not_mem_used_of_mem_run h hname

theorem perm_lhs_chomskyRules (g : Grammar) (f : NameSupply) :
    ((g.chomskyRules f).map Rule.lhs).Perm
      ((g.separateTerminals f).1.rules.map Rule.lhs ++ (g.linkNames f).map .nonterminal) :=
  perm_lhs_splitRules _ _

theorem perm_rhs_chomskyRules (g : Grammar) (f : NameSupply) :
    ((g.separateTerminals f).1.rules.map Rule.lhs ++ (g.chomskyRules f).flatMap Rule.rhs).Perm
      ((g.separateTerminals f).1.rules.flatMap Rule.rhs ++ (g.chomskyRules f).map Rule.lhs) :=
  perm_rhs_splitRules _ _

/-- The new right-hand sides hold what the separated ones hold, and each link once. -/
theorem perm_rhs_linkNames (g : Grammar) (f : NameSupply) :
    ((g.chomskyRules f).flatMap Rule.rhs).Perm
      ((g.separateTerminals f).1.rules.flatMap Rule.rhs ++ (g.linkNames f).map .nonterminal) := by
  have moved := (perm_rhs_chomskyRules g f).trans ((perm_lhs_chomskyRules g f).append_left _)
  exact (List.perm_append_left_iff _).1 (moved.trans (List.perm_append_comm_assoc _ _ _))

/-! ### Declared non-terminals -/

theorem WellFormed.mem_nonterminals_of_mem_lhs (hg : g.WellFormed) {x : Symbol}
    (hx : x ∈ g.rules.map Rule.lhs) : x ∈ g.nonterminals := by
  obtain ⟨r, hr, rfl⟩ := List.mem_map.1 hx
  exact hg.lhs_mem_of_mem_rhss (mem_rules.1 hr)

theorem WellFormed.mem_nonterminals_ofSymbols (hg : g.WellFormed) {x : Symbol} :
    x ∈ (ofSymbols g.start g.nonterminals g.terminals).nonterminals ↔ x ∈ g.nonterminals := by
  refine SymbolSet.mem_insert.trans ⟨?_, Or.inr⟩
  rintro (rfl | hx)
  · exact hg.start_mem
  · exact hx

/-- The separation declares the preterminals. -/
theorem WellFormed.mem_nonterminals_separateTerminals (hg : g.WellFormed) {x : Symbol} :
    x ∈ (g.separateTerminals f).1.nonterminals ↔
      x ∈ g.nonterminals ∨ x ∈ (allocatePreterminals g.longTerminals f).1.map Prod.snd := by
  rw [separateTerminals_eq_addRules, mem_nonterminals_addRules, hg.mem_nonterminals_ofSymbols,
    map_lhs_separatedRules, List.mem_append, ← or_assoc]
  exact or_congr_left (or_iff_left_of_imp hg.mem_nonterminals_of_mem_lhs)

/-! ### Well-formed grammars -/

/-- Rules with new left-hand sides, which may be mentioned as soon as they have a rule. -/
theorem WellFormed.ofRules (hg : g.WellFormed) (hf : ∀ a ∈ g.terminals, a.name ∈ f.used)
    {rs : List Rule} (lhs : ∀ A ∈ rs.map Rule.lhs, A ∈ g.nonterminals ∨ A ∉ f.known)
    (rhs : ∀ x ∈ rs.flatMap Rule.rhs, g.Declares x ∨ x ∈ rs.map Rule.lhs) :
    ((ofSymbols g.start g.nonterminals g.terminals).addRules rs).WellFormed := by
  have nonterminals : ∀ x,
      x ∈ ((ofSymbols g.start g.nonterminals g.terminals).addRules rs).nonterminals ↔
        x ∈ g.nonterminals ∨ x ∈ rs.map Rule.lhs := by
    intro x
    rw [mem_nonterminals_addRules, hg.mem_nonterminals_ofSymbols]
  have terminals : ∀ a,
      a ∈ ((ofSymbols g.start g.nonterminals g.terminals).addRules rs).terminals ↔
        a ∈ g.terminals := by
    intro a
    rw [terminals_addRules]
    rfl
  refine ⟨?_, ?_, ?_, ?_, ?_, ?_⟩
  · rw [start_addRules]
    exact (nonterminals g.start).2 (Or.inl hg.start_mem)
  · intro x hx
    rcases (nonterminals x).1 hx with hx | hx
    · exact hg.isNonterminal_of_mem x hx
    · rcases lhs x hx with hx | hnew
      · exact hg.isNonterminal_of_mem x hx
      · exact (not_mem_known_iff.1 hnew).1
  · exact fun a ha => hg.isTerminal_of_mem a ((terminals a).1 ha)
  · intro x hx a ha
    have ha := (terminals a).1 ha
    have old : x ∈ g.nonterminals → x.name ≠ a.name := fun hx => hg.name_ne x hx a ha
    rcases (nonterminals x).1 hx with hx | hx
    · exact old hx
    · rcases lhs x hx with hx | hnew
      · exact old hx
      · intro heq
        exact (not_mem_known_iff.1 hnew).2 (heq ▸ hf a ha)
  · intro A hA
    refine (nonterminals A).2 (Or.inr ?_)
    exact (mem_keys_addRules.1 hA).resolve_left List.not_mem_nil
  · intro A r hr x hx
    have hrule : (⟨A, r⟩ : Rule) ∈ rs :=
      (mem_rhss_addRules.1 hr).resolve_left List.not_mem_nil
    rcases rhs x (List.mem_flatMap.2 ⟨_, hrule, hx⟩) with (hx | hx) | hx
    · exact Or.inl ((nonterminals x).2 (Or.inl hx))
    · exact Or.inr ((terminals x).2 hx)
    · exact Or.inl ((nonterminals x).2 (Or.inr hx))

theorem WellFormed.separateTerminals (hg : g.WellFormed)
    (hf : ∀ a ∈ g.terminals, a.name ∈ f.used) : (g.separateTerminals f).1.WellFormed := by
  obtain ⟨_, _, spec, _⟩ := allocatePreterminals_spec g.longTerminals f
  have outside := outside_allocatePreterminals (g := g) f
  rw [separateTerminals_eq_addRules]
  refine hg.ofRules hf ?_ ?_ <;> rw [map_lhs_separatedRules]
  · intro A hA
    rcases List.mem_append.1 hA with hA | hA
    · exact Or.inl (hg.mem_nonterminals_of_mem_lhs hA)
    · obtain ⟨p, hp, rfl⟩ := List.mem_map.1 hA
      exact Or.inr (spec p hp).2.1
  · intro x hx
    obtain ⟨s, hs, hx⟩ := List.mem_flatMap.1 hx
    have old : ∀ r ∈ g.rules, ∀ y ∈ r.rhs, g.Declares y :=
      fun r hr y hy => hg.declares r.lhs r.rhs (mem_rules.1 hr) y hy
    rcases mem_separatedRules.1 hs with ⟨r, hr, rfl⟩ | ⟨p, hp, rfl⟩
    · rcases mem_rhs_separate outside.nodup_fst hx with hx | hpre
      · exact Or.inl (old r hr x hx)
      · exact Or.inr (List.mem_append_right _ hpre)
    · rw [List.mem_singleton.1 hx]
      obtain ⟨_, r, hr, _, ha⟩ := mem_longTerminals.1 (mem_longTerminals_of_mem hp)
      exact Or.inl (old r hr p.1 ha)

theorem WellFormed.toChomsky (hg : g.WellFormed) (hf : ∀ a ∈ g.terminals, a.name ∈ f.used) :
    (g.toChomsky f).1.WellFormed := by
  have later : ∀ a ∈ (g.separateTerminals f).1.terminals,
      a.name ∈ (g.separateTerminals f).2.used := by
    intro a ha
    rw [terminals_separateTerminals] at ha
    rw [snd_separateTerminals]
    exact mem_used_run.2 (Or.inl (hf a ha))
  have separated := hg.separateTerminals hf
  rw [toChomsky_eq_addRules]
  refine separated.ofRules later ?_ ?_
  · intro A hA
    rcases List.mem_append.1 ((perm_lhs_chomskyRules g f).mem_iff.1 hA) with hA | hA
    · exact Or.inl (separated.mem_nonterminals_of_mem_lhs hA)
    · obtain ⟨name, hname, rfl⟩ := List.mem_map.1 hA
      exact Or.inr (not_mem_known_of_mem_linkNames hname)
  · intro x hx
    have moved := (perm_rhs_chomskyRules g f).mem_iff.1 (List.mem_append_right _ hx)
    rcases List.mem_append.1 moved with hx | hx
    · obtain ⟨r, hr, hx⟩ := List.mem_flatMap.1 hx
      exact Or.inl (separated.declares r.lhs r.rhs (mem_rules.1 hr) x hx)
    · exact Or.inr hx

/-- The conversion declares the preterminals and the links. -/
theorem WellFormed.mem_nonterminals_toChomsky (hg : g.WellFormed)
    (hf : ∀ a ∈ g.terminals, a.name ∈ f.used) {x : Symbol} :
    x ∈ (g.toChomsky f).1.nonterminals ↔ x ∈ g.nonterminals ∨
      x ∈ (allocatePreterminals g.longTerminals f).1.map Prod.snd ∨
        x ∈ (g.linkNames f).map .nonterminal := by
  have separated := hg.separateTerminals hf
  rw [toChomsky_eq_addRules, mem_nonterminals_addRules, separated.mem_nonterminals_ofSymbols,
    (perm_lhs_chomskyRules g f).mem_iff, List.mem_append, ← or_assoc,
    or_iff_left_of_imp separated.mem_nonterminals_of_mem_lhs,
    hg.mem_nonterminals_separateTerminals, or_assoc]

/-- What the conversion declares and its argument does not was not known. -/
theorem WellFormed.not_mem_known_of_toChomsky (hg : g.WellFormed)
    (hf : ∀ a ∈ g.terminals, a.name ∈ f.used) {x : Symbol} (hx : (g.toChomsky f).1.Declares x)
    (hnew : ¬ g.Declares x) : x ∉ f.known := by
  have hx : x ∈ (g.toChomsky f).1.nonterminals := by
    refine hx.resolve_right fun hterm => hnew (Or.inr ?_)
    rwa [terminals_toChomsky] at hterm
  rcases (hg.mem_nonterminals_toChomsky hf).1 hx with hx | hx | hx
  · exact absurd (Or.inl hx) hnew
  · obtain ⟨p, hp, rfl⟩ := List.mem_map.1 hx
    exact ((allocatePreterminals_spec g.longTerminals f).2.2.1 p hp).2.1
  · obtain ⟨name, hname, rfl⟩ := List.mem_map.1 hx
    exact fun hk => not_mem_known_of_mem_linkNames hname (known_subset_separateTerminals g f hk)

end Grammar

end ContextFree
