/-
  ContextFree/Proofs/RuleLists.lean
  =================================
  **Grammars made from a list of rules.**

  `rhssOf A rs` lists the right-hand sides that a list of rules gives to `A`, in
  order.  A grammar with the rules of a list has these, without repeats
  (`rhss_addRules`), and the list `g.rules` has the right-hand sides of `g`
  (`rhssOf_rules`), so the two directions are inverse up to the order of the
  left-hand sides.
-/
import ContextFree.Grammar.Basic
import Mathlib.Data.List.Nodup
import Mathlib.Data.List.Perm.Subperm

namespace ContextFree

/-- The right-hand sides that a list of rules gives to a left-hand side. -/
def rhssOf (A : Symbol) (rs : List Rule) : List Rhs :=
  (rs.filter fun r => r.lhs = A).map Rule.rhs

variable {A : Symbol} {rs ss : List Rule}

theorem rhssOf_cons (r : Rule) :
    rhssOf A (r :: rs) = if r.lhs = A then r.rhs :: rhssOf A rs else rhssOf A rs := by
  unfold rhssOf
  rw [List.filter_cons]
  by_cases h : r.lhs = A <;> simp [h]

@[simp] theorem rhssOf_append : rhssOf A (rs ++ ss) = rhssOf A rs ++ rhssOf A ss := by
  simp [rhssOf]

@[simp] theorem mem_rhssOf {r : Rhs} : r ∈ rhssOf A rs ↔ (⟨A, r⟩ : Rule) ∈ rs := by
  simp only [rhssOf, List.mem_map, List.mem_filter, decide_eq_true_eq]
  constructor
  · rintro ⟨s, ⟨hs, rfl⟩, rfl⟩
    exact hs
  · intro h
    exact ⟨⟨A, r⟩, ⟨h, rfl⟩, rfl⟩

theorem rhssOf_eq_nil (h : A ∉ rs.map Rule.lhs) : rhssOf A rs = [] := by
  refine List.eq_nil_iff_forall_not_mem.2 fun r hr => h ?_
  exact List.mem_map_of_mem (mem_rhssOf.1 hr)

theorem length_rhssOf (A : Symbol) (rs : List Rule) :
    (rhssOf A rs).length = (rs.map Rule.lhs).count A := by
  induction rs with
  | nil => rfl
  | cons r rs ih =>
    rw [rhssOf_cons, List.map_cons, List.count_cons]
    by_cases h : r.lhs = A <;> simp [h, ih]

/-- No rule is in a list twice if no right-hand side is. -/
theorem nodup_of_nodup_rhssOf (h : ∀ A, (rhssOf A rs).Nodup) : rs.Nodup := by
  rw [List.nodup_iff_sublist]
  intro r hr
  have twice := (hr.filter fun s => s.lhs = r.lhs).map Rule.rhs
  have pair : ([r, r].filter fun s => s.lhs = r.lhs).map Rule.rhs = [r.rhs, r.rhs] := by simp
  rw [pair] at twice
  exact List.nodup_iff_sublist.1 (h r.lhs) r.rhs twice

namespace Grammar

variable {g : Grammar}

/-! ### From a list to a grammar -/

theorem rhss_addRules (g : Grammar) (rs : List Rule) (A : Symbol) :
    (g.addRules rs).rhss A = Distinct.append (g.rhss A) (rhssOf A rs) := by
  induction rs generalizing g with
  | nil => rfl
  | cons r rs ih =>
    have rest : (g.addRules (r :: rs)).rhss A = ((g.addRule r).addRules rs).rhss A := rfl
    rw [rest, ih, rhss_addRule, rhssOf_cons]
    split <;> rfl

theorem rhss_addRules_ofSymbols (S : Symbol) (nts ts : SymbolSet) (rs : List Rule) (A : Symbol) :
    ((ofSymbols S nts ts).addRules rs).rhss A = Distinct.ofList (rhssOf A rs) :=
  rhss_addRules _ rs A

theorem mem_nonterminals_addRules {x : Symbol} :
    x ∈ (g.addRules rs).nonterminals ↔ x ∈ g.nonterminals ∨ x ∈ rs.map Rule.lhs := by
  induction rs generalizing g with
  | nil => simp [addRules]
  | cons r rs ih =>
    have rest : (g.addRules (r :: rs)).nonterminals =
        ((g.addRule r).addRules rs).nonterminals := rfl
    have first : x ∈ (g.addRule r).nonterminals ↔ x = r.lhs ∨ x ∈ g.nonterminals :=
      SymbolSet.mem_insert
    rw [rest, ih, first, List.map_cons, List.mem_cons, or_assoc, or_left_comm]

theorem start_addRules (rs : List Rule) : (g.addRules rs).start = g.start := by
  induction rs generalizing g with
  | nil => rfl
  | cons s rs ih => exact ih

theorem terminals_addRules (g : Grammar) (rs : List Rule) :
    (g.addRules rs).terminals = g.terminals := by
  induction rs generalizing g with
  | nil => rfl
  | cons r rs ih => exact ih (g.addRule r)

theorem keys_addRules (g : Grammar) (rs : List Rule) :
    (g.addRules rs).table.keys = Distinct.append g.table.keys (rs.map Rule.lhs) := by
  induction rs generalizing g with
  | nil => rfl
  | cons r rs ih =>
    have rest : (g.addRules (r :: rs)).table.keys = ((g.addRule r).addRules rs).table.keys := rfl
    rw [rest, ih, keys_addRule, List.map_cons, Distinct.append_cons]

theorem mem_keys_addRules :
    A ∈ (g.addRules rs).table.keys ↔ A ∈ g.table.keys ∨ A ∈ rs.map Rule.lhs := by
  rw [keys_addRules, Distinct.mem_append]

theorem nodup_rhss_addRules (h : (g.rhss A).Nodup) (rs : List Rule) :
    ((g.addRules rs).rhss A).Nodup := by
  rw [rhss_addRules]
  exact Distinct.nodup_append h _

/-! ### From a grammar to a list -/

theorem nodup_lhssByName (g : Grammar) : g.lhssByName.Nodup :=
  (perm_sortBy Symbol.name g.table.keys).nodup_iff.2 g.table.nodup_keys

theorem rhssOf_rules (g : Grammar) (A : Symbol) : rhssOf A g.rules = g.rhss A := by
  have own : ∀ B, rhssOf A ((g.rhss B).map fun r => ⟨B, r⟩) = if B = A then g.rhss B else [] := by
    intro B
    by_cases h : B = A <;> simp [rhssOf, List.filter_map, Function.comp_def, h]
  have some : ∀ Bs : List Symbol, Bs.Nodup →
      rhssOf A (Bs.flatMap fun B => (g.rhss B).map fun r => ⟨B, r⟩) =
        if A ∈ Bs then g.rhss A else [] := by
    intro Bs hBs
    induction Bs with
    | nil => rfl
    | cons B Bs ih =>
      obtain ⟨hB, hBs⟩ := List.nodup_cons.1 hBs
      rw [List.flatMap_cons, rhssOf_append, own, ih hBs]
      by_cases h : B = A
      · subst h
        simp [hB]
      · have h' : ¬A = B := fun e => h e.symm
        simp [h, h']
  have all := some g.lhssByName (nodup_lhssByName g)
  have rules : g.rules = g.lhssByName.flatMap fun B => (g.rhss B).map fun r => ⟨B, r⟩ := rfl
  rw [rules, all]
  split
  · rfl
  · rename_i hA
    exact (rhss_eq_nil_of_not_mem_keys fun hkey => hA (mem_sortBy.2 hkey)).symm

/-- A list without repeats is the list of rules of the grammar made from it, in another order. -/
theorem perm_rules_addRules_ofSymbols (S : Symbol) (nts ts : SymbolSet)
    (h : ∀ A, (rhssOf A rs).Nodup) : ((ofSymbols S nts ts).addRules rs).rules.Perm rs := by
  have rhss : ∀ A, ((ofSymbols S nts ts).addRules rs).rhss A = rhssOf A rs := by
    intro A
    rw [rhss_addRules_ofSymbols]
    exact Distinct.ofList_of_nodup (h A)
  refine (List.perm_ext_iff_of_nodup ?_ (nodup_of_nodup_rhssOf h)).2 fun r => ?_
  · refine nodup_of_nodup_rhssOf fun A => ?_
    rw [rhssOf_rules, rhss]
    exact h A
  · rw [mem_rules, rhss, mem_rhssOf]

end Grammar

end ContextFree
