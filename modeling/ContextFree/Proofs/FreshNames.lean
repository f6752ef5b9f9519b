/-
  ContextFree/Proofs/FreshNames.lean
  ==================================
  **A supply hands out names that are not in use.**

  `firstFree` tries one number more than there are names in use; numbered names
  of one stem differ, so one of them is free (`exists_free`).  With the names in
  use a supply knows symbols: all terminals, and the non-terminals of these
  names.  A new non-terminal is not known before the call and is known after it.
-/
import ContextFree.NameSupply
import Mathlib.Data.List.Nodup
import Mathlib.Data.List.Perm.Subperm
import Mathlib.Data.Set.Defs

namespace ContextFree.NameSupply

variable {used : NameSet} {stem : String}

theorem numbered_injective (stem : String) : Function.Injective (numbered stem) := by
  intro j k h
  have digits : Nat.toDigits 10 j = Nat.toDigits 10 k := by
    have text := (String.append_right_inj stem).1 h
    simpa using congrArg String.toList text
  have read := congrArg (fun cs => Nat.ofDigitChars 10 cs 0) digits
  simpa using read

/-- Among one number more than names in use there is a free one. -/
theorem exists_free (used : NameSet) (stem : String) (k : Nat) :
    ∃ j, k ≤ j ∧ j ≤ k + used.size ∧ numbered stem j ∉ used := by
  apply Classical.byContradiction
  intro none
  have taken : ∀ j, k ≤ j → j ≤ k + used.size → numbered stem j ∈ used := by
    intro j hk hj
    apply Decidable.byContradiction
    exact fun hfree => none ⟨j, hk, hj, hfree⟩
  -- Different numbers give different names, which are too many for the names in use.
  have distinct : ((List.range' k (used.size + 1)).map (numbered stem)).Nodup :=
    List.Nodup.map (numbered_injective stem) List.nodup_range'
  have sub : (List.range' k (used.size + 1)).map (numbered stem) ⊆ used.toList := by
    intro name hname
    obtain ⟨j, hj, rfl⟩ := List.mem_map.1 hname
    obtain ⟨hk, hlt⟩ := List.mem_range'_1.1 hj
    exact Std.ExtTreeSet.mem_toList.2 (taken j hk (by omega))
  have short := (List.subperm_of_subset distinct sub).length_le
  simp only [List.length_map, List.length_range', Std.ExtTreeSet.length_toList] at short
  omega

/-- All numbers before the first free one are in use, and so is the last one tried if the search
    runs out of trials. -/
theorem firstFree_spec (n k : Nat) :
    k ≤ firstFree used stem n k ∧ firstFree used stem n k ≤ k + n ∧
      (∀ j, k ≤ j → j < firstFree used stem n k → numbered stem j ∈ used) ∧
      (numbered stem (firstFree used stem n k) ∈ used → firstFree used stem n k = k + n) := by
  induction n generalizing k with
  | zero =>
    unfold firstFree
    exact ⟨Nat.le_refl k, Nat.le_refl k, fun j hk hj => absurd hj (by omega), fun _ => rfl⟩
  | succ n ih =>
    unfold firstFree
    split
    · rename_i htaken
      obtain ⟨low, high, before, last⟩ := ih (k + 1)
      refine ⟨by omega, by omega, ?_, fun h => by rw [last h]; omega⟩
      intro j hk hj
      by_cases hjk : j = k
      · exact hjk ▸ htaken
      · exact before j (by omega) hj
    · rename_i hfree
      exact ⟨Nat.le_refl k, by omega, fun j hk hj => absurd hj (by omega),
        fun h => absurd h hfree⟩

theorem numbered_firstFree_not_mem (k : Nat) :
    numbered stem (firstFree used stem used.size k) ∉ used := by
  obtain ⟨_, _, before, last⟩ := @firstFree_spec used stem used.size k
  intro h
  obtain ⟨j, hk, hj, hfree⟩ := exists_free used stem k
  rw [← last h] at hj
  rcases Nat.lt_or_eq_of_le hj with hlt | rfl
  · exact hfree (before j hk hlt)
  · exact hfree h

variable {f : NameSupply}

theorem next_not_mem (f : NameSupply) (stem : String) : (f.next stem).1 ∉ f.used :=
  numbered_firstFree_not_mem _

theorem hinted_not_mem (f : NameSupply) (stem hint : String) : (f.hinted stem hint).1 ∉ f.used := by
  simp only [hinted]
  split
  · exact next_not_mem f _
  · rename_i hfree
    exact hfree

/-! ### Known symbols -/

/-- The terminals, and the symbols whose names are in use. -/
def known (f : NameSupply) : Set Symbol := {x | x.isTerminal = true ∨ x.name ∈ f.used}

theorem not_mem_known_iff {x : Symbol} :
    x ∉ f.known ↔ x.isNonterminal = true ∧ x.name ∉ f.used := by
  have either : x ∈ f.known ↔ x.isTerminal = true ∨ x.name ∈ f.used := Iff.rfl
  rw [either]
  cases x <;> simp

/-- A call `f' = f.next …` or `f' = f.hinted …` that hands out `name`. -/
structure Gives (f : NameSupply) (name : String) (f' : NameSupply) : Prop where
  not_mem : name ∉ f.used
  used_eq : f'.used = f.used.insert name

theorem gives_next (f : NameSupply) (stem : String) : f.Gives (f.next stem).1 (f.next stem).2 :=
  ⟨next_not_mem f stem, used_next f stem⟩

theorem gives_hinted (f : NameSupply) (stem hint : String) :
    f.Gives (f.hinted stem hint).1 (f.hinted stem hint).2 :=
  ⟨hinted_not_mem f stem hint, used_hinted f stem hint⟩

namespace Gives

variable {name : String} {f' : NameSupply}

theorem nonterminal_not_mem (h : f.Gives name f') : Symbol.nonterminal name ∉ f.known := by
  rintro (hterm | hname)
  · cases hterm
  · exact h.not_mem hname

theorem nonterminal_mem (h : f.Gives name f') : Symbol.nonterminal name ∈ f'.known := by
  right
  rw [h.used_eq]
  exact Std.ExtTreeSet.mem_insert_self

theorem known_subset (h : f.Gives name f') : f.known ⊆ f'.known := by
  rintro x (hterm | hname)
  · exact Or.inl hterm
  · right
    rw [h.used_eq]
    exact Std.ExtTreeSet.mem_insert.2 (Or.inr hname)

end Gives

end ContextFree.NameSupply
