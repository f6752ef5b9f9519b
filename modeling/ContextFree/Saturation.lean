/-
  ContextFree/Saturation.lean
  ===========================
  **Saturation** of a set of symbols: a growth rule is applied until the set no
  longer changes.

  The number of rounds is bounded in advance.  `grow_saturate` says when the
  bound does not cut the growth short: the rule only adds symbols of a list that
  is no longer than the number of rounds.  Then the result is closed under the
  rule, and `saturate_induction` carries every property that the rule keeps over
  to it.
-/
import ContextFree.Symbol

namespace ContextFree

/-- Applies `grow` until it changes nothing, at most `n` times. -/
def saturate (grow : SymbolSet → SymbolSet) : Nat → SymbolSet → SymbolSet
  | 0, s => s
  | n + 1, s =>
    let t := grow s
    if t = s then s else saturate grow n t

/-- A property that growing keeps holds of the saturated set. -/
theorem saturate_induction {P : SymbolSet → Prop} {grow : SymbolSet → SymbolSet}
    (step : ∀ s, P s → P (grow s)) (n : Nat) {s : SymbolSet} (h : P s) : P (saturate grow n s) := by
  induction n generalizing s with
  | zero => exact h
  | succ n ih =>
    simp only [saturate]
    split
    · exact h
    · exact ih (step s h)

theorem mem_of_missing_le_zero {pool : List Symbol} {s : SymbolSet}
    (h : (pool.filter fun x => decide (x ∉ s)).length ≤ 0) : ∀ x ∈ pool, x ∈ s := by
  intro x hx
  apply Decidable.byContradiction
  intro hs
  have missing : x ∈ pool.filter fun x => decide (x ∉ s) :=
    List.mem_filter.2 ⟨hx, decide_eq_true hs⟩
  rw [List.eq_nil_of_length_eq_zero (Nat.le_zero.1 h)] at missing
  exact List.not_mem_nil missing

theorem length_missing_lt {pool : List Symbol} {s t : SymbolSet} (sub : ∀ x, x ∈ s → x ∈ t)
    {x : Symbol} (hpool : x ∈ pool) (hxt : x ∈ t) (hxs : x ∉ s) :
    (pool.filter fun x => decide (x ∉ t)).length < (pool.filter fun x => decide (x ∉ s)).length := by
  have again : pool.filter (fun x => decide (x ∉ t)) =
      (pool.filter fun x => decide (x ∉ s)).filter fun x => decide (x ∉ t) := by
    rw [List.filter_filter]
    apply List.filter_congr
    intro y _
    by_cases hy : y ∈ s
    · simp [hy, sub y hy]
    · simp [hy]
  rw [again]
  exact List.length_filter_lt_length_iff_exists.2
    ⟨x, List.mem_filter.2 ⟨hpool, decide_eq_true hxs⟩, by simp [hxt]⟩

/-- A rule that deletes nothing and only adds symbols of a list no longer than the number of rounds
    has nothing to add to the saturated set. -/
theorem grow_saturate {grow : SymbolSet → SymbolSet} {pool : List Symbol}
    (keeps : ∀ s x, x ∈ s → x ∈ grow s) (adds : ∀ s x, x ∈ grow s → x ∈ s ∨ x ∈ pool)
    {n : Nat} {s : SymbolSet} (h : (pool.filter fun x => decide (x ∉ s)).length ≤ n) :
    grow (saturate grow n s) = saturate grow n s := by
  induction n generalizing s with
  | zero =>
    -- Every symbol of the pool is already there.
    have hpool := mem_of_missing_le_zero h
    apply Std.ExtTreeSet.ext_mem
    intro x
    exact ⟨fun hx => (adds s x hx).elim id (hpool x), keeps s x⟩
  | succ n ih =>
    simp only [saturate]
    split
    · rename_i fixed
      exact fixed
    · rename_i changed
      apply ih
      -- Some symbol of the pool is new, so fewer are missing than before.
      obtain ⟨x, hx, hxs⟩ : ∃ x, x ∈ grow s ∧ x ∉ s := by
        apply Classical.byContradiction
        intro none
        apply changed
        apply Std.ExtTreeSet.ext_mem
        intro x
        refine ⟨fun hx => ?_, keeps s x⟩
        apply Decidable.byContradiction
        exact fun hs => none ⟨x, hx, hs⟩
      have hxpool : x ∈ pool := (adds s x hx).resolve_left hxs
      have fewer := length_missing_lt (keeps s) hxpool hx hxs
      omega

end ContextFree
