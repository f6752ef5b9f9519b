/-
  ContextFree/Proofs/Patterns.lean
  ================================
  **What a pattern takes**, as a relation between a text and what is left of it.

  `Takes` follows the constructors of a pattern and says nothing of an order or of
  a bound on repetitions.  The matcher finds exactly what it allows
  (`mem_rests_iff`): a repetition that takes nothing can be left out, and the others
  make the text shorter.
-/
import ContextFree.Text.Pattern
import Mathlib.Logic.Relation

namespace ContextFree.Text.Pattern

open Relation (ReflTransGen)

/-- A pattern may take a beginning of the first text and leave the second. -/
def Takes : Pattern → List Char → List Char → Prop
  | char p => fun cs rest => ∃ c, p c = true ∧ cs = c :: rest
  | seq p q => fun cs rest => ∃ mid, p.Takes cs mid ∧ q.Takes mid rest
  | alt p q => fun cs rest => p.Takes cs rest ∨ q.Takes cs rest
  | star p => ReflTransGen p.Takes
  | notAhead p => fun cs rest => rest = cs ∧ ∀ left, ¬ p.Takes cs left

variable {p q : Pattern} {cs rest : List Char}

theorem suffix_of_steps {step : List Char → List Char → Prop}
    (suffix : ∀ cs rest, step cs rest → rest <:+ cs) (h : ReflTransGen step cs rest) :
    rest <:+ cs := by
  induction h with
  | refl => exact List.suffix_rfl
  | tail _ last ih => exact (suffix _ _ last).trans ih

theorem suffix_of_takes (h : p.Takes cs rest) : rest <:+ cs := by
  induction p generalizing cs rest with
  | char p =>
    obtain ⟨c, _, rfl⟩ := h
    exact List.suffix_cons c rest
  | seq p q ihp ihq =>
    obtain ⟨mid, hp, hq⟩ := h
    exact (ihq hq).trans (ihp hp)
  | alt p q ihp ihq =>
    rcases h with h | h
    · exact ihp h
    · exact ihq h
  | star p ih => exact suffix_of_steps (fun _ _ => ih) h
  | notAhead p _ => exact h.1 ▸ List.suffix_rfl

/-- The bounded repetitions are all there are, if the bound is not below the length. -/
theorem mem_repeats_iff {step : List Char → List (List Char)}
    (suffix : ∀ cs rest, rest ∈ step cs → rest <:+ cs) {n : Nat} (hn : cs.length ≤ n) :
    rest ∈ repeats step n cs ↔ ReflTransGen (fun a b => b ∈ step a) cs rest := by
  constructor
  · intro h
    induction n generalizing cs with
    | zero =>
      rw [List.mem_singleton.1 h]
    | succ n ih =>
      rcases List.mem_append.1 h with h | h
      · obtain ⟨mid, hmid, h⟩ := List.mem_flatMap.1 h
        obtain ⟨hstep, hlen⟩ := List.mem_filter.1 hmid
        have shorter : mid.length < cs.length := of_decide_eq_true hlen
        exact .head hstep (ih (by omega) h)
      · rw [List.mem_singleton.1 h]
  · intro h
    induction n generalizing cs with
    | zero =>
      have hcs : cs = [] := List.length_eq_zero_iff.1 (Nat.le_zero.1 hn)
      subst hcs
      rw [List.suffix_nil.1 (suffix_of_steps suffix h)]
      exact List.mem_singleton_self _
    | succ n ih =>
      induction h using ReflTransGen.head_induction_on with
      | refl => exact List.mem_append_right _ (List.mem_singleton_self _)
      | @head cs mid step more again =>
        by_cases hlen : mid.length < cs.length
        · refine List.mem_append_left _ (List.mem_flatMap.2 ⟨mid, ?_, ih (by omega) more⟩)
          exact List.mem_filter.2 ⟨step, decide_eq_true hlen⟩
        · -- A repetition that takes nothing.
          have same : mid = cs := (suffix cs mid step).eq_of_length_le (by omega)
          exact same ▸ again (same ▸ hn)

theorem mem_rests_iff : rest ∈ p.rests cs ↔ p.Takes cs rest := by
  induction p generalizing cs rest with
  | char p =>
    cases cs with
    | nil => simp [rests, Takes]
    | cons c cs =>
      have taken : (char p).Takes (c :: cs) rest ↔ p c = true ∧ rest = cs := by
        constructor
        · rintro ⟨d, hd, h⟩
          cases h
          exact ⟨hd, rfl⟩
        · rintro ⟨hc, rfl⟩
          exact ⟨c, hc, rfl⟩
      rw [taken]
      cases hc : p c <;> simp [rests, hc]
  | seq p q ihp ihq => simp [rests, Takes, ihp, ihq]
  | alt p q ihp ihq => simp [rests, Takes, ihp, ihq]
  | star p ih =>
    have suffix : ∀ cs rest, rest ∈ p.rests cs → rest <:+ cs :=
      fun cs rest h => suffix_of_takes (ih.1 h)
    simp only [rests, Takes, mem_repeats_iff suffix (Nat.le_refl _), ih]
  | notAhead p ih =>
    simp only [rests, Takes]
    split
    · rename_i none
      have nothing : ∀ left, ¬ p.Takes cs left := by
        intro left h
        have hleft := ih.2 h
        rw [List.isEmpty_iff.1 none] at hleft
        exact List.not_mem_nil hleft
      simp [nothing]
    · rename_i some
      obtain ⟨left, hleft⟩ : ∃ left, left ∈ p.rests cs :=
        List.exists_mem_of_ne_nil _ (by simpa using some)
      simp only [List.not_mem_nil, false_iff]
      exact fun h => h.2 left (ih.1 hleft)

/-- A text is accepted if and only if nothing may be left of it. -/
theorem accepts_iff : p.accepts cs = true ↔ p.Takes cs [] := by
  simp [accepts, List.any_eq_true, mem_rests_iff]

/-! ### Runs of characters -/

theorem takes_star_char_iff {p : Char → Bool} :
    (star (.char p)).Takes cs rest ↔ ∃ w, cs = w ++ rest ∧ ∀ c ∈ w, p c = true := by
  constructor
  · intro h
    induction h using ReflTransGen.head_induction_on with
    | refl => exact ⟨[], rfl, List.forall_mem_nil _⟩
    | head step _ ih =>
      obtain ⟨c, hc, rfl⟩ := step
      obtain ⟨w, rfl, hw⟩ := ih
      exact ⟨c :: w, rfl, List.forall_mem_cons.2 ⟨hc, hw⟩⟩
  · rintro ⟨w, rfl, hw⟩
    induction w with
    | nil => exact .refl
    | cons c w ih =>
      obtain ⟨hc, hw⟩ := List.forall_mem_cons.1 hw
      exact .head ⟨c, hc, rfl⟩ (ih hw)

theorem takes_plus_char_iff {p : Char → Bool} :
    (plus (.char p)).Takes cs rest ↔ ∃ w, cs = w ++ rest ∧ w ≠ [] ∧ ∀ c ∈ w, p c = true := by
  constructor
  · rintro ⟨mid, ⟨c, hc, rfl⟩, h⟩
    obtain ⟨w, rfl, hw⟩ := takes_star_char_iff.1 h
    exact ⟨c :: w, rfl, List.cons_ne_nil c w, List.forall_mem_cons.2 ⟨hc, hw⟩⟩
  · rintro ⟨w, rfl, hne, hw⟩
    obtain ⟨c, w, rfl⟩ := List.exists_cons_of_ne_nil hne
    obtain ⟨hc, hw⟩ := List.forall_mem_cons.1 hw
    exact ⟨w ++ rest, ⟨c, hc, rfl⟩, takes_star_char_iff.2 ⟨w, rfl, hw⟩⟩

end ContextFree.Text.Pattern
