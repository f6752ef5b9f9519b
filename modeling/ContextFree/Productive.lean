/-
  ContextFree/Productive.lean
  ===========================
  **Productive symbols**: the left-hand sides that derive a string of given base
  symbols.

  A left-hand side is productive as soon as it has a right-hand side whose
  symbols are base symbols or productive; the productive symbols are the least
  set closed under this.  Without base symbols they are the nullable symbols,
  which derive the empty word; with the terminals as base they are the generating
  symbols, which derive a word.

  `productive` goes by rounds over all rules, `sweeps` by visits to one left-hand
  side after the other.
-/
import ContextFree.Saturation
import ContextFree.Grammar.Basic

namespace ContextFree.Grammar

/-- Whether every symbol of a right-hand side is a base symbol or in the set. -/
def supported (base : Symbol → Bool) (s : SymbolSet) (r : Rhs) : Bool :=
  r.all fun x => base x || s.contains x

/-- Adds every left-hand side that has a supported right-hand side. -/
def growProductive (g : Grammar) (base : Symbol → Bool) (s : SymbolSet) : SymbolSet :=
  s.insertMany ((g.table.entries.filter fun e => e.2.any (supported base s)).map Prod.fst)

/-- The left-hand sides that derive a string of base symbols.  Each round that changes the set adds
    a left-hand side, so there are at most as many rounds as left-hand sides. -/
def productive (g : Grammar) (base : Symbol → Bool) : SymbolSet :=
  saturate (g.growProductive base) g.table.size ∅

/-! ### In place -/

/-- A visit adds the left-hand side if one of its right-hand sides is supported. -/
def visit (base : Symbol → Bool) (s : SymbolSet) (e : Symbol × List Rhs) : SymbolSet :=
  if e.2.any (supported base s) then s.insert e.1 else s

/-- A sweep visits left-hand sides in order and each with the set that the visits before it have
    left. -/
def sweep (base : Symbol → Bool) (es : List (Symbol × List Rhs)) (s : SymbolSet) : SymbolSet :=
  es.foldl (visit base) s

/-- Sweeps from the empty set until one changes nothing.  Each sweep before that adds a left-hand
    side, so there are at most as many as left-hand sides. -/
def sweeps (base : Symbol → Bool) (es : List (Symbol × List Rhs)) : SymbolSet :=
  saturate (sweep base es) es.length ∅

/-! ### The productive symbols are the least closed set -/

theorem supported_mono {base : Symbol → Bool} {s t : SymbolSet} (h : ∀ x ∈ s, x ∈ t) {r : Rhs}
    (hr : supported base s r = true) : supported base t r = true := by
  simp only [supported, List.all_eq_true, Bool.or_eq_true, Std.ExtTreeSet.contains_iff_mem] at *
  intro x hx
  exact (hr x hx).imp id (h x)

theorem mem_growProductive {g : Grammar} {base : Symbol → Bool} {s : SymbolSet} {A : Symbol} :
    A ∈ g.growProductive base s ↔ A ∈ s ∨ ∃ r ∈ g.rhss A, supported base s r = true := by
  have listed : A ∈ (g.table.entries.filter fun e => e.2.any (supported base s)).map Prod.fst ↔
      ∃ r ∈ g.rhss A, supported base s r = true := by
    simp only [List.mem_map, List.mem_filter, List.any_eq_true]
    constructor
    · rintro ⟨e, ⟨he, r, hr, hs⟩, rfl⟩
      rw [rhss_eq_of_mem_entries he]
      exact ⟨r, hr, hs⟩
    · rintro ⟨r, hr, hs⟩
      obtain ⟨rs, hrs, hmem⟩ := exists_entry_of_mem_rhss hr
      exact ⟨(A, rs), ⟨hrs, r, hmem, hs⟩, rfl⟩
  simp only [growProductive, SymbolSet.mem_insertMany, listed]

/-- Another round adds nothing. -/
theorem growProductive_productive (g : Grammar) (base : Symbol → Bool) :
    g.growProductive base (g.productive base) = g.productive base := by
  refine @grow_saturate _ g.table.keys ?_ ?_ _ _ ?_
  · exact fun s x hx => mem_growProductive.2 (Or.inl hx)
  · intro s x hx
    rcases mem_growProductive.1 hx with h | ⟨r, hr, _⟩
    · exact Or.inl h
    · exact Or.inr (mem_keys_of_mem_rhss hr)
  · refine Nat.le_trans (List.length_filter_le _ _) ?_
    exact Nat.le_of_eq (List.length_map _)

/-- A symbol is productive if and only if one of its right-hand sides is supported. -/
theorem mem_productive_iff {g : Grammar} {base : Symbol → Bool} {A : Symbol} :
    A ∈ g.productive base ↔ ∃ r ∈ g.rhss A, supported base (g.productive base) r = true := by
  constructor
  · have inv : ∀ B ∈ g.productive base,
        ∃ r ∈ g.rhss B, supported base (g.productive base) r = true := by
      refine saturate_induction (P := fun s => ∀ B ∈ s, ∃ r ∈ g.rhss B, supported base s r = true)
        ?_ g.table.size ?_
      · intro s hs B hB
        have grown : ∀ x ∈ s, x ∈ g.growProductive base s :=
          fun x hx => mem_growProductive.2 (Or.inl hx)
        rcases mem_growProductive.1 hB with hB | ⟨r, hr, hsup⟩
        · obtain ⟨r, hr, hsup⟩ := hs B hB
          exact ⟨r, hr, supported_mono grown hsup⟩
        · exact ⟨r, hr, supported_mono grown hsup⟩
      · intro B hB
        exact absurd hB Std.ExtTreeSet.not_mem_empty
    exact inv A
  · intro h
    rw [← growProductive_productive]
    exact mem_growProductive.2 (Or.inr h)

/-! ### Nullable and generating symbols -/

/-- The left-hand sides that derive the empty word. -/
def nullable (g : Grammar) : SymbolSet := g.productive fun _ => false

/-- The left-hand sides that derive a word. -/
def generating (g : Grammar) : SymbolSet := g.productive Symbol.isTerminal

end ContextFree.Grammar
