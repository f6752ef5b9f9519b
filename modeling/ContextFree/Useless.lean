/-
  ContextFree/Useless.lean
  ========================
  **Useless symbols**: those that the start symbol does not reach, and the
  non-terminals that derive no word.

  Reachability starts at the start symbol and follows every rule of a reached
  non-terminal; terminals are reached but not followed.  Both clean-ups only
  delete: symbols from the declarations, and rules that mention what is deleted.

  `reachable` goes by rounds over all rules, `traverse` takes one symbol after the
  other from a queue.
-/
import ContextFree.Productive

namespace ContextFree.Grammar

/-! ### Unreachable symbols -/

/-- Adds the symbols of all right-hand sides of the members that are followed. -/
def growReachable (g : Grammar) (s : SymbolSet) : SymbolSet :=
  s.insertMany ((g.table.entries.filter fun e =>
    s.contains e.1 && (e.1.isNonterminal || decide (e.1 = g.start))).flatMap fun e => e.2.flatten)

/-- The number of occurrences of symbols on right-hand sides. -/
def occurrenceCount (g : Grammar) : Nat := (g.table.entries.flatMap Prod.snd).flatten.length

/-- The symbols that occur in what the start symbol derives.  Each round that changes the set adds
    a symbol of a right-hand side, so there are at most as many rounds as occurrences. -/
def reachable (g : Grammar) : SymbolSet :=
  saturate g.growReachable g.occurrenceCount ((∅ : SymbolSet).insert g.start)

theorem mem_growReachable {g : Grammar} {s : SymbolSet} {x : Symbol} :
    x ∈ g.growReachable s ↔ x ∈ s ∨
      ∃ A ∈ s, (A.isNonterminal = true ∨ A = g.start) ∧ ∃ r ∈ g.rhss A, x ∈ r := by
  have listed : x ∈ ((g.table.entries.filter fun e =>
      s.contains e.1 && (e.1.isNonterminal || decide (e.1 = g.start))).flatMap
        fun e => e.2.flatten) ↔
      ∃ A ∈ s, (A.isNonterminal = true ∨ A = g.start) ∧ ∃ r ∈ g.rhss A, x ∈ r := by
    simp only [List.mem_flatMap, List.mem_filter, List.mem_flatten, Bool.and_eq_true,
      Bool.or_eq_true, decide_eq_true_eq, Std.ExtTreeSet.contains_iff_mem]
    constructor
    · rintro ⟨e, ⟨he, hA, hfollow⟩, r, hr, hx⟩
      rw [← rhss_eq_of_mem_entries he] at hr
      exact ⟨e.1, hA, hfollow, r, hr, hx⟩
    · rintro ⟨A, hA, hfollow, r, hr, hx⟩
      obtain ⟨rs, hrs, hmem⟩ := exists_entry_of_mem_rhss hr
      exact ⟨(A, rs), ⟨hrs, hA, hfollow⟩, r, hmem, hx⟩
  simp only [growReachable, SymbolSet.mem_insertMany, listed]

/-- Another round adds nothing. -/
theorem growReachable_reachable (g : Grammar) : g.growReachable g.reachable = g.reachable := by
  refine @grow_saturate _ (g.table.entries.flatMap Prod.snd).flatten ?_ ?_ _ _ ?_
  · exact fun s x hx => mem_growReachable.2 (Or.inl hx)
  · intro s x hx
    rcases mem_growReachable.1 hx with h | ⟨A, _, _, r, hr, hxr⟩
    · exact Or.inl h
    · exact Or.inr (List.mem_flatten.2 ⟨r, mem_flatMap_entries_of_mem_rhss hr, hxr⟩)
  · exact List.length_filter_le _ _

theorem start_mem_reachable (g : Grammar) : g.start ∈ g.reachable := by
  refine saturate_induction (P := fun s => g.start ∈ s) ?_ _ ?_
  · exact fun s hs => mem_growReachable.2 (Or.inl hs)
  · exact Std.ExtTreeSet.mem_insert_self

/-- What a reachable non-terminal has on a right-hand side is reachable. -/
theorem mem_reachable_of_mem_rhs {g : Grammar} {A x : Symbol} {r : Rhs} (hA : A ∈ g.reachable)
    (hn : A.isNonterminal = true) (hr : r ∈ g.rhss A) (hx : x ∈ r) : x ∈ g.reachable := by
  rw [← growReachable_reachable]
  exact mem_growReachable.2 (Or.inr ⟨A, hA, Or.inl hn, r, hr, hx⟩)

/-! ### The queue -/

variable {g : Grammar} {s : SymbolSet} {A : Symbol}

/-- What the right-hand sides of a symbol mention and the set does not hold, in the order in which
    it is met. -/
def discoveries (g : Grammar) (s : SymbolSet) (A : Symbol) : List Symbol :=
  Distinct.ofList ((g.rhss A).flatten.filter fun x => !s.contains x)

/-- The number of occurrences on right-hand sides of symbols that the set does not hold. -/
def undiscovered (g : Grammar) (s : SymbolSet) : Nat :=
  ((g.table.entries.flatMap Prod.snd).flatten.filter fun x => decide (x ∉ s)).length

theorem mem_discoveries {x : Symbol} :
    x ∈ g.discoveries s A ↔ (∃ r ∈ g.rhss A, x ∈ r) ∧ x ∉ s := by
  simp only [discoveries, Distinct.mem_ofList, List.mem_filter, List.mem_flatten,
    Bool.not_eq_true', Bool.eq_false_iff, ne_eq, Std.ExtTreeSet.contains_iff_mem]

theorem mem_insertMany_discoveries {x : Symbol} :
    x ∈ s.insertMany (g.discoveries s A) ↔ x ∈ s ∨ ∃ r ∈ g.rhss A, x ∈ r := by
  rw [SymbolSet.mem_insertMany, mem_discoveries]
  constructor
  · exact Or.imp_right And.left
  · rintro (hx | hx)
    · exact Or.inl hx
    · by_cases known : x ∈ s
      · exact Or.inl known
      · exact Or.inr ⟨hx, known⟩

theorem undiscovered_lt (h : g.discoveries s A ≠ []) :
    g.undiscovered (s.insertMany (g.discoveries s A)) < g.undiscovered s := by
  obtain ⟨x, hx⟩ := List.exists_mem_of_ne_nil _ h
  obtain ⟨⟨r, hr, hxr⟩, hxs⟩ := mem_discoveries.1 hx
  have pool : x ∈ (g.table.entries.flatMap Prod.snd).flatten :=
    List.mem_flatten.2 ⟨r, mem_flatMap_entries_of_mem_rhss hr, hxr⟩
  have found : x ∈ s.insertMany (g.discoveries s A) :=
    mem_insertMany_discoveries.2 (Or.inr ⟨r, hr, hxr⟩)
  exact length_missing_lt (fun y hy => mem_insertMany_discoveries.2 (Or.inl hy)) pool found hxs

/-- Follows the symbols of a queue one after the other: what their right-hand sides mention is
    discovered, and the non-terminals that are new go to the end of the queue. -/
def traverse (g : Grammar) (s : SymbolSet) : List Symbol → SymbolSet
  | [] => s
  | A :: q =>
    traverse g (s.insertMany (g.discoveries s A))
      (q ++ (g.discoveries s A).filter Symbol.isNonterminal)
termination_by q => (g.undiscovered s, q.length)
decreasing_by
  by_cases none : g.discoveries s A = []
  · rw [none]
    apply Prod.Lex.right'
    · exact Nat.le_of_eq (by simp)
    · simp
  · exact Prod.Lex.left _ _ (undiscovered_lt none)

/-! ### What is deleted -/

/-- Deletes the symbols that are not reachable, with their rules. -/
def onlyReachable (g : Grammar) : Grammar :=
  let reach := g.reachable
  { ofSymbols g.start (g.nonterminals.select (reach.contains ·))
      (g.terminals.select (reach.contains ·)) with
    table := g.table.filterKeys (reach.contains ·) }

theorem rhss_onlyReachable (g : Grammar) (A : Symbol) :
    g.onlyReachable.rhss A = if A ∈ g.reachable then g.rhss A else [] := by
  unfold onlyReachable rhss
  simp only [Table.get?_filterKeys, Std.ExtTreeSet.contains_iff_mem]
  split <;> rfl

/-- The declared symbols that are not reachable. -/
def unreachable (g : Grammar) : SymbolSet :=
  let reach := g.reachable
  let declared : SymbolSet := g.nonterminals.insertMany g.terminals.toList
  declared.select fun s => !reach.contains s

/-! ### Symbols that derive no word -/

/-- Deletes the non-terminals that derive no word, with every rule that mentions one.  The start
    symbol stays declared and every terminal stays. -/
def onlyGenerating (g : Grammar) : Grammar :=
  let gen := g.generating
  { ofSymbols g.start (g.nonterminals.select (gen.contains ·)) g.terminals with
    table := (g.table.filterKeys (gen.contains ·)).mapValues fun _ rhss =>
      rhss.filter (supported Symbol.isTerminal gen) }

theorem rhss_onlyGenerating (g : Grammar) (A : Symbol) :
    g.onlyGenerating.rhss A =
      if A ∈ g.generating then (g.rhss A).filter (supported Symbol.isTerminal g.generating)
      else [] := by
  unfold onlyGenerating rhss
  simp only [Table.get?_mapValues, Table.get?_filterKeys, Std.ExtTreeSet.contains_iff_mem]
  split
  · cases g.table.get? A <;> rfl
  · rfl

/-- The declared non-terminals other than the start symbol that derive no word. -/
def nongenerating (g : Grammar) : SymbolSet :=
  let gen := g.generating
  g.nonterminals.select fun s => !gen.contains s && decide (s ≠ g.start)

end ContextFree.Grammar
