/-
  ContextFree/Unit.lean
  =====================
  **Elimination of unit rules.**

  The unit closure of a symbol lists what it reaches through unit rules, breadth
  first.  Each left-hand side gets the other right-hand sides of all symbols in
  its closure.  An empty right-hand side is only copied into the start symbol.

  `unitReach` goes layer by layer, `searchUnits` takes one symbol after the other
  from a queue.
-/
import ContextFree.Epsilon

namespace ContextFree

/-- Puts the entries of a table in the order of the names of their keys. -/
def Table.sortKeys {β : Type} (t : Table Symbol β) : Table Symbol β :=
  ⟨sortBy (fun e => e.1.name) t.entries,
    ((perm_sortBy (fun e => e.1.name) t.entries).map Prod.fst).nodup_iff.2 t.nodup_keys⟩

theorem Table.get?_sortKeys {β : Type} (t : Table Symbol β) (A : Symbol) :
    t.sortKeys.get? A = t.get? A := Table.get?_eq_of_perm (perm_sortBy _ _) A

/-- A table whose keys come in the order of their names is sorted already. -/
theorem Table.sortKeys_eq_self {β : Type} {t : Table Symbol β}
    (h : t.keys.Pairwise fun A B => A.name ≤ B.name) : t.sortKeys = t := by
  rw [keys, List.pairwise_map] at h
  exact eq_of_entries_eq (sortBy_eq_self h)

theorem Table.pairwise_keys_sortKeys {β : Type} (t : Table Symbol β) :
    t.sortKeys.keys.Pairwise fun A B => A.name ≤ B.name := by
  rw [keys, List.pairwise_map]
  exact pairwise_sortBy _ t.entries

theorem Table.perm_keys_sortKeys {β : Type} (t : Table Symbol β) : t.sortKeys.keys.Perm t.keys :=
  (perm_sortBy (fun e : Symbol × β => e.1.name) t.entries).map Prod.fst

namespace Grammar

/-- The symbols that the unit rules of a symbol lead to, in order. -/
def unitTargets (g : Grammar) (A : Symbol) : List Symbol := (g.rhss A).filterMap Rhs.unitTarget?

/-- The symbols that the unit rules of some symbols lead to for the first time. -/
def newTargets (g : Grammar) (seen : SymbolSet) (layer : List Symbol) : List Symbol :=
  Distinct.ofList ((layer.flatMap g.unitTargets).filter fun B => !seen.contains B)

/-- What the symbols of a layer lead to, one layer after the other, without the symbols seen. -/
def followUnits (g : Grammar) : Nat → SymbolSet → List Symbol → List Symbol
  | 0, _, _ => []
  | n + 1, seen, layer =>
    match g.newTargets seen layer with
    | [] => []
    | next => next ++ followUnits g n (seen.insertMany next) next

/-- The number of right-hand sides of all symbols. -/
def ruleCount (g : Grammar) : Nat := (g.table.entries.flatMap Prod.snd).length

/-- The symbols that `A` reaches through unit rules: `A` first, then in the order of discovery.
    Each layer after the first holds the target of a rule that no earlier layer holds, so there are
    at most as many layers as rules. -/
def unitReach (g : Grammar) (A : Symbol) : List Symbol :=
  A :: g.followUnits g.ruleCount ((∅ : SymbolSet).insert A) [A]

/-! ### The queue -/

variable {g : Grammar} {A B : Symbol}

theorem mem_newTargets {seen : SymbolSet} {layer : List Symbol} {B : Symbol} :
    B ∈ g.newTargets seen layer ↔ (∃ A ∈ layer, B ∈ g.unitTargets A) ∧ B ∉ seen := by
  simp only [newTargets, Distinct.mem_ofList, List.mem_filter, List.mem_flatMap,
    Bool.not_eq_true', ← Bool.not_eq_true, Std.ExtTreeSet.contains_iff_mem]

theorem newTargets_nil (g : Grammar) (seen : SymbolSet) : g.newTargets seen [] = [] := rfl

/-- Every symbol that a unit rule leads to. -/
def allUnitTargets (g : Grammar) : List Symbol :=
  (g.table.entries.flatMap Prod.snd).filterMap Rhs.unitTarget?

theorem mem_allUnitTargets {A B : Symbol} (h : B ∈ g.unitTargets A) : B ∈ g.allUnitTargets := by
  obtain ⟨r, hr, hB⟩ := List.mem_filterMap.1 h
  exact List.mem_filterMap.2 ⟨r, mem_flatMap_entries_of_mem_rhss hr, hB⟩

/-- The number of unit rules that lead to symbols not seen. -/
def unseenTargets (g : Grammar) (seen : SymbolSet) : Nat :=
  (g.allUnitTargets.filter fun B => decide (B ∉ seen)).length

theorem unseenTargets_lt {seen : SymbolSet} {layer : List Symbol}
    (h : g.newTargets seen layer ≠ []) :
    g.unseenTargets (seen.insertMany (g.newTargets seen layer)) < g.unseenTargets seen := by
  obtain ⟨B, hB⟩ := List.exists_mem_of_ne_nil _ h
  obtain ⟨⟨A, _, hAB⟩, new⟩ := mem_newTargets.1 hB
  exact length_missing_lt (fun C hC => SymbolSet.mem_insertMany.2 (Or.inl hC))
    (mem_allUnitTargets hAB) (SymbolSet.mem_insertMany.2 (Or.inr hB)) new

/-- A search under way: the symbols seen, the list of those found, and the queue of those whose
    unit rules are still to be followed. -/
structure UnitSearch where
  seen : SymbolSet
  found : List Symbol
  queue : List Symbol

namespace UnitSearch

variable {s : UnitSearch} {xs : List Symbol}

/-- A symbol that has not been seen is found and goes to the end of the queue. -/
def meet (s : UnitSearch) (B : Symbol) : UnitSearch :=
  if B ∈ s.seen then s else ⟨s.seen.insert B, s.found ++ [B], s.queue ++ [B]⟩

/-- Meets what the unit rules of a symbol lead to, one target after the other. -/
def follow (g : Grammar) (s : UnitSearch) (B : Symbol) : UnitSearch :=
  (g.unitTargets B).foldl meet s

/-- Symbols that are new join all three parts at once. -/
def add (s : UnitSearch) (xs : List Symbol) : UnitSearch :=
  ⟨s.seen.insertMany xs, s.found ++ xs, s.queue ++ xs⟩

@[simp] theorem add_nil (s : UnitSearch) : s.add [] = s := by
  simp [add]

theorem meet_add :
    (s.add xs).meet B = if B ∈ s.seen then s.add xs else s.add (Distinct.insert xs B) := by
  have seen_add : B ∈ (s.add xs).seen ↔ B ∈ s.seen ∨ B ∈ xs := SymbolSet.mem_insertMany
  simp only [meet, Distinct.insert, seen_add]
  by_cases old : B ∈ s.seen
  · simp [old]
  · by_cases met : B ∈ xs
    · simp [old, met]
    · simp [old, met, add, Std.ExtTreeSet.insertMany_append, Std.ExtTreeSet.insertMany_cons]

/-- Meeting symbols adds those that have not been seen, as to a list without repeats. -/
theorem foldl_meet (Bs : List Symbol) :
    Bs.foldl meet (s.add xs) =
      s.add (Distinct.append xs (Bs.filter fun B => !s.seen.contains B)) := by
  induction Bs generalizing xs with
  | nil => rfl
  | cons B Bs ih =>
    rw [List.foldl_cons, meet_add]
    by_cases old : B ∈ s.seen
    · simp [old, ih]
    · have new : s.seen.contains B = false :=
        Bool.eq_false_iff.2 fun h => old (Std.ExtTreeSet.contains_iff_mem.1 h)
      simp [old, new, ih]

/-- In the middle of a layer: one more symbol of it is followed. -/
theorem follow_add (done : List Symbol) :
    follow g (s.add (g.newTargets s.seen done)) B =
      s.add (g.newTargets s.seen (done ++ [B])) := by
  have targets : g.newTargets s.seen (done ++ [B]) = Distinct.append (g.newTargets s.seen done)
      ((g.unitTargets B).filter fun C => !s.seen.contains C) := by
    simp only [newTargets, Distinct.ofList, List.flatMap_append, List.filter_append,
      List.flatMap_singleton, Distinct.append_append]
  rw [follow, foldl_meet, targets]

theorem follow_eq (s : UnitSearch) (B : Symbol) :
    follow g s B = s.add (g.newTargets s.seen [B]) := by
  have first : follow g (s.add (g.newTargets s.seen [])) B =
      s.add (g.newTargets s.seen ([] ++ [B])) := follow_add []
  rwa [newTargets_nil, add_nil, List.nil_append] at first

end UnitSearch

/-- Takes symbols from the queue and follows them until the queue is empty.  Every step shortens
    the queue or leaves fewer targets that have not been seen. -/
def searchUnits (g : Grammar) : UnitSearch → List Symbol
  | ⟨_, found, []⟩ => found
  | ⟨seen, found, B :: queue⟩ => searchUnits g (UnitSearch.follow g ⟨seen, found, queue⟩ B)
termination_by s => (g.unseenTargets s.seen, s.queue.length)
decreasing_by
  rw [UnitSearch.follow_eq]
  by_cases none : g.newTargets seen [B] = []
  · rw [none, UnitSearch.add_nil]
    exact Prod.Lex.right _ (Nat.lt_succ_self _)
  · exact Prod.Lex.left _ _ (unseenTargets_lt none)

/-! ### Without unit rules -/

def unitFreeRhss (g : Grammar) (A : Symbol) : List Rhs :=
  Distinct.ofList ((g.unitReach A).flatMap fun B =>
    (g.rhss B).filter fun r => !Rhs.isUnit r && (!r.isEmpty || decide (A = g.start)))

/-- Replaces each unit rule by the other rules of the symbols it leads to. -/
def withoutUnits (g : Grammar) : Grammar :=
  g.withTable (g.table.sortKeys.mapValues fun A _ => g.unitFreeRhss A)

/-- A symbol without unit rules reaches only itself. -/
theorem unitReach_of_unitTargets_eq_nil {g : Grammar} {A : Symbol} (h : g.unitTargets A = []) :
    g.unitReach A = [A] := by
  have targets : ∀ seen, g.newTargets seen [A] = [] := by
    intro seen
    simp [newTargets, h, Distinct.ofList]
  unfold unitReach
  cases g.ruleCount with
  | zero => rfl
  | succ n => simp [followUnits, targets]

theorem rhss_withoutUnits (g : Grammar) (A : Symbol) :
    g.withoutUnits.rhss A = g.unitFreeRhss A := by
  have h : g.withoutUnits.table.get? A = (g.table.get? A).map fun _ => g.unitFreeRhss A := by
    unfold withoutUnits withTable
    rw [Table.get?_mapValues, Table.get?_sortKeys]
  unfold rhss
  rw [h]
  cases hA : g.table.get? A with
  | some _ => rfl
  | none =>
    have empty : g.rhss A = [] := by simp [rhss, hA]
    have none : g.unitTargets A = [] := by simp [unitTargets, empty]
    simp [unitFreeRhss, unitReach_of_unitTargets_eq_nil none, empty, Distinct.ofList]

end Grammar

end ContextFree
