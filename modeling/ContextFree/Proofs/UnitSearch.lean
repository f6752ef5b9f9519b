/-
  ContextFree/Proofs/UnitSearch.lean
  ==================================
  **A search with a queue** along unit rules, and the distances of what it finds.

  The symbols that a symbol reaches through unit rules are listed layer by layer.
  A search takes them one at a time from a queue: it follows their unit rules, and a
  symbol met for the first time joins the set of those seen, the list of those found
  and the end of the queue, all at once (`meet`).  In the middle of a layer the queue
  holds what is left of the layer, and then what the part behind it has led to
  (`searchUnits_add`), so both find the same symbols in the same order
  (`searchUnits_eq_unitReach`).

  `Layered` is the invariant of the layers: the symbols seen after `k` of them are
  those at distance at most `k`, and the last layer holds those at distance `k`.
  Hence the symbols come in the order of their distances (`unitReach_exact`).
-/
import ContextFree.Proofs.UnitElimination
import Mathlib.Data.List.Forall2

namespace ContextFree.Grammar

variable {g : Grammar} {A B : Symbol} {seen : SymbolSet} {layer : List Symbol} {k n : Nat}

/-! ### Distances -/

/-- A path of `n` unit rules from `A`. -/
inductive UnitPathIn (g : Grammar) (A : Symbol) : Nat → Symbol → Prop where
  | refl : UnitPathIn g A 0 A
  | tail {n : Nat} {B C : Symbol} (path : UnitPathIn g A n B) (hC : C.isNonterminal = true)
      (rule : [C] ∈ g.rhss B) : UnitPathIn g A (n + 1) C

/-- The shortest paths of unit rules from `A` to `B` have `n` rules. -/
def UnitDistance (g : Grammar) (A B : Symbol) (n : Nat) : Prop :=
  g.UnitPathIn A n B ∧ ∀ m, g.UnitPathIn A m B → n ≤ m

theorem unitPath_iff_exists : g.UnitPath A B ↔ ∃ n, g.UnitPathIn A n B := by
  constructor
  · intro path
    induction path with
    | refl => exact ⟨0, .refl⟩
    | tail _ step ih =>
      obtain ⟨n, path⟩ := ih
      obtain ⟨kind, rule⟩ := mem_unitTargets.1 step
      exact ⟨n + 1, .tail path kind rule⟩
  · rintro ⟨n, path⟩
    induction path with
    | refl => exact Relation.ReflTransGen.refl
    | tail _ kind rule ih => exact ih.tail (mem_unitTargets.2 ⟨kind, rule⟩)

/-- A path of unit rules leads from a non-terminal to non-terminals. -/
theorem UnitPathIn.isNonterminal (path : g.UnitPathIn A n B) (hA : A.isNonterminal = true) :
    B.isNonterminal = true := by
  cases path with
  | refl => exact hA
  | tail _ kind _ => exact kind

/-! ### Layers -/

/-- What holds after `k` layers of a search from `A`. -/
structure Layered (g : Grammar) (A : Symbol) (k : Nat) (seen : SymbolSet) (layer : List Symbol) :
    Prop where
  mem_seen_iff : ∀ B, B ∈ seen ↔ ∃ m ≤ k, g.UnitPathIn A m B
  mem_layer_iff : ∀ B, B ∈ layer ↔ g.UnitDistance A B k

namespace Layered

theorem begin (g : Grammar) (A : Symbol) : g.Layered A 0 ((∅ : SymbolSet).insert A) [A] := by
  have start : ∀ B, B = A ↔ g.UnitPathIn A 0 B := by
    intro B
    constructor
    · rintro rfl
      exact .refl
    · intro path
      cases path
      rfl
  constructor
  · intro B
    rw [SymbolSet.mem_singleton, start]
    constructor
    · exact fun path => ⟨0, Nat.le_refl 0, path⟩
    · rintro ⟨m, hm, path⟩
      rwa [Nat.le_zero.1 hm] at path
  · intro B
    rw [List.mem_singleton, start]
    exact ⟨fun path => ⟨path, fun m _ => Nat.zero_le m⟩, And.left⟩

variable (inv : g.Layered A k seen layer)
include inv

theorem lt_of_not_mem_seen (new : B ∉ seen) {m : Nat} (path : g.UnitPathIn A m B) : k < m := by
  apply Decidable.byContradiction
  intro near
  exact new ((inv.mem_seen_iff B).2 ⟨m, Nat.le_of_not_lt near, path⟩)

/-- What the last layer leads to for the first time is one rule further away. -/
theorem mem_newTargets_iff : B ∈ g.newTargets seen layer ↔ g.UnitDistance A B (k + 1) := by
  rw [mem_newTargets]
  constructor
  · rintro ⟨⟨C, hC, hB⟩, new⟩
    obtain ⟨kind, rule⟩ := mem_unitTargets.1 hB
    have path := ((inv.mem_layer_iff C).1 hC).1
    exact ⟨.tail path kind rule, fun m other => inv.lt_of_not_mem_seen new other⟩
  · rintro ⟨path, least⟩
    have new : B ∉ seen := by
      intro old
      obtain ⟨m, hm, other⟩ := (inv.mem_seen_iff B).1 old
      have := least m other
      omega
    cases path with
    | @tail _ C _ path kind rule =>
      -- A shorter path to the last but one symbol would give a shorter path to the last.
      have short : ∀ m, g.UnitPathIn A m C → k ≤ m :=
        fun m other => Nat.le_of_succ_le_succ (least (m + 1) (.tail other kind rule))
      have hC : C ∈ layer := (inv.mem_layer_iff C).2 ⟨path, short⟩
      exact ⟨⟨C, hC, mem_unitTargets.2 ⟨kind, rule⟩⟩, new⟩

theorem step :
    g.Layered A (k + 1) (seen.insertMany (g.newTargets seen layer)) (g.newTargets seen layer) := by
  refine ⟨?_, fun B => inv.mem_newTargets_iff⟩
  intro B
  rw [SymbolSet.mem_insertMany, inv.mem_newTargets_iff]
  constructor
  · rintro (old | ⟨path, _⟩)
    · obtain ⟨m, hm, path⟩ := (inv.mem_seen_iff B).1 old
      exact ⟨m, Nat.le_succ_of_le hm, path⟩
    · exact ⟨k + 1, Nat.le_refl _, path⟩
  · rintro ⟨m, hm, path⟩
    by_cases old : B ∈ seen
    · exact Or.inl old
    · have far := inv.lt_of_not_mem_seen old path
      have length : m = k + 1 := by omega
      rw [length] at path
      exact Or.inr ⟨path, fun m other => inv.lt_of_not_mem_seen old other⟩

theorem forall₂_newTargets : List.Forall₂ (g.UnitDistance A) (g.newTargets seen layer)
    ((g.newTargets seen layer).map fun _ => k + 1) := by
  rw [List.forall₂_map_right_iff, List.forall₂_same]
  exact fun B hB => inv.mem_newTargets_iff.1 hB

/-- The layers that follow hold symbols further and further away. -/
theorem exists_distances (n : Nat) :
    ∃ ds, List.Forall₂ (g.UnitDistance A) (g.followUnits n seen layer) ds ∧
      ds.Pairwise (· ≤ ·) ∧ ∀ d ∈ ds, k < d := by
  induction n generalizing k seen layer with
  | zero => exact ⟨[], .nil, .nil, List.forall_mem_nil _⟩
  | succ n ih =>
    rw [followUnits]
    split
    · exact ⟨[], .nil, .nil, List.forall_mem_nil _⟩
    · obtain ⟨ds, distances, sorted, further⟩ := ih inv.step
      refine ⟨_, List.rel_append inv.forall₂_newTargets distances, ?_, ?_⟩
      · rw [List.pairwise_append, List.pairwise_map]
        refine ⟨List.pairwise_of_forall fun _ _ => Nat.le_refl _, sorted, ?_⟩
        intro d hd e he
        obtain ⟨_, _, rfl⟩ := List.mem_map.1 hd
        exact Nat.le_of_lt (further e he)
      · intro d hd
        rcases List.mem_append.1 hd with hd | hd
        · obtain ⟨_, _, rfl⟩ := List.mem_map.1 hd
          exact Nat.lt_succ_self k
        · exact Nat.lt_of_succ_lt (further d hd)

end Layered

/-- A symbol is found when it is new, hence once. -/
theorem nodup_followUnits :
    (g.followUnits n seen layer).Nodup ∧ ∀ B ∈ g.followUnits n seen layer, B ∉ seen := by
  induction n generalizing seen layer with
  | zero => exact ⟨List.nodup_nil, List.forall_mem_nil _⟩
  | succ n ih =>
    rw [followUnits]
    split
    · exact ⟨List.nodup_nil, List.forall_mem_nil _⟩
    · obtain ⟨nodup, new⟩ := @ih (seen.insertMany (g.newTargets seen layer))
        (g.newTargets seen layer)
      constructor
      · refine List.nodup_append.2 ⟨Distinct.nodup_ofList _, nodup, ?_⟩
        rintro B hB C hC rfl
        exact new B hC (SymbolSet.mem_insertMany.2 (Or.inr hB))
      · intro B hB
        rcases List.mem_append.1 hB with hB | hB
        · exact (mem_newTargets.1 hB).2
        · exact fun old => new B hB (SymbolSet.mem_insertMany.2 (Or.inl old))

/-! ### The queue -/

/-- With the rest of a layer at the head of the queue the search comes to the end of the layer. -/
theorem searchUnits_add (found done rest : List Symbol) :
    g.searchUnits (UnitSearch.add ⟨seen, found, rest⟩ (g.newTargets seen done)) =
      g.searchUnits (UnitSearch.add ⟨seen, found, []⟩ (g.newTargets seen (done ++ rest))) := by
  induction rest generalizing done with
  | nil => rw [List.append_nil]
  | cons B rest ih =>
    have next : g.searchUnits (UnitSearch.add ⟨seen, found, B :: rest⟩ (g.newTargets seen done)) =
        g.searchUnits (UnitSearch.follow g
          (UnitSearch.add ⟨seen, found, rest⟩ (g.newTargets seen done)) B) := by
      rw [UnitSearch.add, List.cons_append, searchUnits]
      rfl
    rw [next, UnitSearch.follow_add, ih, List.append_assoc, List.singleton_append]

theorem searchUnits_layer (found layer : List Symbol) :
    g.searchUnits ⟨seen, found, layer⟩ =
      g.searchUnits (UnitSearch.add ⟨seen, found, []⟩ (g.newTargets seen layer)) := by
  rw [← List.nil_append layer, ← searchUnits_add, newTargets_nil, UnitSearch.add_nil]
  rfl

/-- The search finds what the layers hold, in the same order. -/
theorem searchUnits_eq (found : List Symbol) (rounds : g.unseenTargets seen ≤ n) :
    g.searchUnits ⟨seen, found, layer⟩ = found ++ g.followUnits n seen layer := by
  induction n generalizing seen found layer with
  | zero =>
    rw [searchUnits_layer, newTargets_eq_nil rounds, UnitSearch.add_nil, searchUnits, followUnits,
      List.append_nil]
  | succ n ih =>
    rw [searchUnits_layer, followUnits]
    split
    · rename_i none
      rw [none, UnitSearch.add_nil, searchUnits, List.append_nil]
    · rename_i some
      have fewer := unseenTargets_lt some
      have left : g.unseenTargets (seen.insertMany (g.newTargets seen layer)) ≤ n := by omega
      simp only [UnitSearch.add, List.nil_append]
      rw [ih _ left, List.append_assoc]

/-- From a symbol alone the search finds what the symbol reaches. -/
theorem searchUnits_eq_unitReach (g : Grammar) (A : Symbol) :
    g.searchUnits ⟨(∅ : SymbolSet).insert A, [A], [A]⟩ = g.unitReach A :=
  searchUnits_eq [A] unseenTargets_le_ruleCount

/-! ### What is found -/

/-- A search along unit rules from a non-terminal ends with the list of what it reaches.  The list
    starts with the non-terminal itself and has no repeats, and in it are the non-terminals that
    paths of unit rules lead to.  They come in the order of their distances. -/
theorem unitReach_exact (g : Grammar) {A : Symbol} (hA : A.isNonterminal = true) :
    g.searchUnits ⟨(∅ : SymbolSet).insert A, [A], [A]⟩ = g.unitReach A ∧
    (g.unitReach A).head? = some A ∧
    (g.unitReach A).Nodup ∧
    (∀ B, B ∈ g.unitReach A ↔ B.isNonterminal = true ∧ ∃ n, g.UnitPathIn A n B) ∧
    ∃ ds, List.Forall₂ (g.UnitDistance A) (g.unitReach A) ds ∧ ds.Pairwise (· ≤ ·) := by
  have first := Layered.begin g A
  refine ⟨searchUnits_eq_unitReach g A, rfl, ?_, ?_, ?_⟩
  · obtain ⟨nodup, new⟩ := nodup_followUnits
    exact List.nodup_cons.2 ⟨fun hA => new A hA (SymbolSet.mem_singleton.2 rfl), nodup⟩
  · intro B
    rw [mem_unitReach_iff, unitPath_iff_exists]
    exact (and_iff_right_of_imp fun ⟨_, path⟩ => path.isNonterminal hA).symm
  · obtain ⟨ds, distances, sorted, further⟩ := first.exists_distances g.ruleCount
    have here : g.UnitDistance A A 0 := (first.mem_layer_iff A).1 (List.mem_singleton.2 rfl)
    refine ⟨0 :: ds, .cons here distances, ?_⟩
    exact List.pairwise_cons.2 ⟨fun d _ => Nat.zero_le d, sorted⟩

/-- `S -> A | B | S`, `A -> C | a`, `B -> A | D | B b`, `C -> A` and `D -> S | E`: `A` and `C` lead
    to each other, `D` leads back to `S`, and `E` has no rule. -/
def looping : Grammar :=
  (ofSymbols (.nonterminal "S") (.ofList [Symbol.nonterminal "E"])
      (.ofList [Symbol.terminal "a", Symbol.terminal "b"])).addRules
    [⟨.nonterminal "S", [.nonterminal "A"]⟩,
      ⟨.nonterminal "S", [.nonterminal "B"]⟩,
      ⟨.nonterminal "S", [.nonterminal "S"]⟩,
      ⟨.nonterminal "A", [.nonterminal "C"]⟩,
      ⟨.nonterminal "A", [.terminal "a"]⟩,
      ⟨.nonterminal "B", [.nonterminal "A"]⟩,
      ⟨.nonterminal "B", [.nonterminal "D"]⟩,
      ⟨.nonterminal "B", [.nonterminal "B", .terminal "b"]⟩,
      ⟨.nonterminal "C", [.nonterminal "A"]⟩,
      ⟨.nonterminal "D", [.nonterminal "S"]⟩,
      ⟨.nonterminal "D", [.nonterminal "E"]⟩]

theorem unitReach_exact_looping :
    let A := looping.start
    A.isNonterminal = true ∧
    looping.searchUnits ⟨(∅ : SymbolSet).insert A, [A], [A]⟩ = looping.unitReach A ∧
    (looping.unitReach A).head? = some A ∧
    (looping.unitReach A).Nodup ∧
    (∀ B, B ∈ looping.unitReach A ↔
      B.isNonterminal = true ∧ ∃ n, looping.UnitPathIn A n B) ∧
    ∃ ds, List.Forall₂ (looping.UnitDistance A) (looping.unitReach A) ds ∧
      ds.Pairwise (· ≤ ·) := by
  have kind : looping.start.isNonterminal = true := rfl
  exact ⟨kind, unitReach_exact looping kind⟩

/-- The layers of `S` are `S`, then `A` and `B`, then `C` and `D`, then `E`. -/
example : ["S", "C", "E"].map
    (fun a => (looping.unitReach (.nonterminal a)).map Symbol.name) =
      [["S", "A", "B", "C", "D", "E"], ["C", "A"], ["E"]] := by decide

end ContextFree.Grammar
