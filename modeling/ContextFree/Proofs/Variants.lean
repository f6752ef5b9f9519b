/-
  ContextFree/Proofs/Variants.lean
  ================================
  **The variants of a right-hand side** as deletions of positions.

  A set of positions that hold symbols in `nulls` is a choice of what to drop.  Read
  from left to right at the positions of such symbols, it is a list of decisions, and
  the lists are compared lexicographically, with keeping before dropping.
  `droppableSets` lists all choices in this order, and carrying them out gives the list
  from which the variants come (`choices_eq_map`).

  Where several choices leave the same symbols, the first of them counts: the variants
  are what the first choices leave, in the order of these choices (`variants_exact`).
-/
import ContextFree.Proofs.EpsilonElimination
import Mathlib.Data.Finset.Image

namespace ContextFree.Rhs

variable {nulls : SymbolSet} {x : Symbol} {r : Rhs} {b : Bool} {D : Finset Nat}

/-! ### Choices as sets of positions -/

/-- What is left of a right-hand side without the symbols at some positions. -/
def without (r : Rhs) (D : Finset Nat) : Rhs :=
  (r.zipIdx.filter fun e => decide (e.2 ∉ D)).map Prod.fst

/-- The positions hold symbols in `nulls`. -/
def Droppable (nulls : SymbolSet) (r : Rhs) (D : Finset Nat) : Prop :=
  ∀ i ∈ D, ∃ x ∈ nulls, r[i]? = some x

/-- What is decided about each occurrence of a symbol in `nulls`, from left to right: `false` to
    keep it, which comes first, and `true` to drop it. -/
def decisions (nulls : SymbolSet) (r : Rhs) (D : Finset Nat) : List Bool :=
  (r.zipIdx.filter fun e => decide (e.1 ∈ nulls)).map fun e => decide (e.2 ∈ D)

/-- Of the choices that leave the same symbols, this one comes first. -/
def FirstChoice (nulls : SymbolSet) (r : Rhs) (D : Finset Nat) : Prop :=
  r.Droppable nulls D ∧
    ∀ E, r.Droppable nulls E → r.without E = r.without D →
      E = D ∨ r.decisions nulls D < r.decisions nulls E

/-- The positions behind one more symbol, and the position of that symbol if it is dropped. -/
def prepend (dropped : Bool) (D : Finset Nat) : Finset Nat :=
  if dropped then insert 0 (D.image Nat.succ) else D.image Nat.succ

@[simp] theorem zero_mem_prepend : 0 ∈ prepend b D ↔ b = true := by
  cases b <;> simp [prepend]

@[simp] theorem succ_mem_prepend {i : Nat} : i + 1 ∈ prepend b D ↔ i ∈ D := by
  cases b <;> simp [prepend]

theorem prepend_inj {c : Bool} {E : Finset Nat} :
    prepend b D = prepend c E ↔ b = c ∧ D = E := by
  constructor
  · intro same
    constructor
    · rw [Bool.eq_iff_iff, ← @zero_mem_prepend b D, same, zero_mem_prepend]
    · ext i
      rw [← @succ_mem_prepend b D, same, succ_mem_prepend]
  · rintro ⟨rfl, rfl⟩
    rfl

theorem exists_prepend (D : Finset Nat) : ∃ b E, D = prepend b E := by
  refine ⟨decide (0 ∈ D), (D.erase 0).image Nat.pred, ?_⟩
  ext i
  cases i with
  | zero => simp
  | succ i =>
    rw [succ_mem_prepend, Finset.mem_image]
    constructor
    · exact fun hi => ⟨i + 1, Finset.mem_erase.2 ⟨Nat.succ_ne_zero i, hi⟩, rfl⟩
    · rintro ⟨j, hj, rfl⟩
      obtain ⟨positive, hj⟩ := Finset.mem_erase.1 hj
      rwa [Nat.pred_eq_sub_one, Nat.sub_one_add_one positive]

theorem without_prepend :
    Rhs.without (x :: r) (prepend b D) = if b then r.without D else x :: r.without D := by
  unfold without
  rw [List.zipIdx_cons', List.filter_cons, List.filter_map]
  cases b <;> simp [Function.comp_def]

theorem decisions_prepend :
    Rhs.decisions nulls (x :: r) (prepend b D) =
      if x ∈ nulls then b :: r.decisions nulls D else r.decisions nulls D := by
  unfold decisions
  rw [List.zipIdx_cons', List.filter_cons, List.filter_map]
  by_cases hx : x ∈ nulls <;> simp [hx, Function.comp_def]

theorem droppable_prepend :
    Rhs.Droppable nulls (x :: r) (prepend b D) ↔
      (b = true → x ∈ nulls) ∧ r.Droppable nulls D := by
  constructor
  · intro drop
    constructor
    · intro hb
      obtain ⟨y, hy, here⟩ := drop 0 (zero_mem_prepend.2 hb)
      cases here
      exact hy
    · intro i hi
      exact drop (i + 1) (succ_mem_prepend.2 hi)
  · rintro ⟨first, others⟩ i hi
    cases i with
    | zero => exact ⟨x, first (zero_mem_prepend.1 hi), rfl⟩
    | succ i => exact others i (succ_mem_prepend.1 hi)

theorem droppable_nil : Rhs.Droppable nulls [] D ↔ D = ∅ := by
  rw [Finset.eq_empty_iff_forall_notMem]
  constructor
  · intro drop i hi
    obtain ⟨y, _, here⟩ := drop i hi
    cases here
  · exact fun none i hi => absurd hi (none i)

/-! ### All choices in order -/

/-- The sets of positions that may be dropped: first those that keep the first symbol. -/
def droppableSets (nulls : SymbolSet) : Rhs → List (Finset Nat)
  | [] => [∅]
  | x :: r =>
    let rest := droppableSets nulls r
    rest.map (prepend false) ++ if x ∈ nulls then rest.map (prepend true) else []

theorem droppableSets_cons (nulls : SymbolSet) (x : Symbol) (r : Rhs) :
    Rhs.droppableSets nulls (x :: r) =
      (Rhs.droppableSets nulls r).map (prepend false) ++
        if x ∈ nulls then (Rhs.droppableSets nulls r).map (prepend true) else [] := rfl

theorem prepend_mem_droppableSets :
    prepend b D ∈ Rhs.droppableSets nulls (x :: r) ↔
      (b = true → x ∈ nulls) ∧ D ∈ r.droppableSets nulls := by
  by_cases hx : x ∈ nulls <;> cases b <;> simp [droppableSets, hx, prepend_inj]

theorem mem_droppableSets_iff : D ∈ r.droppableSets nulls ↔ r.Droppable nulls D := by
  induction r generalizing D with
  | nil => rw [droppable_nil, droppableSets, List.mem_singleton]
  | cons x r ih =>
    obtain ⟨b, E, rfl⟩ := exists_prepend D
    rw [prepend_mem_droppableSets, droppable_prepend, ih]

/-- The sets come in the order of the decisions that they stand for. -/
theorem pairwise_droppableSets (nulls : SymbolSet) (r : Rhs) :
    (r.droppableSets nulls).Pairwise fun D E => r.decisions nulls D < r.decisions nulls E := by
  induction r with
  | nil => exact List.pairwise_singleton _ _
  | cons x r ih =>
    rw [droppableSets_cons]
    by_cases hx : x ∈ nulls
    · have later : ∀ b, ((Rhs.droppableSets nulls r).map (prepend b)).Pairwise fun D E =>
          Rhs.decisions nulls (x :: r) D < Rhs.decisions nulls (x :: r) E := by
        intro b
        rw [List.pairwise_map]
        refine ih.imp fun {D E} lt => ?_
        rw [decisions_prepend, decisions_prepend, if_pos hx, if_pos hx]
        exact List.cons_lt_cons_iff.2 (Or.inr ⟨rfl, lt⟩)
      rw [if_pos hx, List.pairwise_append]
      refine ⟨later false, later true, ?_⟩
      intro D hD E hE
      obtain ⟨D, _, rfl⟩ := List.mem_map.1 hD
      obtain ⟨E, _, rfl⟩ := List.mem_map.1 hE
      rw [decisions_prepend, decisions_prepend, if_pos hx, if_pos hx]
      exact List.cons_lt_cons_iff.2 (Or.inl (by decide))
    · rw [if_neg hx, List.append_nil, List.pairwise_map]
      refine ih.imp fun {D E} lt => ?_
      rwa [decisions_prepend, decisions_prepend, if_neg hx, if_neg hx]

/-- Carried out one after the other, the choices give the list that the variants come from. -/
theorem choices_eq_map (nulls : SymbolSet) (r : Rhs) :
    r.choices nulls = (r.droppableSets nulls).map r.without := by
  induction r with
  | nil => rfl
  | cons x r ih =>
    have keep : Rhs.without (x :: r) ∘ prepend false = (x :: ·) ∘ Rhs.without r := by
      funext D
      exact without_prepend
    have drop : Rhs.without (x :: r) ∘ prepend true = Rhs.without r := by
      funext D
      exact without_prepend
    rw [choices_cons, droppableSets_cons, ih, List.map_append, List.map_map, List.map_map, keep]
    split
    · rw [List.map_map, drop]
    · rfl

theorem mem_choices_iff {v : Rhs} :
    v ∈ r.choices nulls ↔ ∃ D, r.Droppable nulls D ∧ v = r.without D := by
  simp only [choices_eq_map, List.mem_map, mem_droppableSets_iff, eq_comm]

/-! ### From left to right -/

theorem foldl_keepOrDrop (vs : List Rhs) :
    r.foldl (keepOrDrop nulls) vs = vs.flatMap fun v => (r.choices nulls).map (v ++ ·) := by
  induction r generalizing vs with
  | nil => simp [choices]
  | cons x r ih =>
    rw [List.foldl_cons, ih, keepOrDrop, List.flatMap_assoc]
    congr 1
    funext v
    by_cases hx : x ∈ nulls <;> simp [choices_cons, hx, Function.comp_def]

/-- The choices may be carried out symbol by symbol from the left. -/
theorem foldl_keepOrDrop_eq_choices (nulls : SymbolSet) (r : Rhs) :
    r.foldl (keepOrDrop nulls) [[]] = r.choices nulls := by
  rw [foldl_keepOrDrop]
  simp

/-! ### Variants -/

/-- The variants of a right-hand side have no repeats and are what is left of it without any set of
    positions that hold symbols in `nulls`.  Each variant has a first choice that leaves it, and the
    variants come in the order of these choices, with the right-hand side itself first.  The empty
    one is among them if and only if all symbols are in `nulls`.  Keeping or dropping one symbol
    after the other, from the left, gives the variants in the same order. -/
theorem variants_exact (nulls : SymbolSet) (r : Rhs) :
    (r.variants nulls).Nodup ∧
    (∀ v, v ∈ r.variants nulls ↔ ∃ D, r.Droppable nulls D ∧ v = r.without D) ∧
    (∃ Ds : List (Finset Nat), r.variants nulls = Ds.map r.without ∧
      (∀ D ∈ Ds, r.FirstChoice nulls D) ∧
      Ds.Pairwise fun D E => r.decisions nulls D < r.decisions nulls E) ∧
    (r.variants nulls).head? = some r ∧
    ([] ∈ r.variants nulls ↔ ∀ x ∈ r, x ∈ nulls) ∧
    Distinct.ofList (r.foldl (keepOrDrop nulls) [[]]) = r.variants nulls := by
  refine ⟨Distinct.nodup_ofList _, ?_, ?_, ?_, ?_, ?_⟩
  · intro v
    rw [variants, Distinct.mem_ofList, mem_choices_iff]
  · have order := pairwise_droppableSets nulls r
    obtain ⟨Ds, sub, eq, first⟩ := Distinct.exists_ofList_map_eq r.without order
    refine ⟨Ds, ?_, ?_, order.sublist sub⟩
    · rw [variants, choices_eq_map, eq]
    · intro D hD
      refine ⟨mem_droppableSets_iff.1 (sub.subset hD), ?_⟩
      intro E hE
      exact first D hD E (mem_droppableSets_iff.2 hE)
  · rw [variants, Distinct.head?_ofList, head?_choices]
  · rw [variants, Distinct.mem_ofList, nil_mem_choices_iff]
  · rw [foldl_keepOrDrop_eq_choices, variants]

/-- Two choices leave `A`, and it comes where the first of them puts it, before `B A`. -/
example :
    let A := Symbol.nonterminal "A"
    let B := Symbol.nonterminal "B"
    Rhs.variants (.ofList [A, B]) [A, B, A] =
      [[A, B, A], [A, B], [A, A], [A], [B, A], [B], []] := by decide

end ContextFree.Rhs
