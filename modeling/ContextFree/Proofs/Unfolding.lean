/-
  ContextFree/Proofs/Unfolding.lean
  =================================
  **Unfolding**: the symbols of a set `N` are replaced by their right-hand sides until
  none is left.

  `Unfold` replaces one occurrence, in any place.  If each symbol of `N` has one
  right-hand side, the order of the replacements does not matter: their number is
  known in advance (`UnfoldsIn`), each step is one of them (`UnfoldsIn.step`), so
  every way ends and all end in the same string (`Unfolds.unfoldsTo`).
-/
import ContextFree.Proofs.Expansion
import Mathlib.Data.List.Forall2
import Mathlib.Logic.Relation

namespace ContextFree

/-- One occurrence of a symbol of `N` is replaced by a right-hand side. -/
inductive Unfold (N : Set Symbol) (R : Set Rule) : List Symbol → List Symbol → Prop where
  | replace (u v : List Symbol) {X : Symbol} {r : Rhs} (hX : X ∈ N) (mem : ⟨X, r⟩ ∈ R) :
      Unfold N R (u ++ X :: v) (u ++ r ++ v)

/-- Every way to replace the symbols of `N` in `u` comes to an end; `v` can be reached, and nothing
    else without symbols of `N`. -/
structure UnfoldsTo (N : Set Symbol) (R : Set Rule) (u v : List Symbol) : Prop where
  terminates : Acc (fun y x => Unfold N R x y) u
  reaches : Relation.ReflTransGen (Unfold N R) u v
  not_mem : ∀ x ∈ v, x ∉ N
  unique : ∀ w, Relation.ReflTransGen (Unfold N R) u w → (∀ x ∈ w, x ∉ N) → w = v

/-- `u` becomes `v` when `n` symbols of `N` are replaced, and `v` has none. -/
inductive UnfoldsIn (N : Set Symbol) (R : Set Rule) : Nat → List Symbol → List Symbol → Prop where
  | nil : UnfoldsIn N R 0 [] []
  | keep {x : Symbol} {n : Nat} {u v : List Symbol} (hx : x ∉ N) (rest : UnfoldsIn N R n u v) :
      UnfoldsIn N R n (x :: u) (x :: v)
  | rule {X : Symbol} {m n : Nat} {r w u v : List Symbol} (hX : X ∈ N) (mem : ⟨X, r⟩ ∈ R)
      (body : UnfoldsIn N R m r w) (rest : UnfoldsIn N R n u v) :
      UnfoldsIn N R (m + n + 1) (X :: u) (w ++ v)

def Unfolds (N : Set Symbol) (R : Set Rule) (u v : List Symbol) : Prop := ∃ n, UnfoldsIn N R n u v

/-- The symbols of `N` have at most one right-hand side. -/
def Deterministic (N : Set Symbol) (R : Set Rule) : Prop :=
  ∀ X ∈ N, ∀ r s, ⟨X, r⟩ ∈ R → ⟨X, s⟩ ∈ R → r = s

variable {N : Set Symbol} {R : Set Rule} {m n : Nat} {u u' v v' : List Symbol}

theorem Unfold.context (h : Unfold N R u v) (x y : List Symbol) :
    Unfold N R (x ++ u ++ y) (x ++ v ++ y) := by
  obtain ⟨a, b, hX, mem⟩ := h
  simpa using Unfold.replace (x ++ a) (b ++ y) hX mem

theorem reaches_context (h : Relation.ReflTransGen (Unfold N R) u v) (x y : List Symbol) :
    Relation.ReflTransGen (Unfold N R) (x ++ u ++ y) (x ++ v ++ y) := by
  induction h with
  | refl => exact Relation.ReflTransGen.refl
  | tail _ last ih => exact ih.tail (last.context x y)

/-! ### Counted unfoldings -/

namespace UnfoldsIn

theorem append (h : UnfoldsIn N R m u v) (h' : UnfoldsIn N R n u' v') :
    UnfoldsIn N R (m + n) (u ++ u') (v ++ v') := by
  induction h with
  | nil =>
    rw [Nat.zero_add]
    exact h'
  | keep hx _ ih => exact keep hx ih
  | @rule X k l r w u v hX mem body _ _ ih =>
    rw [List.append_assoc, Nat.add_right_comm, Nat.add_assoc k l n]
    exact rule hX mem body ih

theorem refl (hu : ∀ x ∈ u, x ∉ N) : UnfoldsIn N R 0 u u := by
  induction u with
  | nil => exact nil
  | cons x u ih =>
    obtain ⟨hx, hu⟩ := List.forall_mem_cons.1 hu
    exact keep hx (ih hu)

theorem not_mem (h : UnfoldsIn N R n u v) : ∀ x ∈ v, x ∉ N := by
  induction h with
  | nil => exact List.forall_mem_nil _
  | keep hx _ ih => exact List.forall_mem_cons.2 ⟨hx, ih⟩
  | rule _ _ _ _ ihBody ih => exact List.forall_mem_append.2 ⟨ihBody, ih⟩

theorem eq_of_not_mem (h : UnfoldsIn N R n u v) (hu : ∀ x ∈ u, x ∉ N) : u = v := by
  induction h with
  | nil => rfl
  | keep _ _ ih => rw [ih (List.forall_mem_cons.1 hu).2]
  | rule hX _ _ _ _ _ => exact absurd hX (List.forall_mem_cons.1 hu).1

theorem reaches (h : UnfoldsIn N R n u v) : Relation.ReflTransGen (Unfold N R) u v := by
  induction h with
  | nil => exact Relation.ReflTransGen.refl
  | @keep x _ u v _ _ ih => simpa using reaches_context ih [x] []
  | @rule X m n r w u v hX mem _ _ ihBody ih =>
    -- First the symbol, then its right-hand side, then the rest.
    have head : Unfold N R (X :: u) (r ++ u) := Unfold.replace [] u hX mem
    have left : Relation.ReflTransGen (Unfold N R) (r ++ u) (w ++ u) := reaches_context ihBody [] u
    have right : Relation.ReflTransGen (Unfold N R) (w ++ u) (w ++ v) := by
      simpa using reaches_context ih w []
    exact (left.trans right).head head

/-- Any step is one of those that are counted. -/
theorem step (hR : Deterministic N R) (h : UnfoldsIn N R n u v) (first : Unfold N R u u') :
    ∃ m, m < n ∧ UnfoldsIn N R m u' v := by
  obtain ⟨a, b, hX, mem⟩ := first
  induction a generalizing n v with
  | nil =>
    cases h with
    | keep hx _ => exact absurd hX hx
    | rule _ mem' body rest =>
      rw [hR _ hX _ _ mem mem']
      exact ⟨_, Nat.lt_succ_self _, body.append rest⟩
  | cons x a ih =>
    cases h with
    | keep hx rest =>
      obtain ⟨m, hm, tail⟩ := ih rest
      exact ⟨m, hm, keep hx tail⟩
    | rule hY memY body rest =>
      obtain ⟨m, hm, tail⟩ := ih rest
      exact ⟨_, by omega, rule hY memY body tail⟩

/-- However far one has come, the rest leads to the same string. -/
theorem steps (hR : Deterministic N R) (h : UnfoldsIn N R n u v)
    (run : Relation.ReflTransGen (Unfold N R) u u') : Unfolds N R u' v := by
  induction run with
  | refl => exact ⟨n, h⟩
  | tail _ last ih =>
    obtain ⟨k, hk⟩ := ih
    obtain ⟨m, _, hm⟩ := hk.step hR last
    exact ⟨m, hm⟩

theorem terminates (hR : Deterministic N R) (h : UnfoldsIn N R n u v) :
    Acc (fun y x => Unfold N R x y) u := by
  induction n using Nat.strongRecOn generalizing u with
  | _ n ih =>
    refine Acc.intro u fun u' first => ?_
    obtain ⟨m, hm, rest⟩ := h.step hR first
    exact ih m hm rest

end UnfoldsIn

/-! ### Unfoldings -/

namespace Unfolds

theorem refl (hu : ∀ x ∈ u, x ∉ N) : Unfolds N R u u := ⟨0, UnfoldsIn.refl hu⟩

theorem append (h : Unfolds N R u v) (h' : Unfolds N R u' v') :
    Unfolds N R (u ++ u') (v ++ v') := by
  obtain ⟨m, h⟩ := h
  obtain ⟨n, h'⟩ := h'
  exact ⟨m + n, h.append h'⟩

theorem ofRule {X : Symbol} {r : Rhs} (hX : X ∈ N) (mem : ⟨X, r⟩ ∈ R) (h : Unfolds N R r v) :
    Unfolds N R [X] v := by
  obtain ⟨n, h⟩ := h
  have whole := UnfoldsIn.rule hX mem h UnfoldsIn.nil
  rw [List.append_nil] at whole
  exact ⟨_, whole⟩

/-- Symbol by symbol. -/
theorem flatMap {φ : Symbol → List Symbol} (h : ∀ x ∈ u, Unfolds N R [x] (φ x)) :
    Unfolds N R u (u.flatMap φ) := by
  induction u with
  | nil => exact ⟨0, UnfoldsIn.nil⟩
  | cons x u ih =>
    obtain ⟨hx, hu⟩ := List.forall_mem_cons.1 h
    rw [List.flatMap_cons]
    exact append (u := [x]) hx (ih hu)

theorem unfoldsTo (hR : Deterministic N R) (h : Unfolds N R u v) : UnfoldsTo N R u v := by
  obtain ⟨n, h⟩ := h
  refine ⟨h.terminates hR, h.reaches, h.not_mem, fun w run hw => ?_⟩
  obtain ⟨_, rest⟩ := h.steps hR run
  exact rest.eq_of_not_mem hw

end Unfolds

theorem UnfoldsTo.inj (h : UnfoldsTo N R u v) (h' : UnfoldsTo N R u v') : v = v' :=
  h'.unique v h.reaches h.not_mem

/-- Strings that unfold to different strings are different. -/
theorem nodup_of_unfoldsTo {us vs : List (List Symbol)}
    (h : List.Forall₂ (UnfoldsTo N R) us vs) (hvs : vs.Nodup) : us.Nodup := by
  have image : ∀ {us vs}, List.Forall₂ (UnfoldsTo N R) us vs → ∀ u ∈ us, ∃ v ∈ vs,
      UnfoldsTo N R u v := by
    intro us vs h
    induction h with
    | nil => exact List.forall_mem_nil _
    | cons huv _ ih =>
      refine List.forall_mem_cons.2 ⟨⟨_, List.mem_cons_self, huv⟩, fun u hu => ?_⟩
      obtain ⟨v, hv, huv⟩ := ih u hu
      exact ⟨v, List.mem_cons_of_mem _ hv, huv⟩
  induction h with
  | nil => exact List.nodup_nil
  | cons huv rest ih =>
    obtain ⟨hv, hvs⟩ := List.nodup_cons.1 hvs
    refine List.nodup_cons.2 ⟨fun hu => ?_, ih hvs⟩
    obtain ⟨w, hw, huw⟩ := image rest _ hu
    exact hv (huv.inj huw ▸ hw)

end ContextFree
