/-
  ContextFree/Proofs/Abbreviation.lean
  ====================================
  **Rules with abbreviations.**

  Both passes of the conversion to Chomsky normal form introduce non-terminals
  that stand for a string of the old symbols: a preterminal for its terminal, a
  link of a chain for the rest of a right-hand side.  `Abbreviates K R R' φ` says
  that the rules `R'` do this to the rules `R`: `φ` gives the meaning of every
  symbol and leaves the symbols of `K` alone.

  One new link is an abbreviation (`Abbreviates.link`), and abbreviations compose
  (`Abbreviates.trans`), so a chain of any length over any number of rules is
  built from single links.  The consequences are drawn once: strings over `K`
  expand to the same strings over `K` (`expands_iff`), and the new rules take part
  in the derivations of words if the old ones do (`takesPart`).
-/
import ContextFree.Proofs.Expansion

namespace ContextFree

/-- The rules `R'` are the rules `R` with symbols outside `K` that abbreviate strings: a symbol `x`
    stands for `φ x`. -/
structure Abbreviates (K : Set Symbol) (R R' : Set Rule) (φ : Symbol → List Symbol) : Prop where
  fixes : ∀ x ∈ K, φ x = [x]
  sound : ∀ A r, ⟨A, r⟩ ∈ R' → Expands R (φ A) (r.flatMap φ)
  complete : ∀ A r, ⟨A, r⟩ ∈ R → Expands R' [A] r
  unfolds : ∀ x, Expands R' [x] (φ x)
  origin : ∀ r ∈ R', ∃ s ∈ R, ∃ u v, Expands R' [s.lhs] (u ++ r.lhs :: v)
  keeps : ∀ r ∈ R, ∃ s ∈ R', s.lhs = r.lhs

/-- The rules only mention symbols of `K`. -/
def MentionsOnly (K : Set Symbol) (R : Set Rule) : Prop :=
  ∀ r ∈ R, r.lhs ∈ K ∧ ∀ x ∈ r.rhs, x ∈ K

/-- A symbol that occurs in a derivation of a word from `S`. -/
def TakesPart (R : Set Rule) (S A : Symbol) : Prop :=
  ∃ u v, Expands R [S] (u ++ A :: v) ∧ Completable R (u ++ A :: v)

variable {K K' : Set Symbol} {R R' R'' : Set Rule} {φ φ' : Symbol → List Symbol}

theorem flatMap_eq_self (h : ∀ x ∈ K, φ x = [x]) {u : List Symbol} (hu : ∀ x ∈ u, x ∈ K) :
    u.flatMap φ = u := by
  induction u with
  | nil => rfl
  | cons x u ih =>
    obtain ⟨hx, hu⟩ := List.forall_mem_cons.1 hu
    rw [List.flatMap_cons, h x hx, ih hu]
    rfl

/-- If the right-hand sides can be completed, a left-hand side that is reached takes part. -/
theorem takesPart_of_expands (hR : ∀ r ∈ R, Completable R r.rhs) {S : Symbol} {r : Rule}
    (hr : r ∈ R) {u v : List Symbol} (h : Expands R [S] (u ++ r.lhs :: v)) :
    TakesPart R S r.lhs := by
  refine ⟨u, v, h, completable_of_expands hR h ?_⟩
  rcases expands_singleton.1 h with same | ⟨s, hs, _⟩
  · -- Nothing has been replaced: `S` is the left-hand side itself.
    have hlhs : r.lhs ∈ [S] := same ▸ List.mem_append_right u List.mem_cons_self
    rw [← List.mem_singleton.1 hlhs]
    exact (hR r hr).of_expands (Expands.ofMem hr)
  · exact (hR ⟨S, s⟩ hs).of_expands (Expands.single hs)

namespace Abbreviates

/-! ### Composition -/

theorem refl (K : Set Symbol) (R : Set Rule) : Abbreviates K R R fun x => [x] where
  fixes _ _ := rfl
  sound A r hr := by
    rw [List.flatMap_singleton']
    exact Expands.single hr
  complete _ _ hr := Expands.single hr
  unfolds x := Expands.refl R [x]
  origin r hr := ⟨r, hr, [], [], Expands.refl R [r.lhs]⟩
  keeps r hr := ⟨r, hr, rfl⟩

theorem trans (h : Abbreviates K R R' φ) (h' : Abbreviates K' R' R'' φ') (sub : K ⊆ K') :
    Abbreviates K R R'' fun x => (φ' x).flatMap φ where
  fixes x hx := by
    rw [h'.fixes x (sub hx)]
    simpa using h.fixes x hx
  sound A r hr := by
    have s := (h'.sound A r hr).simulate h.sound
    rwa [List.flatMap_assoc] at s
  complete A r hr := (h.complete A r hr).replay h'.complete
  unfolds x := by
    -- The later meaning first: its symbols are those of `R'`, which `φ` takes further.
    have inner : Expands R'' (φ' x) ((φ' x).flatMap φ) :=
      expands_flatMap fun y _ => (h.unfolds y).replay h'.complete
    exact (h'.unfolds x).trans inner
  origin r hr := by
    obtain ⟨s, hs, u, v, huv⟩ := h'.origin r hr
    obtain ⟨t, ht, p, q, hpq⟩ := h.origin s hs
    refine ⟨t, ht, p ++ u, v ++ q, (hpq.replay h'.complete).trans ?_⟩
    have inside := ((Expands.refl R'' p).append huv).append (Expands.refl R'' q)
    simpa using inside
  keeps r hr := by
    obtain ⟨s, hs, hlhs⟩ := h.keeps r hr
    obtain ⟨t, ht, hlhs'⟩ := h'.keeps s hs
    exact ⟨t, ht, hlhs'.trans hlhs⟩

/-! ### One link of a chain -/

/-- `A → s r` becomes `A → s X` and `X → r` for a new symbol `X`. -/
theorem link {A s X : Symbol} {r : Rhs} (hX : X ∉ K)
    (hR : MentionsOnly K (insert ⟨A, s :: r⟩ R)) :
    Abbreviates K (insert ⟨A, s :: r⟩ R) (insert ⟨A, [s, X]⟩ (insert ⟨X, r⟩ R))
      fun x => if x = X then r else [x] := by
  have fixes : ∀ x ∈ K, (if x = X then r else [x]) = [x] := by
    intro x hx
    apply if_neg
    rintro rfl
    exact hX hx
  obtain ⟨hA, hsr⟩ := hR _ (Set.mem_insert _ _)
  obtain ⟨hs, hr⟩ := List.forall_mem_cons.1 hsr
  have unfoldX : Expands (insert ⟨A, [s, X]⟩ (insert ⟨X, r⟩ R)) [X] r :=
    Expands.single (Set.mem_insert_of_mem _ (Set.mem_insert _ _))
  refine ⟨fixes, ?_, ?_, ?_, ?_, ?_⟩
  · intro B t ht
    rcases ht with e | e | hB
    · cases e
      rw [fixes A hA, List.flatMap_cons, List.flatMap_singleton, fixes s hs, if_pos rfl]
      exact Expands.single (Set.mem_insert _ _)
    · cases e
      rw [if_pos rfl, flatMap_eq_self fixes hr]
      exact Expands.refl _ r
    · obtain ⟨hBK, ht⟩ := hR _ (Set.mem_insert_of_mem _ hB)
      rw [fixes B hBK, flatMap_eq_self fixes ht]
      exact Expands.single (Set.mem_insert_of_mem _ hB)
  · intro B t ht
    rcases ht with e | hB
    · cases e
      have first : Expands (insert ⟨A, [s, X]⟩ (insert ⟨X, r⟩ R)) [A] [s, X] :=
        Expands.single (Set.mem_insert _ _)
      exact first.trans (Expands.keep s unfoldX)
    · exact Expands.single (Set.mem_insert_of_mem _ (Set.mem_insert_of_mem _ hB))
  · intro x
    by_cases hx : x = X
    · rw [if_pos hx, hx]
      exact unfoldX
    · rw [if_neg hx]
      exact Expands.refl _ [x]
  · intro t ht
    rcases ht with rfl | rfl | hB
    · exact ⟨_, Set.mem_insert _ _, [], [], Expands.refl _ [A]⟩
    · exact ⟨_, Set.mem_insert _ _, [s], [], Expands.single (Set.mem_insert _ _)⟩
    · exact ⟨t, Set.mem_insert_of_mem _ hB, [], [], Expands.refl _ [t.lhs]⟩
  · intro t ht
    rcases ht with rfl | hB
    · exact ⟨_, Set.mem_insert _ _, rfl⟩
    · exact ⟨t, Set.mem_insert_of_mem _ (Set.mem_insert_of_mem _ hB), rfl⟩

/-! ### What abbreviations keep -/

theorem expands_iff (h : Abbreviates K R R' φ) {u v : List Symbol} (hu : ∀ x ∈ u, x ∈ K)
    (hv : ∀ x ∈ v, x ∈ K) : Expands R' u v ↔ Expands R u v := by
  constructor
  · intro huv
    have s := huv.simulate h.sound
    rwa [flatMap_eq_self h.fixes hu, flatMap_eq_self h.fixes hv] at s
  · exact fun huv => huv.replay h.complete

/-- If the old right-hand sides can be completed, so can the new ones. -/
theorem completable_rhs (h : Abbreviates K R R' φ) (hK : MentionsOnly K R)
    (hR : ∀ r ∈ R, Completable R r.rhs) : ∀ r ∈ R', Completable R' r.rhs := by
  intro r hr
  -- The meaning of the new left-hand side occurs in what an old one expands to.
  obtain ⟨s, hs, u, v, huv⟩ := h.origin r hr
  have old : Expands R [s.lhs] ((u ++ r.lhs :: v).flatMap φ) := by
    have sim := huv.simulate h.sound
    rwa [List.flatMap_singleton, h.fixes s.lhs (hK s hs).1] at sim
  have around := completable_of_expands hR old ((hR s hs).of_expands (Expands.ofMem hs))
  rw [List.flatMap_append, List.flatMap_cons, completable_append, completable_append] at around
  have meaning : Completable R (r.rhs.flatMap φ) :=
    completable_of_expands hR (h.sound r.lhs r.rhs hr) around.2.1
  exact (meaning.replay h.complete).of_expands (expands_flatMap fun x _ => h.unfolds x)

/-- A new left-hand side takes part in the derivation of a word if the old ones do. -/
theorem takesPart (h : Abbreviates K R R' φ) (hK : MentionsOnly K R)
    (hR : ∀ r ∈ R, Completable R r.rhs) {S : Symbol} (hS : ∀ r ∈ R, TakesPart R S r.lhs) :
    ∀ r ∈ R', TakesPart R' S r.lhs := by
  intro r hr
  obtain ⟨s, hs, u, v, huv⟩ := h.origin r hr
  obtain ⟨p, q, hpq, _⟩ := hS s hs
  have inside := ((Expands.refl R' p).append huv).append (Expands.refl R' q)
  have reach : Expands R' [S] ((p ++ u) ++ r.lhs :: (v ++ q)) := by
    have both := (hpq.replay h.complete).trans (by simpa using inside)
    simpa using both
  exact takesPart_of_expands (h.completable_rhs hK hR) hr reach

/-- An old left-hand side takes part in the derivation of a word if the new ones do. -/
theorem takesPart_old (h : Abbreviates K R R' φ) (hK : MentionsOnly K R)
    (hterm : ∀ x, x.isTerminal = true → x ∈ K) {S : Symbol} (hSK : S ∈ K)
    (hS : ∀ r ∈ R', TakesPart R' S r.lhs) : ∀ r ∈ R, TakesPart R S r.lhs := by
  intro r hr
  obtain ⟨s, hs, hlhs⟩ := h.keeps r hr
  obtain ⟨u, v, huv, w, hw, hcomp⟩ := hS s hs
  rw [hlhs] at huv hcomp
  have image : (u ++ r.lhs :: v).flatMap φ = u.flatMap φ ++ r.lhs :: v.flatMap φ := by
    rw [List.flatMap_append, List.flatMap_cons, h.fixes r.lhs (hK r hr).1, List.singleton_append]
  have old := huv.simulate h.sound
  rw [List.flatMap_singleton, h.fixes S hSK, image] at old
  have oldWord := hcomp.simulate h.sound
  rw [image, flatMap_eq_self h.fixes fun x hx => hterm x (hw x hx)] at oldWord
  exact ⟨u.flatMap φ, v.flatMap φ, old, w, hw, oldWord⟩

end Abbreviates

end ContextFree
