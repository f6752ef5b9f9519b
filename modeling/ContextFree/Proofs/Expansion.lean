/-
  ContextFree/Proofs/Expansion.lean
  =================================
  **Expansions**: derivations over a set of rules, read symbol by symbol.

  A derivation replaces one occurrence at a time and says nothing of which part
  of the result comes from which symbol.  `Expands` says it: each symbol of a
  string is kept or replaced by what a right-hand side of it expands to.
  `derives_iff_expands` proves that the two agree, so that a stage of the
  pipeline is followed by induction on `Expands`.

  The rules are a set and not a grammar: a stage is compared with its argument
  also without the empty right-hand sides, or with only some of the new rules.
  `Expands.simulate` is the one argument for soundness: if each rule becomes an
  expansion once every symbol is replaced by its meaning, so does every
  expansion.
-/
import ContextFree.Grammar.Derivation
import Mathlib.Data.Set.Insert

namespace ContextFree

/-- The rules of a grammar as a set. -/
def Grammar.ruleSet (g : Grammar) : Set Rule := {r | r.rhs ∈ g.rhss r.lhs}

/-- Each symbol of the first string is kept or replaced by what one of its right-hand sides expands
    to. -/
inductive Expands (R : Set Rule) : List Symbol → List Symbol → Prop where
  | nil : Expands R [] []
  | keep (x : Symbol) {u v : List Symbol} (rest : Expands R u v) : Expands R (x :: u) (x :: v)
  | rule {A : Symbol} {r x u v : List Symbol} (mem : ⟨A, r⟩ ∈ R) (body : Expands R r x)
      (rest : Expands R u v) : Expands R (A :: u) (x ++ v)

/-- A string of terminals. -/
def IsWord (u : List Symbol) : Prop := ∀ x ∈ u, x.isTerminal = true

/-- A string that expands to a word. -/
def Completable (R : Set Rule) (u : List Symbol) : Prop := ∃ w, IsWord w ∧ Expands R u w

/-- The rules whose right-hand sides are not empty. -/
def nonemptyRules (R : Set Rule) : Set Rule := {r | r ∈ R ∧ r.rhs ≠ []}

theorem nonemptyRules_subset (R : Set Rule) : nonemptyRules R ⊆ R := fun _ hr => hr.1

variable {R R' : Set Rule}

/-! ### Words -/

@[simp] theorem isWord_nil : IsWord [] := fun _ h => absurd h List.not_mem_nil

theorem isWord_cons {x : Symbol} {u : List Symbol} :
    IsWord (x :: u) ↔ x.isTerminal = true ∧ IsWord u := List.forall_mem_cons

theorem isWord_append {u v : List Symbol} : IsWord (u ++ v) ↔ IsWord u ∧ IsWord v :=
  List.forall_mem_append

theorem isWord_word (w : List String) : IsWord (Grammar.word w) := by
  intro x hx
  obtain ⟨a, _, rfl⟩ := List.mem_map.1 hx
  rfl

theorem Symbol.exists_of_isTerminal {x : Symbol} (h : x.isTerminal = true) :
    ∃ a, x = .terminal a := by
  cases x with
  | nonterminal a => simp at h
  | terminal a => exact ⟨a, rfl⟩

theorem IsWord.exists_word {u : List Symbol} (h : IsWord u) : ∃ w, u = Grammar.word w := by
  induction u with
  | nil => exact ⟨[], rfl⟩
  | cons x u ih =>
    obtain ⟨hx, hu⟩ := isWord_cons.1 h
    obtain ⟨w, rfl⟩ := ih hu
    obtain ⟨a, rfl⟩ := Symbol.exists_of_isTerminal hx
    exact ⟨a :: w, rfl⟩

theorem word_ne_nil {w : List String} (h : w ≠ []) : Grammar.word w ≠ [] := by
  simpa [Grammar.word] using h

/-! ### Composition -/

theorem Expands.refl (R : Set Rule) (u : List Symbol) : Expands R u u := by
  induction u with
  | nil => exact Expands.nil
  | cons x u ih => exact Expands.keep x ih

theorem Expands.ne_nil {u v : List Symbol} (h : Expands R u v) (hv : v ≠ []) : u ≠ [] := by
  rintro rfl
  cases h
  exact hv rfl

theorem Expands.append {u u' v v' : List Symbol} (h₁ : Expands R u u') (h₂ : Expands R v v') :
    Expands R (u ++ v) (u' ++ v') := by
  induction h₁ with
  | nil => exact h₂
  | keep x _ ih => exact Expands.keep x ih
  | rule mem body _ _ ih =>
    rw [List.append_assoc]
    exact Expands.rule mem body ih

/-- What a concatenation expands to is a concatenation of what its parts expand to. -/
theorem Expands.split {u v w : List Symbol} (h : Expands R (u ++ v) w) :
    ∃ x y, w = x ++ y ∧ Expands R u x ∧ Expands R v y := by
  induction u generalizing w with
  | nil => exact ⟨[], w, rfl, Expands.nil, h⟩
  | cons a u ih =>
    cases h with
    | keep _ rest =>
      obtain ⟨x, y, rfl, hx, hy⟩ := ih rest
      exact ⟨a :: x, y, rfl, Expands.keep a hx, hy⟩
    | rule mem body rest =>
      obtain ⟨x, y, rfl, hx, hy⟩ := ih rest
      exact ⟨_ ++ x, y, (List.append_assoc _ _ _).symm, Expands.rule mem body hx, hy⟩

theorem Expands.single {A : Symbol} {r : Rhs} (mem : ⟨A, r⟩ ∈ R) : Expands R [A] r := by
  have h : Expands R [A] (r ++ []) := Expands.rule mem (Expands.refl R r) Expands.nil
  rwa [List.append_nil] at h

theorem Expands.ofMem {r : Rule} (mem : r ∈ R) : Expands R [r.lhs] r.rhs := Expands.single mem

/-- A single symbol is kept, or one of its right-hand sides expands. -/
theorem expands_singleton {A : Symbol} {v : List Symbol} :
    Expands R [A] v ↔ v = [A] ∨ ∃ r, ⟨A, r⟩ ∈ R ∧ Expands R r v := by
  constructor
  · intro h
    cases h with
    | keep _ rest =>
      cases rest
      exact Or.inl rfl
    | rule mem body rest =>
      cases rest
      rw [List.append_nil]
      exact Or.inr ⟨_, mem, body⟩
  · rintro (rfl | ⟨r, mem, body⟩)
    · exact Expands.refl R [A]
    · have h := Expands.rule mem body (Expands.nil (R := R))
      rwa [List.append_nil] at h

/-- A non-terminal comes to a word by one of its right-hand sides. -/
theorem Expands.exists_rule {A : Symbol} {w : List Symbol} (h : Expands R [A] w) (hw : IsWord w)
    (hA : A.isNonterminal = true) : ∃ r, ⟨A, r⟩ ∈ R ∧ Expands R r w := by
  rcases expands_singleton.1 h with rfl | applied
  · exact absurd (hw A List.mem_cons_self) (Symbol.not_isTerminal hA)
  · exact applied

theorem Expands.trans {u v w : List Symbol} (h₁ : Expands R u v) (h₂ : Expands R v w) :
    Expands R u w := by
  induction h₁ generalizing w with
  | nil => exact h₂
  | @keep a u v _ ih =>
    -- The symbol that was kept may be replaced now, so the rest is split off.
    obtain ⟨x, y, rfl, hx, hy⟩ := Expands.split (u := [a]) h₂
    exact Expands.append (u := [a]) hx (ih hy)
  | rule mem _ _ ihBody ih =>
    obtain ⟨x, y, rfl, hx, hy⟩ := h₂.split
    exact Expands.rule mem (ihBody hx) (ih hy)

/-- The empty string comes from an empty right-hand side somewhere. -/
theorem exists_mem_of_expands_nil {u : List Symbol} (h : Expands R u [])
    (hu : u ≠ []) : ∃ A, ⟨A, []⟩ ∈ R := by
  obtain ⟨v, hv⟩ : ∃ v : List Symbol, v = [] := ⟨[], rfl⟩
  rw [← hv] at h
  induction h with
  | nil => exact absurd rfl hu
  | keep x _ _ => cases hv
  | @rule A r x u v mem _ _ ihBody _ =>
    by_cases hr : r = []
    · exact ⟨A, hr ▸ mem⟩
    · exact ihBody hr (List.append_eq_nil_iff.1 hv).1

/-! ### Simulation -/

/-- If each rule of `R` becomes an expansion of `R'` once every symbol is replaced by its meaning,
    so does every expansion. -/
theorem Expands.simulate {φ : Symbol → List Symbol}
    (rules : ∀ A r, ⟨A, r⟩ ∈ R → Expands R' (φ A) (r.flatMap φ)) {u v : List Symbol}
    (h : Expands R u v) : Expands R' (u.flatMap φ) (v.flatMap φ) := by
  induction h with
  | nil => exact Expands.nil
  | keep x _ ih =>
    rw [List.flatMap_cons, List.flatMap_cons]
    exact (Expands.refl R' (φ x)).append ih
  | rule mem _ _ ihBody ih =>
    rw [List.flatMap_cons, List.flatMap_append]
    exact ((rules _ _ mem).trans ihBody).append ih

/-- Rules that can be replayed lead to nothing new. -/
theorem Expands.replay (rules : ∀ A r, ⟨A, r⟩ ∈ R → Expands R' [A] r) {u v : List Symbol}
    (h : Expands R u v) : Expands R' u v := by
  have same : ∀ A r, ⟨A, r⟩ ∈ R → Expands R' [A] (r.flatMap fun x => [x]) := by
    intro A r mem
    rw [List.flatMap_singleton']
    exact rules A r mem
  have s := h.simulate (φ := fun x => [x]) same
  rwa [List.flatMap_singleton', List.flatMap_singleton'] at s

theorem Expands.mono (sub : R ⊆ R') {u v : List Symbol} (h : Expands R u v) : Expands R' u v :=
  h.replay fun _ _ mem => Expands.single (sub mem)

/-- Symbol by symbol. -/
theorem expands_flatMap {φ : Symbol → List Symbol} {u : List Symbol}
    (h : ∀ x ∈ u, Expands R [x] (φ x)) : Expands R u (u.flatMap φ) := by
  induction u with
  | nil => exact Expands.nil
  | cons x u ih =>
    obtain ⟨hx, hu⟩ := List.forall_mem_cons.1 h
    rw [List.flatMap_cons]
    exact Expands.append (u := [x]) hx (ih hu)

/-! ### Completable strings -/

theorem Completable.of_expands {u v : List Symbol} (h : Expands R u v) (hv : Completable R v) :
    Completable R u := by
  obtain ⟨w, hw, hvw⟩ := hv
  exact ⟨w, hw, h.trans hvw⟩

theorem Completable.replay (rules : ∀ A r, ⟨A, r⟩ ∈ R → Expands R' [A] r) {u : List Symbol}
    (h : Completable R u) : Completable R' u := by
  obtain ⟨w, hw, huw⟩ := h
  exact ⟨w, hw, huw.replay rules⟩

theorem Completable.mono (sub : R ⊆ R') {u : List Symbol} (h : Completable R u) :
    Completable R' u := by
  obtain ⟨w, hw, huw⟩ := h
  exact ⟨w, hw, huw.mono sub⟩

theorem completable_of_isWord {u : List Symbol} (h : IsWord u) : Completable R u :=
  ⟨u, h, Expands.refl R u⟩

theorem completable_append {u v : List Symbol} :
    Completable R (u ++ v) ↔ Completable R u ∧ Completable R v := by
  constructor
  · rintro ⟨w, hw, huv⟩
    obtain ⟨x, y, rfl, hx, hy⟩ := huv.split
    obtain ⟨hwx, hwy⟩ := isWord_append.1 hw
    exact ⟨⟨x, hwx, hx⟩, ⟨y, hwy, hy⟩⟩
  · rintro ⟨⟨x, hwx, hx⟩, ⟨y, hwy, hy⟩⟩
    exact ⟨x ++ y, isWord_append.2 ⟨hwx, hwy⟩, hx.append hy⟩

/-- A string expands to a word if and only if each of its symbols does. -/
theorem completable_iff_forall {u : List Symbol} :
    Completable R u ↔ ∀ x ∈ u, Completable R [x] := by
  induction u with
  | nil => simp [completable_of_isWord]
  | cons x u ih => rw [← List.singleton_append, completable_append, ih, List.singleton_append,
      List.forall_mem_cons]

theorem completable_iff_exists_word {u : List Symbol} :
    Completable R u ↔ ∃ w, Expands R u (Grammar.word w) := by
  constructor
  · rintro ⟨w, hw, h⟩
    obtain ⟨w, rfl⟩ := hw.exists_word
    exact ⟨w, h⟩
  · rintro ⟨w, h⟩
    exact ⟨_, isWord_word w, h⟩

/-- If the right-hand sides can be completed, so can what they lead to. -/
theorem completable_of_expands (hR : ∀ r ∈ R, Completable R r.rhs) {u v : List Symbol}
    (h : Expands R u v) (hu : Completable R u) : Completable R v := by
  induction h with
  | nil => exact hu
  | keep x _ ih =>
    rw [← List.singleton_append, completable_append] at hu ⊢
    exact ⟨hu.1, ih hu.2⟩
  | @rule A r x u v mem _ _ ihBody ih =>
    rw [← List.singleton_append, completable_append] at hu
    exact completable_append.2 ⟨ihBody (hR _ mem), ih hu.2⟩

/-! ### The two readings agree -/

theorem Expands.of_step {g : Grammar} {u v : List Symbol} (h : g.Step u v) :
    Expands g.ruleSet u v := by
  obtain ⟨a, b, mem⟩ := h
  rw [List.append_assoc]
  exact (Expands.refl _ a).append (Expands.rule mem (Expands.refl _ _) (Expands.refl _ b))

theorem derives_iff_expands {g : Grammar} {u v : List Symbol} :
    g.Derives u v ↔ Expands g.ruleSet u v := by
  constructor
  · rintro ⟨n, h⟩
    induction h with
    | refl u => exact Expands.refl _ u
    | head first _ ih => exact (Expands.of_step first).trans ih
  · intro h
    induction h with
    | nil => exact Grammar.Derives.refl []
    | keep x _ ih => exact (Grammar.Derives.refl [x]).append ih
    | rule mem _ _ ihBody ih =>
      exact ((Grammar.Derives.ofRule mem).trans ihBody).append ih

theorem Grammar.derivesWord_iff_expands {g : Grammar} {A : Symbol} {w : List String} :
    g.DerivesWord A w ↔ Expands g.ruleSet [A] (word w) := derives_iff_expands

theorem Grammar.sentential_iff_expands {g : Grammar} {u : List Symbol} :
    g.Sentential u ↔ Expands g.ruleSet [g.start] u := derives_iff_expands

theorem Grammar.generates_iff_expands {g : Grammar} {w : List String} :
    g.Generates w ↔ Expands g.ruleSet [g.start] (word w) := derives_iff_expands

end ContextFree
