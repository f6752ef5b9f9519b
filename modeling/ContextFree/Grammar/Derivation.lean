/-
  ContextFree/Grammar/Derivation.lean
  ===================================
  **Derivations**: what the rules of a grammar mean.

  A step replaces one occurrence of a left-hand side by one of its right-hand
  sides.  `DerivesIn` counts the steps, `Derives` forgets them, and a word is a
  string of terminals.  Derivations compose (`Derives.trans`) and work inside any
  context (`Derives.append`).
-/
import ContextFree.Grammar.Basic

namespace ContextFree.Grammar

/-- One step: an occurrence of a left-hand side is replaced. -/
inductive Step (g : Grammar) : List Symbol → List Symbol → Prop where
  | replace (u v : List Symbol) {A : Symbol} {r : Rhs} (h : r ∈ g.rhss A) :
      Step g (u ++ A :: v) (u ++ r ++ v)

inductive DerivesIn (g : Grammar) : Nat → List Symbol → List Symbol → Prop where
  | refl (u : List Symbol) : DerivesIn g 0 u u
  | head {n : Nat} {u v w : List Symbol} (first : g.Step u v) (rest : DerivesIn g n v w) :
      DerivesIn g (n + 1) u w

def Derives (g : Grammar) (u w : List Symbol) : Prop := ∃ n, g.DerivesIn n u w

/-- The terminals with the given names, in order. -/
def word (w : List String) : List Symbol := w.map Symbol.terminal

def DerivesWord (g : Grammar) (A : Symbol) (w : List String) : Prop := g.Derives [A] (word w)

/-- The language of a grammar: the words that its start symbol derives. -/
def Generates (g : Grammar) (w : List String) : Prop := g.DerivesWord g.start w

/-- A sentential form: what the start symbol derives. -/
def Sentential (g : Grammar) (u : List Symbol) : Prop := g.Derives [g.start] u

variable {g : Grammar} {u v w : List Symbol}

theorem Derives.refl (u : List Symbol) : g.Derives u u := ⟨0, DerivesIn.refl u⟩

theorem Derives.ofRule {A : Symbol} {r : Rhs} (h : r ∈ g.rhss A) : g.Derives [A] r := by
  have s : g.Step [A] r := by simpa using Step.replace [] [] h
  exact ⟨1, DerivesIn.head s (DerivesIn.refl r)⟩

theorem DerivesIn.trans {m n : Nat} (h₁ : g.DerivesIn m u v) (h₂ : g.DerivesIn n v w) :
    g.DerivesIn (m + n) u w := by
  induction h₁ with
  | refl u => simpa using h₂
  | head first _ ih =>
    rw [Nat.add_right_comm]
    exact DerivesIn.head first (ih h₂)

theorem Derives.trans (h₁ : g.Derives u v) (h₂ : g.Derives v w) : g.Derives u w := by
  obtain ⟨m, h₁⟩ := h₁
  obtain ⟨n, h₂⟩ := h₂
  exact ⟨m + n, h₁.trans h₂⟩

theorem Step.context (h : g.Step u v) (x y : List Symbol) : g.Step (x ++ u ++ y) (x ++ v ++ y) := by
  obtain ⟨a, b, hr⟩ := h
  simpa using Step.replace (x ++ a) (b ++ y) hr

theorem DerivesIn.context {n : Nat} (h : g.DerivesIn n u v) (x y : List Symbol) :
    g.DerivesIn n (x ++ u ++ y) (x ++ v ++ y) := by
  induction h with
  | refl u => exact DerivesIn.refl _
  | head first _ ih => exact DerivesIn.head (first.context x y) ih

theorem Derives.append {u' v' : List Symbol} (h₁ : g.Derives u v) (h₂ : g.Derives u' v') :
    g.Derives (u ++ u') (v ++ v') := by
  obtain ⟨m, h₁⟩ := h₁
  obtain ⟨n, h₂⟩ := h₂
  have left : g.DerivesIn m (u ++ u') (v ++ u') := by simpa using h₁.context [] u'
  have right : g.DerivesIn n (v ++ u') (v ++ v') := by simpa using h₂.context v []
  exact ⟨m + n, left.trans right⟩

end ContextFree.Grammar
