/-
  ContextFree/Epsilon.lean
  ========================
  **Elimination of empty right-hand sides.**

  Each right-hand side is replaced by its variants, which keep or drop each
  occurrence of a nullable symbol.  The empty variant is only kept for the start
  symbol, so that no other symbol has an empty right-hand side afterwards.
-/
import ContextFree.Productive

namespace ContextFree

/-- Every way to keep or drop the occurrences of symbols in `nulls`, keeping before dropping and
    the first occurrence deciding first.  Different choices may give the same right-hand side. -/
def Rhs.choices (nulls : SymbolSet) : Rhs → List Rhs
  | [] => [[]]
  | x :: r =>
    let rest := choices nulls r
    rest.map (x :: ·) ++ if x ∈ nulls then rest else []

theorem Rhs.choices_cons (nulls : SymbolSet) (x : Symbol) (r : Rhs) :
    Rhs.choices nulls (x :: r) =
      (r.choices nulls).map (x :: ·) ++ if x ∈ nulls then r.choices nulls else [] := rfl

def Rhs.variants (nulls : SymbolSet) (r : Rhs) : List Rhs := Distinct.ofList (r.choices nulls)

/-- One more symbol: it is kept behind what each choice so far has left, and then dropped where
    that may be. -/
def Rhs.keepOrDrop (nulls : SymbolSet) (vs : List Rhs) (x : Symbol) : List Rhs :=
  vs.flatMap fun v => (v ++ [x]) :: if x ∈ nulls then [v] else []

/-- A choice deletes occurrences of symbols in `nulls` and nothing else. -/
theorem Rhs.mem_choices_cons {nulls : SymbolSet} {x : Symbol} {r v : Rhs} :
    v ∈ Rhs.choices nulls (x :: r) ↔
      (∃ u ∈ Rhs.choices nulls r, v = x :: u) ∨ (x ∈ nulls ∧ v ∈ Rhs.choices nulls r) := by
  by_cases h : x ∈ nulls <;> simp [choices, h, eq_comm]

/-- Keeping every occurrence is the first choice. -/
theorem Rhs.head?_choices (nulls : SymbolSet) (r : Rhs) : (r.choices nulls).head? = some r := by
  induction r with
  | nil => rfl
  | cons x r ih =>
    obtain ⟨u, us, hu⟩ : ∃ u us, Rhs.choices nulls r = u :: us := by
      cases h : Rhs.choices nulls r with
      | nil => simp [h] at ih
      | cons u us => exact ⟨u, us, rfl⟩
    rw [hu] at ih
    simp only [List.head?_cons, Option.some.injEq] at ih
    simp [choices, hu, ih]

namespace Grammar

/-- Gives a grammar a new table: the start symbol and every left-hand side that has a right-hand
    side are declared. -/
def withTable (g : Grammar) (t : Table Symbol (List Rhs)) : Grammar :=
  { g with
    nonterminals := (g.nonterminals.insert g.start).insertMany
      ((t.entries.filter fun e => !e.2.isEmpty).map Prod.fst)
    table := t }

def epsilonFreeRhss (g : Grammar) (nulls : SymbolSet) (A : Symbol) (rhss : List Rhs) : List Rhs :=
  Distinct.ofList
    ((rhss.flatMap (Rhs.variants nulls)).filter fun v => !v.isEmpty || decide (A = g.start))

/-- Replaces each right-hand side by its variants; only the start symbol keeps an empty one. -/
def withoutEpsilon (g : Grammar) : Grammar :=
  g.withTable (g.table.mapValues (g.epsilonFreeRhss g.nullable))

theorem rhss_withoutEpsilon (g : Grammar) (A : Symbol) :
    g.withoutEpsilon.rhss A = g.epsilonFreeRhss g.nullable A (g.rhss A) := by
  unfold withoutEpsilon withTable rhss
  rw [Table.get?_mapValues]
  cases g.table.get? A <;> rfl

end Grammar

end ContextFree
