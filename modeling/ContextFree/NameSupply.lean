/-
  ContextFree/NameSupply.lean
  ===========================
  **Fresh names**: a supply that hands out each name at most once and never a
  name that is in use.

  A numbered name is a stem followed by a number.  The supply remembers for each
  stem the last number it has tried, and the search for the next one starts
  behind it.  There is one number more to try than names in use, so the search
  ends at a free one.
-/
import ContextFree.Symbol
import ContextFree.Table

namespace ContextFree

/-- The state of a supply: the names in use, the last number tried for each stem, and the names
    handed out so far, the oldest first. -/
structure NameSupply where
  used : NameSet
  lastTried : Table String Nat
  allocated : List String

namespace NameSupply

/-- A supply that has handed out nothing. -/
def ofUsed (used : NameSet) : NameSupply := ⟨used, ∅, []⟩

def numbered (stem : String) (k : Nat) : String := stem ++ Nat.repr k

/-- The first number from `k` on, within `n` trials, whose name is free. -/
def firstFree (used : NameSet) (stem : String) : Nat → Nat → Nat
  | 0, k => k
  | n + 1, k => if numbered stem k ∈ used then firstFree used stem n (k + 1) else k

def give (f : NameSupply) (name : String) : String × NameSupply :=
  (name, { f with used := f.used.insert name, allocated := f.allocated ++ [name] })

/-- The last number tried for a stem. -/
def lastNumber (f : NameSupply) (stem : String) : Nat := (f.lastTried.get? stem).getD 0

def next (f : NameSupply) (stem : String) : String × NameSupply :=
  let k := firstFree f.used stem f.used.size (f.lastNumber stem + 1)
  { f with lastTried := f.lastTried.set stem k }.give (numbered stem k)

/-- The name made of a stem and a hint, or the next numbered name of that stem when it is in
    use. -/
def hinted (f : NameSupply) (stem hint : String) : String × NameSupply :=
  let name := stem ++ "_" ++ hint
  if name ∈ f.used then f.next name else f.give name

theorem used_next (f : NameSupply) (stem : String) :
    (f.next stem).2.used = f.used.insert (f.next stem).1 := rfl

theorem used_hinted (f : NameSupply) (stem hint : String) :
    (f.hinted stem hint).2.used = f.used.insert (f.hinted stem hint).1 := by
  simp only [hinted]
  split <;> rfl

end NameSupply

end ContextFree
