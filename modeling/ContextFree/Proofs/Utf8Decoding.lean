/-
  ContextFree/Proofs/Utf8Decoding.lean
  ====================================
  **Decoding gives back what was encoded** (`decodeUtf8_encodeUtf8`).

  A character takes one to four bytes.  The first byte tells how many follow it, and
  the window for the second byte leaves out the code points that a shorter sequence
  has, the halves of surrogate pairs, and what is above the last code point
  (`followers?_three`, `followers?_four`).  The bytes of a character lie in their
  windows because it is none of these.
-/
import ContextFree.Text.Utf8

namespace ContextFree.Text

variable {b low high : UInt8} {bs rest : List UInt8} {v n : Nat}

/-! ### The bytes behind the first -/

theorem takeFollowers_append (first : ∀ b ∈ bs.head?, low ≤ b ∧ b ≤ high)
    (others : ∀ b ∈ bs.tail, 0x80 ≤ b ∧ b ≤ 0xBF) (rest : List UInt8) :
    takeFollowers bs.length low high (bs ++ rest) = bs := by
  induction bs generalizing low high with
  | nil => rfl
  | cons b bs ih =>
    have window : (decide (low ≤ b) && decide (b ≤ high)) = true := by
      simpa using first b rfl
    have next : ∀ c ∈ bs.head?, 0x80 ≤ c ∧ c ≤ 0xBF :=
      fun c hc => others c (List.mem_of_mem_head? hc)
    simp only [List.length_cons, List.cons_append, takeFollowers, window, if_true]
    rw [ih next fun c hc => others c (List.mem_of_mem_tail hc)]

/-- A first byte with as many bytes behind it as it asks for. -/
theorem decodeChar_append (bs : List UInt8) (length : followers? b = some (bs.length, low, high))
    (first : ∀ b ∈ bs.head?, low ≤ b ∧ b ≤ high) (others : ∀ b ∈ bs.tail, 0x80 ≤ b ∧ b ≤ 0xBF)
    (code : codePoint b bs = v) (rest : List UInt8) :
    decodeChar b (bs ++ rest) = .ok (Char.ofNat v, rest) := by
  unfold decodeChar
  simp only [length, takeFollowers_append first others, if_true, List.drop_left, code]

/-! ### What a first byte asks for -/

theorem followers?_one (h : b.toNat ≤ 0x7F) : followers? b = some (0, 0x80, 0xBF) := by
  unfold followers?
  rw [if_pos (UInt8.lt_iff_toNat_lt.2 (by simp; omega))]

theorem followers?_two (h : 0xC2 ≤ b.toNat) (h' : b.toNat < 0xE0) :
    followers? b = some (1, 0x80, 0xBF) := by
  unfold followers?
  simp only [UInt8.lt_iff_toNat_lt]
  rw [if_neg (by simp; omega), if_neg (by simp; omega), if_pos (by simpa using h')]

theorem followers?_three (h : 0xE0 ≤ b.toNat) (h' : b.toNat < 0xF0) :
    ∃ low high, followers? b = some (2, low, high) ∧
      low.toNat = (if b.toNat = 0xE0 then 0xA0 else 0x80) ∧
      high.toNat = if b.toNat = 0xED then 0x9F else 0xBF := by
  unfold followers?
  simp only [UInt8.lt_iff_toNat_lt, beq_iff_eq, ← UInt8.toNat_inj]
  rw [if_neg (by simp; omega), if_neg (by simp; omega), if_neg (by simp; omega)]
  by_cases hE0 : b.toNat = 0xE0
  · exact ⟨0xA0, 0xBF, by simp [hE0], by simp [hE0], by simp [hE0]⟩
  · by_cases hED : b.toNat = 0xED
    · exact ⟨0x80, 0x9F, by simp [hED], by simp [hED], by simp [hED]⟩
    · exact ⟨0x80, 0xBF, by simp [hE0, hED]; omega, by simp [hE0], by simp [hED]⟩

theorem followers?_four (h : 0xF0 ≤ b.toNat) (h' : b.toNat ≤ 0xF4) :
    ∃ low high, followers? b = some (3, low, high) ∧
      low.toNat = (if b.toNat = 0xF0 then 0x90 else 0x80) ∧
      high.toNat = if b.toNat = 0xF4 then 0x8F else 0xBF := by
  unfold followers?
  simp only [UInt8.lt_iff_toNat_lt, beq_iff_eq, ← UInt8.toNat_inj]
  rw [if_neg (by simp; omega), if_neg (by simp; omega), if_neg (by simp; omega),
    if_neg (by simp; omega), if_neg (by simp; omega), if_neg (by simp; omega)]
  by_cases hF0 : b.toNat = 0xF0
  · exact ⟨0x90, 0xBF, by simp [hF0], by simp [hF0], by simp [hF0]⟩
  · by_cases hF4 : b.toNat = 0xF4
    · exact ⟨0x80, 0x8F, by simp [hF4], by simp [hF4], by simp [hF4]⟩
    · exact ⟨0x80, 0xBF, by simp [hF0, hF4]; omega, by simp [hF0], by simp [hF4]⟩

/-! ### One character -/

theorem toNat_byte (h : n < 256) : (UInt8.ofNat n).toNat = n := by
  rw [UInt8.toNat_ofNat']
  omega

/-- A byte with six bits of a code point. -/
theorem isTail (n : Nat) : 0x80 ≤ UInt8.ofNat (n % 64 + 128) ∧ UInt8.ofNat (n % 64 + 128) ≤ 0xBF := by
  rw [UInt8.le_iff_toNat_le, UInt8.le_iff_toNat_le, toNat_byte (by omega)]
  simp
  omega

theorem decodeChar_one (h : v ≤ 0x7F) (rest : List UInt8) :
    decodeChar (UInt8.ofNat v) rest = .ok (Char.ofNat v, rest) := by
  have byte := toNat_byte (n := v) (by omega)
  exact decodeChar_append [] (followers?_one (by omega)) (by simp) (by simp) byte rest

theorem decodeChar_two (h : 0x7F < v) (h' : v ≤ 0x7FF) (rest : List UInt8) :
    decodeChar (UInt8.ofNat (v / 64 % 32 + 192)) (UInt8.ofNat (v % 64 + 128) :: rest) =
      .ok (Char.ofNat v, rest) := by
  have first := toNat_byte (n := v / 64 % 32 + 192) (by omega)
  have second := toNat_byte (n := v % 64 + 128) (by omega)
  refine decodeChar_append [_] (followers?_two (by omega) (by omega))
    (by simpa using isTail v) (by simp) ?_ rest
  simp only [codePoint, List.length_cons, List.length_nil, List.foldl_cons, List.foldl_nil,
    first, second]
  omega

theorem decodeChar_three (h : 0x7FF < v) (h' : v ≤ 0xFFFF) (valid : v.isValidChar)
    (rest : List UInt8) :
    decodeChar (UInt8.ofNat (v / 4096 % 16 + 224))
        (UInt8.ofNat (v / 64 % 64 + 128) :: UInt8.ofNat (v % 64 + 128) :: rest) =
      .ok (Char.ofNat v, rest) := by
  have first := toNat_byte (n := v / 4096 % 16 + 224) (by omega)
  have second := toNat_byte (n := v / 64 % 64 + 128) (by omega)
  have third := toNat_byte (n := v % 64 + 128) (by omega)
  obtain ⟨low, high, length, hlow, hhigh⟩ :=
    followers?_three (b := UInt8.ofNat (v / 4096 % 16 + 224)) (by omega) (by omega)
  have window : low ≤ UInt8.ofNat (v / 64 % 64 + 128) ∧ UInt8.ofNat (v / 64 % 64 + 128) ≤ high := by
    rw [UInt8.le_iff_toNat_le, UInt8.le_iff_toNat_le, hlow, hhigh, first, second]
    split <;> split <;> omega
  refine decodeChar_append [_, _] length (by simpa using window)
    (by simpa using isTail v) ?_ rest
  simp only [codePoint, List.length_cons, List.length_nil, List.foldl_cons, List.foldl_nil,
    first, second, third]
  omega

theorem decodeChar_four (h : 0xFFFF < v) (h' : v < 0x110000) (rest : List UInt8) :
    decodeChar (UInt8.ofNat (v / 262144 % 8 + 240))
        (UInt8.ofNat (v / 4096 % 64 + 128) :: UInt8.ofNat (v / 64 % 64 + 128) ::
          UInt8.ofNat (v % 64 + 128) :: rest) =
      .ok (Char.ofNat v, rest) := by
  have first := toNat_byte (n := v / 262144 % 8 + 240) (by omega)
  have second := toNat_byte (n := v / 4096 % 64 + 128) (by omega)
  have third := toNat_byte (n := v / 64 % 64 + 128) (by omega)
  have fourth := toNat_byte (n := v % 64 + 128) (by omega)
  obtain ⟨low, high, length, hlow, hhigh⟩ :=
    followers?_four (b := UInt8.ofNat (v / 262144 % 8 + 240)) (by omega) (by omega)
  have window : low ≤ UInt8.ofNat (v / 4096 % 64 + 128) ∧
      UInt8.ofNat (v / 4096 % 64 + 128) ≤ high := by
    rw [UInt8.le_iff_toNat_le, UInt8.le_iff_toNat_le, hlow, hhigh, first, second]
    split <;> split <;> omega
  refine decodeChar_append [_, _, _] length (by simpa using window)
    (by simpa using And.intro (isTail (v / 64)) (isTail v)) ?_ rest
  simp only [codePoint, List.length_cons, List.length_nil, List.foldl_cons, List.foldl_nil,
    first, second, third, fourth]
  omega

/-- The bytes of a character are decoded to it, whatever follows them. -/
theorem exists_decodeChar_encode (c : Char) :
    ∃ b bs, String.utf8EncodeChar c = b :: bs ∧
      ∀ rest, decodeChar b (bs ++ rest) = .ok (c, rest) := by
  have valid : c.toNat.isValidChar := c.valid
  have below : c.toNat < 0x110000 := by
    rcases valid with h | h
    · omega
    · exact h.2
  have toNat : c.val.toNat = c.toNat := rfl
  suffices h : ∃ b bs, String.utf8EncodeChar c = b :: bs ∧
      ∀ rest, decodeChar b (bs ++ rest) = .ok (Char.ofNat c.toNat, rest) by
    simpa only [Char.ofNat_toNat] using h
  simp only [String.utf8EncodeChar, toNat]
  split
  · rename_i one
    exact ⟨_, [], rfl, decodeChar_one one⟩
  · rename_i one
    split
    · rename_i two
      exact ⟨_, [_], rfl, decodeChar_two (by omega) two⟩
    · rename_i two
      split
      · rename_i three
        exact ⟨_, [_, _], rfl, decodeChar_three (by omega) three valid⟩
      · rename_i three
        exact ⟨_, [_, _, _], rfl, decodeChar_four (by omega) below⟩

/-! ### Texts -/

theorem decodeUpTo_encodeUtf8 {cs : List Char} (h : cs.length ≤ n) (place : Nat) :
    decodeUpTo n place (encodeUtf8 cs) = .ok cs := by
  induction cs generalizing n place with
  | nil =>
    cases n with
    | zero => rfl
    | succ n => rfl
  | cons c cs ih =>
    obtain ⟨b, bs, bytes, decoded⟩ := exists_decodeChar_encode c
    obtain ⟨m, rfl⟩ : ∃ m, n = m + 1 := ⟨n - 1, by simp at h; omega⟩
    have first : encodeUtf8 (c :: cs) = b :: (bs ++ encodeUtf8 cs) := by
      simp [encodeUtf8, bytes]
    rw [first, decodeUpTo, decoded]
    simp only [ih (n := m) (by simpa using h)]

theorem length_le_length_encodeUtf8 (cs : List Char) : cs.length ≤ (encodeUtf8 cs).length := by
  induction cs with
  | nil => exact Nat.le_refl 0
  | cons c cs ih =>
    obtain ⟨b, bs, bytes, _⟩ := exists_decodeChar_encode c
    have first : encodeUtf8 (c :: cs) = b :: bs ++ encodeUtf8 cs := by
      simp [encodeUtf8, bytes]
    rw [first, List.length_append]
    simp
    omega

/-- Every text is decoded from its bytes. -/
theorem decodeUtf8_encodeUtf8 (cs : List Char) : decodeUtf8 (encodeUtf8 cs) = .ok cs :=
  decodeUpTo_encodeUtf8 (length_le_length_encodeUtf8 cs) 0

end ContextFree.Text
