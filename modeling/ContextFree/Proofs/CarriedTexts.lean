/-
  ContextFree/Proofs/CarriedTexts.lean
  ====================================
  **Carried texts stand for texts of code points.**

  Carrying loses nothing (`points_carry`), goes piece by piece (`carry_append`) and
  keeps the order (`carry_lt_carry_iff`).  A text without surrogates is quoted,
  written and encoded as if it were plain.  Only a surrogate keeps a text from being
  encoded (`encode_eq_ok_iff`), and a plain text has none.
-/
import ContextFree.Text.Surrogates
import Mathlib.Data.String.Basic

namespace ContextFree.Text

variable {ps qs : List Nat} {cs : List Char} {s t : String} {spelling : Spelling}

/-! ### Characters -/

/-- No character is a surrogate. -/
theorem isSurrogate_toNat (c : Char) : isSurrogate c.toNat = false := by
  have valid : c.toNat.isValidChar := c.valid
  simp only [isSurrogate, isHighSurrogate, isLowSurrogate, Bool.or_eq_false_iff,
    Bool.and_eq_false_iff, decide_eq_false_iff_not]
  unfold Nat.isValidChar at valid
  omega

theorem toNat_ofNat {n : Nat} (low : ¬ (0xD7FF ≤ n ∧ n ≤ 0xDFFF)) (high : n < 0x110000) :
    (Char.ofNat n).toNat = n := by
  have valid : n.isValidChar := by
    unfold Nat.isValidChar
    omega
  unfold Char.ofNat
  rw [dif_pos valid]
  rfl

/-! ### Nothing is lost -/

theorem carriedPoints_cons {c : Char} (h : c ≠ carrier) (cs : List Char) :
    carriedPoints (c :: cs) = c.toNat :: carriedPoints cs := by
  cases cs with
  | nil => rfl
  | cons d cs => rw [carriedPoints, if_neg h]

theorem carriedPoints_carrier (d : Char) (cs : List Char) :
    carriedPoints (carrier :: d :: cs) = (d.toNat - 0x801) :: carriedPoints cs := by
  rw [carriedPoints, if_pos rfl]

theorem carriedPoints_carryPoint {n : Nat} (h : n < 0x110000) (cs : List Char) :
    carriedPoints (carryPoint n ++ cs) = n :: carriedPoints cs := by
  unfold carryPoint
  split
  · rw [List.cons_append, List.singleton_append, carriedPoints_carrier,
      toNat_ofNat (by omega) (by omega), Nat.add_sub_cancel]
  · rename_i outside
    have value : (Char.ofNat n).toNat = n := toNat_ofNat outside h
    have other : Char.ofNat n ≠ carrier := by
      intro equal
      have same : n = 0xD7FF := value.symm.trans (congrArg Char.toNat equal)
      omega
    rw [List.singleton_append, carriedPoints_cons other, value]

theorem carriedPoints_flatMap (h : ∀ n ∈ ps, n < 0x110000) :
    carriedPoints (ps.flatMap carryPoint) = ps := by
  induction ps with
  | nil => rfl
  | cons n ps ih =>
    obtain ⟨first, others⟩ := List.forall_mem_cons.1 h
    rw [List.flatMap_cons, carriedPoints_carryPoint first, ih others]

/-- A carried text stands for the code points that it was made of. -/
theorem points_carry (h : ∀ n ∈ ps, n < 0x110000) : Spelling.carried.points (carry ps) = ps := by
  simp only [Spelling.points, carry, String.toList_ofList, carriedPoints_flatMap h]

theorem carry_append (ps qs : List Nat) : carry (ps ++ qs) = carry ps ++ carry qs := by
  unfold carry
  rw [List.flatMap_append, String.ofList_append]

/-! ### The order is kept -/

theorem lt_iff_toNat_lt {c d : Char} : c < d ↔ c.toNat < d.toNat := Iff.rfl

/-- Two texts that begin with a code point are in the order of these, or of what is behind them. -/
theorem carryPoint_append_lt_iff {m n : Nat} (hm : m < 0x110000) (hn : n < 0x110000)
    (cs ds : List Char) :
    carryPoint m ++ cs < carryPoint n ++ ds ↔ m < n ∨ m = n ∧ cs < ds := by
  have carrierValue : carrier.toNat = 0xD7FF := rfl
  unfold carryPoint
  split <;> split <;> rename_i insideM insideN <;>
    simp only [List.cons_append, List.nil_append, List.cons_lt_cons_iff, lt_iff_toNat_lt,
      ← Char.toNat_inj, carrierValue]
  · rw [toNat_ofNat (n := m + 0x801) (by omega) (by omega),
      toNat_ofNat (n := n + 0x801) (by omega) (by omega)]
    simp only [Nat.lt_irrefl, false_or, true_and, Nat.add_lt_add_iff_right,
      Nat.add_right_cancel_iff]
  · rw [toNat_ofNat insideN hn]
    have apart : 0xD7FF ≠ n ∧ m ≠ n := by omega
    simp only [apart.1, apart.2, false_and, or_false]
    omega
  · rw [toNat_ofNat insideM hm]
    have apart : m ≠ 0xD7FF ∧ m ≠ n := by omega
    simp only [apart.1, apart.2, false_and, or_false]
    omega
  · rw [toNat_ofNat insideM hm, toNat_ofNat insideN hn]

theorem flatMap_carryPoint_lt_iff (hps : ∀ n ∈ ps, n < 0x110000) (hqs : ∀ n ∈ qs, n < 0x110000) :
    ps.flatMap carryPoint < qs.flatMap carryPoint ↔ ps < qs := by
  have empty : ∀ n, carryPoint n ≠ [] := by
    intro n
    unfold carryPoint
    split <;> exact List.cons_ne_nil _ _
  induction ps generalizing qs with
  | nil =>
    cases qs with
    | nil => simp
    | cons n qs =>
      obtain ⟨c, cs, hc⟩ := List.exists_cons_of_ne_nil (empty n)
      simp [hc]
  | cons m ps ih =>
    cases qs with
    | nil => simp
    | cons n qs =>
      obtain ⟨hm, hps⟩ := List.forall_mem_cons.1 hps
      obtain ⟨hn, hqs⟩ := List.forall_mem_cons.1 hqs
      rw [List.flatMap_cons, List.flatMap_cons, List.cons_lt_cons_iff]
      exact (carryPoint_append_lt_iff hm hn _ _).trans
        (or_congr_right (and_congr_right fun _ => ih hps hqs))

/-- Carried texts are in the order of their code points. -/
theorem carry_lt_carry_iff (hps : ∀ n ∈ ps, n < 0x110000) (hqs : ∀ n ∈ qs, n < 0x110000) :
    carry ps < carry qs ↔ ps < qs := by
  unfold carry
  rw [String.lt_iff_toList_lt, String.toList_ofList, String.toList_ofList]
  exact flatMap_carryPoint_lt_iff hps hqs

/-! ### Encoding -/

theorem encodePoints_eq_ok_iff : encodePoints ps = .ok t ↔
    (∀ n ∈ ps, isSurrogate n = false) ∧ t = ofPoints ps := by
  unfold encodePoints
  cases some : ps.any isSurrogate with
  | true =>
    obtain ⟨n, hn, surrogate⟩ := List.any_eq_true.1 some
    refine iff_of_false (by simp) fun h => ?_
    cases surrogate.symm.trans (h.1 n hn)
  | false =>
    have none : ∀ n ∈ ps, isSurrogate n = false := by simpa using some
    rw [and_iff_right none]
    exact ⟨fun h => (Except.ok.inj h).symm, fun h => congrArg Except.ok h.symm⟩

theorem map_ofNat_map_toNat (cs : List Char) : (cs.map Char.toNat).map Char.ofNat = cs := by
  simp [List.map_map, Function.comp_def]

theorem ofPoints_map_toNat (cs : List Char) : ofPoints (cs.map Char.toNat) = String.ofList cs := by
  rw [ofPoints, map_ofNat_map_toNat]

theorem ofPoints_plain (s : String) : ofPoints (Spelling.plain.points s) = s := by
  rw [Spelling.points, ofPoints_map_toNat, String.ofList_toList]

theorem Spelling.isEncodable_plain (s : String) : plain.IsEncodable s := by
  intro n hn
  obtain ⟨c, _, rfl⟩ := List.mem_map.1 hn
  exact isSurrogate_toNat c

/-- A text can be encoded if no code point of it is a surrogate, and is then made of characters. -/
theorem Spelling.encode_eq_ok_iff : spelling.encode s = .ok t ↔
    spelling.IsEncodable s ∧ t = ofPoints (spelling.points s) := by
  cases spelling with
  | plain =>
    rw [ofPoints_plain]
    constructor
    · rintro ⟨⟩
      exact ⟨isEncodable_plain _, rfl⟩
    · rintro ⟨_, rfl⟩
      rfl
  | carried => exact encodePoints_eq_ok_iff

/-! ### Texts without surrogates -/

theorem lt_of_mem_map_toNat {n : Nat} (h : n ∈ cs.map Char.toNat) : n < 0x110000 := by
  obtain ⟨c, _, rfl⟩ := List.mem_map.1 h
  have valid : c.toNat.isValidChar := c.valid
  unfold Nat.isValidChar at valid
  omega

theorem carriedPoints_carry_map_toNat (s : String) :
    carriedPoints (carry (s.toList.map Char.toNat)).toList = s.toList.map Char.toNat :=
  points_carry fun _ => lt_of_mem_map_toNat

/-- Quoted, a text is the same whether it is plain or carried. -/
theorem quote_carry (s : String) :
    Spelling.carried.quote (carry (s.toList.map Char.toNat)) = Spelling.plain.quote s := by
  have characters : (s.toList.map Char.toNat).filter (!isSurrogate ·) = s.toList.map Char.toNat :=
    List.filter_eq_self.2 fun n hn => by simp [Spelling.isEncodable_plain s n hn]
  simp only [Spelling.quote, carriedPoints_carry_map_toNat, quotePoints, quotedPoint, quote,
    characters, map_ofNat_map_toNat, List.flatMap_map, isSurrogate_toNat, Char.ofNat_toNat,
    Bool.false_eq_true, if_false]

theorem escape_carry (s : String) :
    Spelling.carried.escape (carry (s.toList.map Char.toNat)) = Spelling.plain.escape s := by
  simp only [Spelling.escape, carriedPoints_carry_map_toNat, escapePoints, escapedPoint,
    List.flatMap_map, isSurrogate_toNat, Char.ofNat_toNat, Bool.false_eq_true, if_false,
    List.flatMap_singleton', String.ofList_toList]

theorem encode_carry (s : String) :
    Spelling.carried.encode (carry (s.toList.map Char.toNat)) = Spelling.plain.encode s := by
  have points : Spelling.carried.points (carry (s.toList.map Char.toNat)) =
      s.toList.map Char.toNat := carriedPoints_carry_map_toNat s
  refine Spelling.encode_eq_ok_iff.2 ⟨?_, ?_⟩
  · unfold Spelling.IsEncodable
    rw [points]
    exact Spelling.isEncodable_plain s
  · rw [points, ofPoints_map_toNat, String.ofList_toList]

end ContextFree.Text
