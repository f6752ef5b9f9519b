/-
  ContextFree/Proofs/JsonRoundTrip.lean
  =====================================
  **What is written as JSON is read as the same value** (`parse_render`), for values
  that are made of strings.

  Each part of the reader takes what the writer wrote for it and leaves the rest:
  the characters of a string one by one (`readUnits_escapeChar`), and the items and
  members of a value by induction on the value.  A value is written with more
  characters than it takes fuel to read it.
-/
import ContextFree.Json.Reader
import ContextFree.Json.Writer
import ContextFree.Proofs.CarriedTexts

namespace ContextFree.Json

variable {rest cs start : List Char}

/-! ### Strings -/

theorem readUnits_escape {c e : Char} (h : escapedChar? c = some e) (cs : List Char) :
    readUnits start ('\\' :: c :: cs) = consUnit e.toNat (readUnits start cs) := by
  have notUnit : c ≠ 'u' := by
    rintro rfl
    have none : escapedChar? 'u' = none := by decide
    rw [none] at h
    cases h
  rw [readUnits.eq_6 start c cs (fun _ _ _ _ _ _ hc => absurd hc notUnit) notUnit, h]

theorem readUnits_char {c : Char} (hquote : c ≠ '"') (hslash : c ≠ '\\') (h : ¬ c.toNat < 0x20)
    (cs : List Char) : readUnits start (c :: cs) = consUnit c.toNat (readUnits start cs) := by
  rw [readUnits.eq_7 start c cs hquote (fun hc => absurd hc hslash)
    (fun _ _ _ _ _ _ hc => absurd hc hslash) (fun _ hc => absurd hc hslash)
    (fun _ _ hc => absurd hc hslash), if_neg h]

theorem hexNumber?_hexDigits : ∀ n < 0x20, hexNumber? 0 (Text.hexDigits 4 n) = some n := by decide

/-- A written character is read as its unit.  Four digits need a character behind them; the closing
    mark is one. -/
theorem readUnits_escapeChar (c d : Char) (cs : List Char) :
    readUnits start (escapeChar c ++ d :: cs) =
      consUnit c.toNat (readUnits start (d :: cs)) := by
  unfold escapeChar
  split
  · exact readUnits_escape rfl _
  · exact readUnits_escape rfl _
  · exact readUnits_escape rfl _
  · exact readUnits_escape rfl _
  · exact readUnits_escape rfl _
  · exact readUnits_escape rfl _
  · exact readUnits_escape rfl _
  · rename_i hquote hslash _ _ _ _ _
    split
    · rename_i h
      have digits := hexNumber?_hexDigits c.toNat h
      simp only [Text.hexDigits, List.nil_append, List.cons_append] at digits ⊢
      rw [readUnits.eq_4, digits]
    · rename_i h
      exact readUnits_char hquote hslash h _

theorem readUnits_flatMap (cs rest : List Char) :
    readUnits start (cs.flatMap escapeChar ++ '"' :: rest) = .ok (cs.map Char.toNat, rest) := by
  induction cs with
  | nil => exact readUnits.eq_2 start rest
  | cons c cs ih =>
    obtain ⟨d, ds, hds⟩ : ∃ d ds, cs.flatMap escapeChar ++ '"' :: rest = d :: ds :=
      List.exists_cons_of_ne_nil (by simp)
    rw [List.flatMap_cons, List.append_assoc, hds, readUnits_escapeChar, ← hds, ih]
    rfl

/-- No unit of a text is half a pair, so units and code points are the same. -/
theorem joinUnits_map_toNat (cs : List Char) :
    joinUnits (cs.map Char.toNat) = cs.map Char.toNat := by
  induction cs with
  | nil => rfl
  | cons c cs ih =>
    cases cs with
    | nil => rfl
    | cons d cs =>
      have alone : Text.isHighSurrogate c.toNat = false :=
        (Bool.or_eq_false_iff.1 (Text.isSurrogate_toNat c)).1
      rw [List.map_cons, List.map_cons, joinUnits, alone, ← List.map_cons, ih]
      rfl

theorem strict_map_toNat (cs : List Char) :
    Spell.strict (cs.map Char.toNat) = some (String.ofList cs) := by
  have none : (cs.map Char.toNat).any Text.isSurrogate = false := by
    simp [Text.isSurrogate_toNat]
  rw [Spell.strict, none, Text.ofPoints_map_toNat]
  rfl

theorem readString_writeString (s : String) (rest : List Char) :
    readString .strict (s.toList.flatMap escapeChar ++ '"' :: rest) = .ok (s, rest) := by
  unfold readString
  rw [readUnits_flatMap]
  simp only [bind, Except.bind, joinUnits_map_toNat, strict_map_toNat, String.ofList_toList]
  rfl

theorem writeString_append (s : String) (rest : List Char) :
    writeString s ++ rest = '"' :: (s.toList.flatMap escapeChar ++ '"' :: rest) := by
  simp [writeString]

/-! ### White space -/

theorem skipSpace_cons {c : Char} (h : isSpace c = false) (cs : List Char) :
    skipSpace (c :: cs) = c :: cs := List.dropWhile_cons_of_neg (by simp [h])

theorem isSpace_of_mem_newline {level : Nat} {c : Char} (h : c ∈ newline level) :
    isSpace c = true := by
  rcases List.mem_cons.1 h with rfl | h
  · rfl
  · rw [List.eq_of_mem_replicate h]
    rfl

theorem skipSpace_newline (level : Nat) (cs : List Char) :
    skipSpace (newline level ++ cs) = skipSpace cs :=
  List.dropWhile_append_of_pos fun _ h => isSpace_of_mem_newline h

/-! ### Values made of strings -/

/-- A value made of strings, in whose objects no name is repeated. -/
inductive Textual : Json → Prop where
  | string (s : String) : Textual (.string s)
  | array {items : List Json} (each : ∀ v ∈ items, Textual v) : Textual (.array items)
  | object {members : List (String × Json)} (nodup : (members.map Prod.fst).Nodup)
      (each : ∀ m ∈ members, Textual m.2) : Textual (.object members)

/-- A character that a value made of strings begins with. -/
def IsOpening (c : Char) : Prop := c = '"' ∨ c = '[' ∨ c = '\x7b'

theorem IsOpening.isSpace_eq_false {c : Char} (h : IsOpening c) : isSpace c = false := by
  rcases h with rfl | rfl | rfl <;> rfl

theorem Textual.exists_write_eq_cons {v : Json} (hv : v.Textual) (level : Nat) :
    ∃ c cs, IsOpening c ∧ write level v = c :: cs := by
  cases hv with
  | string s => exact ⟨_, _, Or.inl rfl, rfl⟩
  | @array items each =>
    cases items with
    | nil => exact ⟨_, _, Or.inr (Or.inl rfl), rfl⟩
    | cons w ws => exact ⟨_, _, Or.inr (Or.inl rfl), rfl⟩
  | @object members nodup each =>
    cases members with
    | nil => exact ⟨_, _, Or.inr (Or.inr rfl), rfl⟩
    | cons m ms => exact ⟨_, _, Or.inr (Or.inr rfl), rfl⟩

theorem Textual.skipSpace_write {v : Json} (hv : v.Textual) (level : Nat) (rest : List Char) :
    skipSpace (write level v ++ rest) = write level v ++ rest := by
  obtain ⟨c, cs, hc, hwrite⟩ := hv.exists_write_eq_cons level
  rw [hwrite]
  exact skipSpace_cons hc.isSpace_eq_false _

/-- What is written begins with no closing bracket. -/
theorem Textual.head?_write_ne {v : Json} (hv : v.Textual) {d : Char} (hd : d = ']' ∨ d = '\x7d')
    (level : Nat) (rest : List Char) : (write level v ++ rest).head? ≠ some d := by
  obtain ⟨c, cs, hc, hwrite⟩ := hv.exists_write_eq_cons level
  rw [hwrite]
  rintro h
  obtain rfl : c = d := Option.some.inj h
  rcases hc with rfl | rfl | rfl <;> exact absurd hd (by decide)

/-! ### One step of the reader -/

section Steps

variable {n : Nat} {v : Json} {name : String} {more text : List Char}

theorem readValue_items (h : skipSpace text = more) (hmore : more.head? ≠ some ']') :
    readValue .strict (n + 1) ('[' :: text) =
      (readItems .strict n more).map fun p => (.array p.1, p.2) := by
  rw [readValue.eq_3, h]
  split
  · exact absurd rfl hmore
  · rfl

theorem readValue_members (h : skipSpace text = more) (hmore : more.head? ≠ some '\x7d') :
    readValue .strict (n + 1) ('\x7b' :: text) =
      (readMembers .strict n more).map fun p => (.ofMembers p.1, p.2) := by
  rw [readValue.eq_4, h]
  split
  · exact absurd rfl hmore
  · rfl

theorem readItems_last (h : readValue .strict n text = .ok (v, more))
    (hmore : skipSpace more = ']' :: rest) :
    readItems .strict (n + 1) text = .ok ([v], rest) := by
  rw [readItems.eq_2, h]
  simp only [bind, Except.bind, hmore]
  rfl

theorem readItems_next (h : readValue .strict n text = .ok (v, more))
    (hmore : skipSpace more = ',' :: rest) :
    readItems .strict (n + 1) text =
      (readItems .strict n (skipSpace rest)).map fun p => (v :: p.1, p.2) := by
  rw [readItems.eq_2, h]
  simp only [bind, Except.bind, hmore]
  cases readItems .strict n (skipSpace rest) <;> rfl

theorem readName_writeString (name : String) (text : List Char) :
    readName .strict (writeString name ++ ':' :: ' ' :: text) = .ok (name, skipSpace text) := by
  rw [writeString_append, readName]
  simp only [bind, Except.bind, readString_writeString]
  rfl

theorem readMembers_last (hname : readName .strict cs = .ok (name, text))
    (h : readValue .strict n text = .ok (v, more)) (hmore : skipSpace more = '\x7d' :: rest) :
    readMembers .strict (n + 1) cs = .ok ([(name, v)], rest) := by
  rw [readMembers.eq_2, hname]
  simp only [bind, Except.bind, h, hmore]
  rfl

theorem readMembers_next (hname : readName .strict cs = .ok (name, text))
    (h : readValue .strict n text = .ok (v, more)) (hmore : skipSpace more = ',' :: rest) :
    readMembers .strict (n + 1) cs =
      (readMembers .strict n (skipSpace rest)).map fun p => ((name, v) :: p.1, p.2) := by
  rw [readMembers.eq_2, hname]
  simp only [bind, Except.bind, h, hmore]
  cases readMembers .strict n (skipSpace rest) <;> rfl

end Steps

/-! ### Whole values -/

/-- However far a value is indented, it is read again, and what is behind it is left.  It takes less
    fuel than it has characters. -/
def ReadsBack (v : Json) : Prop :=
  ∀ level n rest, (write level v).length ≤ n →
    readValue .strict n (write level v ++ rest) = .ok (v, rest)

theorem readItems_writeItems {level n : Nat} {v : Json} {vs : List Json}
    (each : ∀ w ∈ v :: vs, w.Textual ∧ w.ReadsBack)
    (fuel : (write level v).length + (writeItems level vs).length < n) (last : Nat)
    (rest : List Char) :
    readItems .strict n (write level v ++ (writeItems level vs ++ (newline last ++ ']' :: rest))) =
      .ok (v :: vs, rest) := by
  induction vs generalizing v n with
  | nil =>
    obtain ⟨m, rfl⟩ : ∃ m, n = m + 1 := ⟨n - 1, by omega⟩
    refine readItems_last ((each v List.mem_cons_self).2 level m _ ?_) ?_
    · simp only [writeItems, List.length_nil] at fuel
      omega
    · rw [writeItems, List.nil_append, skipSpace_newline, skipSpace_cons rfl]
  | cons w ws ih =>
    obtain ⟨m, rfl⟩ : ∃ m, n = m + 1 := ⟨n - 1, by omega⟩
    obtain ⟨first, others⟩ := List.forall_mem_cons.1 each
    simp only [writeItems, List.length_append, List.length_cons, List.append_assoc,
      List.cons_append] at fuel ⊢
    rw [readItems_next (first.2 level m _ (by omega)) (skipSpace_cons rfl _), skipSpace_newline,
      (others w List.mem_cons_self).1.skipSpace_write, ih others (by omega)]
    rfl

theorem readValue_skipSpace {level n : Nat} {v : Json} (hv : v.Textual ∧ v.ReadsBack)
    (fuel : (write level v).length ≤ n) (rest : List Char) :
    readValue .strict n (skipSpace (write level v ++ rest)) = .ok (v, rest) := by
  rw [hv.1.skipSpace_write]
  exact hv.2 level n rest fuel

theorem readMembers_writeMembers {level n : Nat} {name : String} {v : Json}
    {ms : List (String × Json)} (each : ∀ m ∈ (name, v) :: ms, m.2.Textual ∧ m.2.ReadsBack)
    (fuel : (write level v).length + (writeMembers level ms).length < n) (last : Nat)
    (rest : List Char) :
    readMembers .strict n (writeString name ++ ':' :: ' ' :: (write level v ++
        (writeMembers level ms ++ (newline last ++ '\x7d' :: rest)))) =
      .ok ((name, v) :: ms, rest) := by
  induction ms generalizing name v n with
  | nil =>
    obtain ⟨k, rfl⟩ : ∃ k, n = k + 1 := ⟨n - 1, by omega⟩
    have value : v.Textual ∧ v.ReadsBack := each (name, v) List.mem_cons_self
    refine readMembers_last (readName_writeString name _) (readValue_skipSpace value ?_ _) ?_
    · simp only [writeMembers, List.length_nil] at fuel
      omega
    · rw [writeMembers, List.nil_append, skipSpace_newline, skipSpace_cons rfl]
  | cons m ms ih =>
    obtain ⟨k, rfl⟩ : ∃ k, n = k + 1 := ⟨n - 1, by omega⟩
    obtain ⟨name', w⟩ := m
    have value : v.Textual ∧ v.ReadsBack := each (name, v) List.mem_cons_self
    have others : ∀ m ∈ (name', w) :: ms, m.2.Textual ∧ m.2.ReadsBack :=
      fun m hm => each m (List.mem_cons_of_mem _ hm)
    have mark : ∀ text, skipSpace (writeString name' ++ text) = writeString name' ++ text :=
      (Textual.string name').skipSpace_write level
    simp only [writeMembers, List.length_append, List.length_cons, List.append_assoc,
      List.cons_append, List.nil_append] at fuel ⊢
    rw [readMembers_next (readName_writeString name _) (readValue_skipSpace value (by omega) _)
      (skipSpace_cons rfl _), skipSpace_newline, mark, ih others (by omega)]
    rfl

/-- Every value made of strings is read again. -/
theorem Textual.readsBack {v : Json} (hv : v.Textual) : v.ReadsBack := by
  induction hv with
  | string s =>
    intro level n rest fuel
    obtain ⟨m, rfl⟩ : ∃ m, n = m + 1 := ⟨n - 1, by simp [write, writeString] at fuel; omega⟩
    rw [write, writeString_append, readValue.eq_2, readString_writeString]
    rfl
  | @array items each ih =>
    intro level n rest fuel
    obtain ⟨m, rfl⟩ : ∃ m, n = m + 1 := ⟨n - 1, by cases items <;> simp [write] at fuel <;> omega⟩
    cases items with
    | nil => rfl
    | cons w ws =>
      have first := each w List.mem_cons_self
      simp only [write, List.length_append, List.length_cons, List.append_assoc, List.cons_append,
        List.nil_append] at fuel ⊢
      rw [readValue_items ((skipSpace_newline _ _).trans (first.skipSpace_write _ _))
          (first.head?_write_ne (Or.inl rfl) _ _),
        readItems_writeItems (fun w hw => ⟨each w hw, ih w hw⟩) (by omega)]
      rfl
  | @object members nodup each ih =>
    intro level n rest fuel
    obtain ⟨k, rfl⟩ : ∃ k, n = k + 1 := ⟨n - 1, by cases members <;> simp [write] at fuel <;> omega⟩
    cases members with
    | nil => rfl
    | cons m ms =>
      obtain ⟨name, w⟩ := m
      -- A name is written as the string that it is.
      have mark : ∀ text, skipSpace (newline (level + 1) ++ (writeString name ++ text)) =
          writeString name ++ text := fun text =>
        (skipSpace_newline _ _).trans ((Textual.string name).skipSpace_write level text)
      have opening : ∀ text, (writeString name ++ text).head? ≠ some '\x7d' := fun text =>
        (Textual.string name).head?_write_ne (Or.inr rfl) level text
      simp only [write, List.length_append, List.length_cons, List.append_assoc, List.cons_append,
        List.nil_append] at fuel ⊢
      rw [readValue_members (mark _) (opening _),
        readMembers_writeMembers (fun m hm => ⟨each m hm, ih m hm⟩) (by omega)]
      -- No name is repeated, so every member is kept.
      have kept : ofMembers ((name, w) :: ms) = Json.object ((name, w) :: ms) :=
        congrArg Json.object (Table.entries_ofList nodup)
      simp only [Except.map, kept]

theorem parse_render {v : Json} (hv : v.Textual) : parse (render v ++ "\n") = .ok v := by
  have text : (render v ++ "\n").toList = write 0 v ++ ['\n'] := by simp [render]
  obtain ⟨c, cs, hc, hwrite⟩ := hv.exists_write_eq_cons 0
  have mark : ((write 0 v ++ ['\n']).head? == some '\uFEFF') = false := by
    rw [hwrite]
    rcases hc with rfl | rfl | rfl <;> rfl
  have value := hv.readsBack 0 (2 * (write 0 v ++ ['\n']).length + 1) ['\n'] (by
    rw [List.length_append]
    omega)
  have read : readText .strict (write 0 v ++ ['\n']) = .ok v := by
    rw [readText, mark, hv.skipSpace_write, value]
    rfl
  rw [parse, parseWith, text, read]

/-! ### Line ends -/

theorem not_mem_escapeChar (c : Char) : '\r' ∉ escapeChar c := by
  unfold escapeChar
  split <;> try decide
  rename_i hreturn _ _ _
  split
  · rename_i h
    have digits : ∀ n < 0x20, '\r' ∉ '\\' :: 'u' :: Text.hexDigits 4 n := by decide
    exact digits c.toNat h
  · exact fun h => hreturn (List.mem_singleton.1 h).symm

theorem not_mem_writeString (s : String) : '\r' ∉ writeString s := by
  simp [writeString, not_mem_escapeChar]

theorem not_mem_newline (level : Nat) : '\r' ∉ newline level := by
  simp [newline]

theorem not_mem_writeItems {level : Nat} {vs : List Json}
    (each : ∀ v ∈ vs, ∀ level, '\r' ∉ write level v) : '\r' ∉ writeItems level vs := by
  induction vs with
  | nil => exact List.not_mem_nil
  | cons v vs ih =>
    obtain ⟨first, others⟩ := List.forall_mem_cons.1 each
    simp [writeItems, not_mem_newline, first level, ih others]

theorem not_mem_writeMembers {level : Nat} {ms : List (String × Json)}
    (each : ∀ m ∈ ms, ∀ level, '\r' ∉ write level m.2) : '\r' ∉ writeMembers level ms := by
  induction ms with
  | nil => exact List.not_mem_nil
  | cons m ms ih =>
    obtain ⟨first, others⟩ := List.forall_mem_cons.1 each
    simp [writeMembers, not_mem_newline, not_mem_writeString, first level, ih others]

/-- The only line ends that are written are line feeds. -/
theorem Textual.not_mem_write {v : Json} (hv : v.Textual) (level : Nat) : '\r' ∉ write level v := by
  induction hv generalizing level with
  | string s => exact not_mem_writeString s
  | @array items _ ih =>
    cases items with
    | nil => simp [write]
    | cons w ws =>
      obtain ⟨first, others⟩ := List.forall_mem_cons.1 ih
      simp [write, not_mem_newline, first (level + 1), not_mem_writeItems others]
  | @object members _ _ ih =>
    cases members with
    | nil => simp [write]
    | cons m ms =>
      obtain ⟨first, others⟩ := List.forall_mem_cons.1 ih
      simp [write, not_mem_newline, not_mem_writeString, first (level + 1),
        not_mem_writeMembers others]

end ContextFree.Json
