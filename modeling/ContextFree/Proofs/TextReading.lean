/-
  ContextFree/Proofs/TextReading.lean
  ===================================
  **Which texts are grammars, and which grammar a text is.**

  A text is accepted if and only if there is a production line and every production
  line has the form of one, with each word for the empty right-hand side alone in its
  alternative (`IsProduction`).  What such a line says is its left-hand side and the
  names of its alternatives (`Reads`); the grammar collects them, and only then is it
  settled which names are non-terminals.
-/
import ContextFree.Proofs.ProductionLines
import ContextFree.Proofs.Readers
import ContextFree.Proofs.RuleLists
import ContextFree.Proofs.WellFormed

namespace ContextFree

open Text

namespace Production

variable {line piece : List Char} {p : Production}

/-! ### One line -/

/-- A line is a production: it has an arrow and no second one, a name in front of it, and
    alternatives behind it, in which a word for the empty right-hand side is alone. -/
def IsProduction (line : List Char) : Prop :=
  ∃ front rest, FirstArrow line front rest ∧ HasForm front rest ∧
    ∀ piece ∈ splitOn (· == '|') rest, ∀ w ∈ words piece, isEpsilonWord w = true → words piece = [w]

/-- The names of an alternative; a word for the empty right-hand side is no name. -/
def alternativeNames (piece : List Char) : List String :=
  if (words piece).any isEpsilonWord then [] else (words piece).map String.ofList

/-- A name of an alternative is a word, and none for the empty right-hand side. -/
theorem mem_alternativeNames {a : String} (h : a ∈ alternativeNames piece) :
    a.toList ∈ words piece ∧ isEpsilonWord a.toList = false := by
  unfold alternativeNames at h
  split at h
  · cases h
  · rename_i none
    obtain ⟨w, hw, rfl⟩ := List.mem_map.1 h
    rw [String.toList_ofList]
    simp only [Bool.not_eq_true, List.any_eq_false] at none
    exact ⟨hw, by simpa using none w hw⟩

/-- What a line says: the name in front of its first arrow, and the alternatives behind it. -/
def Reads (line : List Char) (p : Production) : Prop :=
  ∃ front rest, FirstArrow line front rest ∧ p.lhs = String.ofList (strip front) ∧
    p.alternatives = (splitOn (· == '|') rest).map alternativeNames

theorem FirstArrow.unique {front front' rest rest' : List Char} (h : FirstArrow line front rest)
    (h' : FirstArrow line front' rest') : front = front' ∧ rest = rest' := by
  have same := (cutArrow_eq_some_iff.2 h).symm.trans (cutArrow_eq_some_iff.2 h')
  exact Prod.mk.inj (Option.some.inj same)

theorem symbols?_eq_some_iff {names : List String} :
    symbols? piece = some names ↔
      (∀ w ∈ words piece, isEpsilonWord w = true → words piece = [w]) ∧
        names = alternativeNames piece := by
  unfold symbols? alternativeNames
  dsimp only
  split
  · rename_i h
    obtain ⟨w, hw, heps⟩ := List.any_eq_true.1 h
    split
    · rename_i hlen
      obtain ⟨v, hv⟩ := List.length_eq_one_iff.1 hlen
      have alone : ∀ w ∈ [v], isEpsilonWord w = true → [v] = [w] := by
        intro w hw _
        rw [List.mem_singleton.1 hw]
      rw [hv, Option.some_inj, eq_comm]
      exact (and_iff_right alone).symm
    · rename_i hlen
      refine iff_of_false (by simp) ?_
      intro alone
      apply hlen
      rw [alone.1 w hw heps]
      rfl
  · rename_i h
    have none : ∀ w ∈ words piece, isEpsilonWord w = true → words piece = [w] := by
      intro w hw heps
      exact absurd (List.any_eq_true.2 ⟨w, hw, heps⟩) h
    rw [Option.some_inj, eq_comm]
    exact (and_iff_right none).symm

/-- A line is read if and only if it is a production, as what it says. -/
theorem ofLine_eq_ok_iff {i : Nat} : ofLine i line = .ok p ↔ IsProduction line ∧ Reads line p := by
  have pieces : ∀ (rest : List Char) (alternatives : List (List String)),
      (splitOn (· == '|') rest).mapM symbols? = some alternatives ↔
        (∀ piece ∈ splitOn (· == '|') rest, ∀ w ∈ words piece,
          isEpsilonWord w = true → words piece = [w]) ∧
        alternatives = (splitOn (· == '|') rest).map alternativeNames :=
    fun rest alternatives => mapM_eq_some_iff fun _ _ => symbols?_eq_some_iff
  unfold ofLine
  split
  · rename_i accepted
    obtain ⟨front, rest, first, form⟩ := accepts_form_iff.1 accepted
    rw [cutArrow_eq_some_iff.2 first]
    dsimp only
    constructor
    · intro h
      split at h
      · rename_i alternatives halternatives
        cases h
        obtain ⟨alone, read⟩ := (pieces rest alternatives).1 halternatives
        exact ⟨⟨front, rest, first, form, alone⟩, front, rest, first, rfl, read⟩
      · cases h
    · intro h
      obtain ⟨⟨f, r, first', _, alone⟩, f', r', first'', hlhs, hread⟩ := h
      obtain ⟨rfl, rfl⟩ := first.unique first'
      obtain ⟨rfl, rfl⟩ := first.unique first''
      rw [(pieces rest p.alternatives).2 ⟨alone, hread⟩, ← hlhs]
  · rename_i rejected
    refine iff_of_false (by simp) ?_
    intro h
    obtain ⟨⟨front, rest, first, form, _⟩, _⟩ := h
    exact rejected (accepts_form_iff.2 ⟨front, rest, first, form⟩)

theorem IsProduction.exists_reads (h : IsProduction line) : ∃ p, Reads line p := by
  obtain ⟨front, rest, first, _⟩ := h
  exact ⟨⟨String.ofList (strip front), (splitOn (· == '|') rest).map alternativeNames⟩,
    front, rest, first, rfl, rfl⟩

theorem Reads.alternatives_ne_nil (h : Reads line p) : p.alternatives ≠ [] := by
  obtain ⟨front, rest, _, _, hread⟩ := h
  rw [hread]
  simp [splitOn_ne_nil]

/-! ### The lines of a text -/

/-- The lines of a text that are neither blank nor comments. -/
def productionLines (text : String) : List (List Char) :=
  (lines text.toList).filter fun line => !isSkipped line

/-- A line counts if its first character that is not blank is there and is no `#`. -/
theorem isSkipped_eq_false_iff :
    isSkipped line = false ↔ ∃ l c cs, line = l ++ c :: cs ∧ (∀ b ∈ l, isBlank b = true) ∧
      isBlank c = false ∧ c ≠ '#' := by
  have body : ∀ (l cs : List Char), (∀ b ∈ l, isBlank b = true) →
      (∀ c ∈ cs.head?, isBlank c = false) → stripLeft (l ++ cs) = cs :=
    fun l cs hl hcs => dropWhile_append_of_blank hl hcs
  constructor
  · intro h
    have hline : line = line.takeWhile isBlank ++ line.dropWhile isBlank :=
      List.takeWhile_append_dropWhile.symm
    have hhead := List.head?_dropWhile_not isBlank line
    unfold isSkipped stripLeft at h
    cases hbody : line.dropWhile isBlank with
    | nil => simp [hbody] at h
    | cons c cs =>
      rw [hbody] at hline h hhead
      refine ⟨_, c, cs, hline, List.all_eq_true.1 List.all_takeWhile, ?_, ?_⟩
      · simpa using hhead
      · simpa using h
  · intro h
    obtain ⟨l, c, cs, rfl, hl, hc, hsharp⟩ := h
    unfold isSkipped
    rw [body l (c :: cs) hl (by simp [hc])]
    simpa using hsharp

theorem map_snd_numberedLines (text : String) :
    (numberedLines text).map Prod.snd = productionLines text := by
  have moved : (numberedLines text).map Prod.snd =
      (((lines text.toList).zipIdx 1 |>.map fun p => (p.2, p.1)).map Prod.snd).filter
        (fun line => !isSkipped line) :=
    (List.filter_map (f := Prod.snd) (p := fun line => !isSkipped line)).symm
  rw [moved, List.map_map]
  exact congrArg (List.filter _) (List.zipIdx_map_fst 1 (lines text.toList))

theorem ofText_eq_ok_iff {text : String} {ps : List Production} :
    ofText text = .ok ps ↔
      (∀ line ∈ productionLines text, IsProduction line) ∧
        List.Forall₂ Reads (productionLines text) ps := by
  unfold ofText
  simp only [mapM_eq_ok_iff, ofLine_eq_ok_iff]
  rw [List.forall₂_and_left, ← map_snd_numberedLines, List.forall_mem_map,
    List.forall₂_map_left_iff]

/-- The alternatives of a name in all productions, in order. -/
def alternativesOf (a : String) (ps : List Production) : List (List String) :=
  (ps.filter fun p => p.lhs = a).flatMap alternatives

end Production

/-- The first character of a name is an upper-case one. -/
def IsCapitalized (a : String) : Prop := ∃ c ∈ a.toList.head?, isUppercase c = true

namespace Grammar

variable {ps : List Production} {lhss : List String} {start a : String}

/-! ### From productions to a grammar -/

theorem isNonterminal_symbolOf_iff :
    (symbolOf lhss a).isNonterminal = true ↔ a ∈ lhss ∨ IsCapitalized a := by
  have kind : (symbolOf lhss a).isNonterminal = true ↔
      (a ∈ lhss || a.toList.head?.any Text.isUppercase) = true := by
    unfold symbolOf
    split <;> simp_all
  rw [kind]
  simp [IsCapitalized, Option.any_eq_true]

@[simp] theorem name_symbolOf : (symbolOf lhss a).name = a := by
  unfold symbolOf
  split <;> rfl

theorem rhssOf_rulesOf : rhssOf (.nonterminal a) (rulesOf ps) =
    (Production.alternativesOf a ps).map fun names =>
      names.map (symbolOf (ps.map Production.lhs)) := by
  -- The left-hand sides that settle the kinds are those of the whole text.
  have own : ∀ (f : String → Symbol) (qs : List Production),
      rhssOf (.nonterminal a) (qs.flatMap fun p => p.alternatives.map fun names =>
        ⟨.nonterminal p.lhs, names.map f⟩) =
          (Production.alternativesOf a qs).map fun names => names.map f := by
    intro f qs
    induction qs with
    | nil => rfl
    | cons p qs ih =>
      rw [List.flatMap_cons, rhssOf_append, ih]
      by_cases h : p.lhs = a
      · simp [Production.alternativesOf, rhssOf, List.filter_map, Function.comp_def, h]
      · simp [Production.alternativesOf, rhssOf, List.filter_map, Function.comp_def, h]
  exact own _ ps

theorem rhss_ofProductions : (ofProductions start ps).rhss (.nonterminal a) =
    Distinct.ofList ((Production.alternativesOf a ps).map fun names =>
      names.map (symbolOf (ps.map Production.lhs))) := by
  rw [← rhssOf_rulesOf]
  exact rhss_addRules_ofSymbols _ _ _ _ _

theorem map_lhs_rulesOf : (rulesOf ps).map Rule.lhs =
    ps.flatMap fun p => p.alternatives.map fun _ => .nonterminal p.lhs := by
  unfold rulesOf
  simp [List.map_flatMap, Function.comp_def]

theorem keys_ofProductions (h : ∀ p ∈ ps, p.alternatives ≠ []) :
    (ofProductions start ps).table.keys =
      Distinct.ofList (ps.map fun p => .nonterminal p.lhs) := by
  have keys : (ofProductions start ps).table.keys =
      Distinct.append [] ((rulesOf ps).map Rule.lhs) := keys_addRules _ _
  rw [keys, map_lhs_rulesOf]
  exact Distinct.append_flatMap_const _ _ h []

theorem mem_rhss_ofProductions {A : Symbol} {r : Rhs} :
    r ∈ (ofProductions start ps).rhss A ↔ (⟨A, r⟩ : Rule) ∈ rulesOf ps := by
  have rhss : (ofProductions start ps).rhss A = Distinct.ofList (rhssOf A (rulesOf ps)) :=
    rhss_addRules_ofSymbols _ _ _ _ _
  rw [rhss, Distinct.mem_ofList, mem_rhssOf]

theorem nodup_rhss_ofProductions (A : Symbol) : ((ofProductions start ps).rhss A).Nodup := by
  apply nodup_rhss_addRules
  exact List.nodup_nil

/-- A name has the kind that the left-hand sides of the text give it. -/
theorem eq_symbolOf_of_mem_rulesOf {r : Rule} (hr : r ∈ rulesOf ps) {x : Symbol} (hx : x ∈ r.rhs) :
    x = symbolOf (ps.map Production.lhs) x.name := by
  obtain ⟨p, _, h⟩ := List.mem_flatMap.1 hr
  obtain ⟨names, _, rfl⟩ := List.mem_map.1 h
  obtain ⟨name, _, rfl⟩ := List.mem_map.1 hx
  rw [name_symbolOf]

theorem start_ofProductions : (ofProductions start ps).start = .nonterminal start :=
  start_addRules _

section Declared

variable (hstart : start ∈ ps.map Production.lhs) (halternatives : ∀ p ∈ ps, p.alternatives ≠ [])
include hstart halternatives

theorem mem_nonterminals_ofProductions {x : Symbol} :
    x ∈ (ofProductions start ps).nonterminals ↔ (∃ p ∈ ps, x = .nonterminal p.lhs) ∨
      (∃ r ∈ rulesOf ps, x ∈ r.rhs) ∧ x.isNonterminal = true := by
  have lhss : x ∈ (rulesOf ps).map Rule.lhs ↔ ∃ p ∈ ps, x = .nonterminal p.lhs := by
    rw [map_lhs_rulesOf, List.mem_flatMap]
    refine exists_congr fun p => and_congr_right fun hp => ?_
    simp [halternatives p hp]
  have start : x = .nonterminal start → ∃ p ∈ ps, x = .nonterminal p.lhs := by
    intro h
    obtain ⟨p, hp, rfl⟩ := List.mem_map.1 hstart
    exact ⟨p, hp, h⟩
  unfold ofProductions
  simp only [mem_nonterminals_addRules, lhss, ofSymbols, SymbolSet.mem_insert, SymbolSet.mem_select,
    SymbolSet.mem_ofList, List.mem_flatMap]
  constructor
  · intro h
    rcases h with (h | h) | h
    · exact Or.inl (start h)
    · exact Or.inr h
    · exact Or.inl h
  · intro h
    rcases h with h | h
    · exact Or.inr h
    · exact Or.inl (Or.inr h)

omit hstart halternatives in
theorem mem_terminals_ofProductions {x : Symbol} :
    x ∈ (ofProductions start ps).terminals ↔
      (∃ r ∈ rulesOf ps, x ∈ r.rhs) ∧ x.isTerminal = true := by
  unfold ofProductions
  simp only [terminals_addRules, ofSymbols, SymbolSet.mem_select, SymbolSet.mem_ofList,
    List.mem_flatMap]

/-- A text declares its left-hand sides and the symbols of its right-hand sides. -/
theorem declares_ofProductions_iff {x : Symbol} :
    (ofProductions start ps).Declares x ↔
      (∃ p ∈ ps, x = .nonterminal p.lhs) ∨ ∃ r ∈ rulesOf ps, x ∈ r.rhs := by
  unfold Declares
  rw [mem_nonterminals_ofProductions hstart halternatives, mem_terminals_ofProductions, or_assoc,
    ← and_or_left]
  have kind : x.isNonterminal = true ∨ x.isTerminal = true := by cases x <;> simp
  rw [and_iff_left kind]

theorem isNonterminal_iff_of_declares {x : Symbol} (hx : (ofProductions start ps).Declares x) :
    x.isNonterminal = true ↔ x.name ∈ ps.map Production.lhs ∨ IsCapitalized x.name := by
  rcases (declares_ofProductions_iff hstart halternatives).1 hx with h | h
  · obtain ⟨p, hp, rfl⟩ := h
    exact iff_of_true rfl (Or.inl (List.mem_map_of_mem hp))
  · obtain ⟨r, hr, hx⟩ := h
    rw [← isNonterminal_symbolOf_iff, ← eq_symbolOf_of_mem_rulesOf hr hx]

theorem wellFormed_ofProductions : (ofProductions start ps).WellFormed where
  start_mem := by
    rw [start_ofProductions]
    obtain ⟨p, hp, rfl⟩ := List.mem_map.1 hstart
    exact (mem_nonterminals_ofProductions hstart halternatives).2 (Or.inl ⟨p, hp, rfl⟩)
  isNonterminal_of_mem x hx := by
    rcases (mem_nonterminals_ofProductions hstart halternatives).1 hx with h | h
    · obtain ⟨p, _, rfl⟩ := h
      rfl
    · exact h.2
  isTerminal_of_mem x hx := (mem_terminals_ofProductions.1 hx).2
  name_ne x hx a ha heq := by
    have hxnt : x.isNonterminal = true := by
      rcases (mem_nonterminals_ofProductions hstart halternatives).1 hx with h | h
      · obtain ⟨p, _, rfl⟩ := h
        rfl
      · exact h.2
    -- The kind of a declared symbol depends on its name only.
    have hant : a.isNonterminal = true := by
      rw [isNonterminal_iff_of_declares hstart halternatives (Or.inr ha), ← heq,
        ← isNonterminal_iff_of_declares hstart halternatives (Or.inl hx)]
      exact hxnt
    exact Symbol.not_isTerminal hant (mem_terminals_ofProductions.1 ha).2
  lhs_mem A hA := by
    rw [keys_ofProductions halternatives, Distinct.mem_ofList] at hA
    obtain ⟨p, hp, rfl⟩ := List.mem_map.1 hA
    exact (mem_nonterminals_ofProductions hstart halternatives).2 (Or.inl ⟨p, hp, rfl⟩)
  declares A r hr x hx :=
    (declares_ofProductions_iff hstart halternatives).2
      (Or.inr ⟨⟨A, r⟩, mem_rhss_ofProductions.1 hr, hx⟩)

end Declared

/-! ### From a text to a grammar -/

theorem ofText_eq_ok_iff {text : String} {g : Grammar} :
    ofText text = .ok g ↔ ∃ p ps, Production.ofText text = .ok (p :: ps) ∧
      g = ofProductions p.lhs (p :: ps) := by
  unfold ofText
  split
  · rename_i e h
    simp [h]
  · rename_i h
    simp [h]
  · rename_i p ps h
    simp [h, eq_comm]

/-- How the lines of a text end does not matter. -/
theorem ofText_unifyLineEnds (text : String) :
    ofText (String.ofList (Text.unifyLineEnds text.toList)) = ofText text := by
  have lines : Production.numberedLines (String.ofList (Text.unifyLineEnds text.toList)) =
      Production.numberedLines text := by
    unfold Production.numberedLines
    rw [String.toList_ofList, Text.lines_unifyLineEnds]
  simp only [ofText, Production.ofText, lines]

theorem wellFormed_ofText {text : String} {g : Grammar} (h : ofText text = .ok g) :
    g.WellFormed := by
  obtain ⟨p, ps, hps, rfl⟩ := ofText_eq_ok_iff.1 h
  obtain ⟨_, reads⟩ := Production.ofText_eq_ok_iff.1 hps
  exact wellFormed_ofProductions List.mem_cons_self
    (forall_of_forall₂ reads fun _ _ hp => hp.alternatives_ne_nil)

theorem nodup_rhss_ofText {text : String} {g : Grammar} (h : ofText text = .ok g) (A : Symbol) :
    (g.rhss A).Nodup := by
  obtain ⟨p, ps, _, rfl⟩ := ofText_eq_ok_iff.1 h
  exact nodup_rhss_ofProductions A

/-- A text is read as a grammar if and only if it has a production line and all its production lines
    are productions.  The start symbol is the left-hand side of the first one.  The left-hand sides
    come in the order in which they first appear, each with its alternatives from all its lines in
    order and without repeats.  The grammar is valid, and declares its left-hand sides and what is
    on the right-hand sides; a declared symbol is a non-terminal if and only if its name is a
    left-hand side or begins with an upper-case character. -/
theorem ofText_exact (text : String) :
    ((∃ g, ofText text = .ok g) ↔ Production.productionLines text ≠ [] ∧
        ∀ line ∈ Production.productionLines text, Production.IsProduction line) ∧
      ∀ g, ofText text = .ok g → ∃ (p : Production) (ps : List Production),
        List.Forall₂ Production.Reads (Production.productionLines text) (p :: ps) ∧
          g.Valid ∧ g.start = .nonterminal p.lhs ∧
          g.table.keys = Distinct.ofList ((p :: ps).map fun q => .nonterminal q.lhs) ∧
          (∀ a, g.rhss (.nonterminal a) = Distinct.ofList
            ((Production.alternativesOf a (p :: ps)).map fun names =>
              names.map (symbolOf ((p :: ps).map Production.lhs)))) ∧
          (∀ x, g.Declares x ↔ x ∈ g.table.keys ∨ ∃ A, ∃ r ∈ g.rhss A, x ∈ r) ∧
          ∀ x, g.Declares x → (x.isNonterminal = true ↔
            x.name ∈ (p :: ps).map Production.lhs ∨ IsCapitalized x.name) := by
  constructor
  · simp only [ofText_eq_ok_iff, Production.ofText_eq_ok_iff]
    constructor
    · intro h
      obtain ⟨g, p, ps, ⟨productions, reads⟩, _⟩ := h
      refine ⟨?_, productions⟩
      intro nil
      rw [nil] at reads
      cases reads
    · intro h
      obtain ⟨hne, productions⟩ := h
      obtain ⟨ps, reads⟩ := exists_forall₂ fun line hline => (productions line hline).exists_reads
      cases ps with
      | nil => exact absurd (List.forall₂_nil_right_iff.1 reads) hne
      | cons p ps => exact ⟨ofProductions p.lhs (p :: ps), p, ps, ⟨productions, reads⟩, rfl⟩
  · intro g hg
    obtain ⟨p, ps, hps, rfl⟩ := ofText_eq_ok_iff.1 hg
    obtain ⟨_, reads⟩ := Production.ofText_eq_ok_iff.1 hps
    have hstart : p.lhs ∈ (p :: ps).map Production.lhs := List.mem_cons_self
    have halternatives : ∀ q ∈ p :: ps, q.alternatives ≠ [] :=
      forall_of_forall₂ reads fun _ _ h => h.alternatives_ne_nil
    refine ⟨p, ps, reads, valid_iff_wellFormed.2 (wellFormed_ofProductions hstart halternatives),
      start_ofProductions, keys_ofProductions halternatives, fun a => rhss_ofProductions,
      fun x => ?_, fun x hx => isNonterminal_iff_of_declares hstart halternatives hx⟩
    rw [declares_ofProductions_iff hstart halternatives, keys_ofProductions halternatives,
      Distinct.mem_ofList, List.mem_map]
    simp only [mem_rhss_ofProductions, eq_comm (a := x)]
    refine or_congr_right ⟨?_, ?_⟩
    · intro h
      obtain ⟨r, hr, hx⟩ := h
      exact ⟨r.lhs, r.rhs, hr, hx⟩
    · intro h
      obtain ⟨A, r, hr, hx⟩ := h
      exact ⟨⟨A, r⟩, hr, hx⟩

/-- A word may hold a part of an arrow or look like a comment, and a name is a non-terminal as soon
    as it is a left-hand side somewhere. -/
example : ((ofText "S--> a - | b #\nb → eps").toOption.map fun g =>
    (g.start.name, g.rhss (.nonterminal "S-"))) =
      some ("S-", [[.terminal "a", .terminal "-"], [.nonterminal "b", .terminal "#"]]) := by
  decide

end Grammar

end ContextFree
