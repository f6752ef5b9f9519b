/-
  ContextFree/Proofs/InputFormats.lean
  ====================================
  **A grammar as text and its plain data as JSON give the same output.**

  The members of an object may stand in any order, so a value that is the same as the
  plain data of a grammar up to this order is read as the same grammar
  (`Valid.exists_ofDescription_of_same`): only the order of the left-hand sides may
  differ, and nothing that is written depends on it (`execute_text_json`).
-/
import ContextFree.Proofs.CommandOutput

namespace ContextFree

/-! ### Values up to the order of members -/

namespace Json

/-- Two values are the same up to the order of the members in their objects. -/
inductive Same : Json → Json → Prop where
  | refl (v : Json) : Same v v
  | array {vs ws : List Json} (items : List.Forall₂ Same vs ws) : Same (.array vs) (.array ws)
  | object {ms os ns : List (String × Json)} (perm : ms.Perm os)
      (names : os.map Prod.fst = ns.map Prod.fst)
      (values : List.Forall₂ Same (os.map Prod.snd) (ns.map Prod.snd)) :
      Same (.object ms) (.object ns)

variable {v w : Json} {vs ws : List Json} {os ns : List (String × Json)}

/-- A value that is the same as itself only; so are those made of strings and arrays. -/
def Rigid (w : Json) : Prop := ∀ v, v.Same w → v = w

theorem eq_of_forall₂_same (each : ∀ w ∈ ws, w.Rigid) (items : List.Forall₂ Same vs ws) :
    vs = ws := by
  induction items with
  | nil => rfl
  | cons first _ ih =>
    obtain ⟨hw, hws⟩ := List.forall_mem_cons.1 each
    rw [hw _ first, ih hws]

theorem rigid_string (s : String) : (string s).Rigid := by
  intro v same
  cases same
  rfl

theorem rigid_array (each : ∀ w ∈ ws, w.Rigid) : (array ws).Rigid := by
  intro v same
  cases same with
  | refl => rfl
  | array items => rw [eq_of_forall₂_same each items]

theorem rigid_ofNames (names : List String) : (ofNames names).Rigid := by
  apply rigid_array
  intro w hw
  obtain ⟨name, _, rfl⟩ := List.mem_map.1 hw
  exact rigid_string name

namespace Same

theorem exists_object (same : v.Same (.object ns)) :
    ∃ ms os, v = .object ms ∧ ms.Perm os ∧ os.map Prod.fst = ns.map Prod.fst ∧
      List.Forall₂ Same (os.map Prod.snd) (ns.map Prod.snd) := by
  cases same with
  | refl => exact ⟨ns, ns, rfl, .refl ns, rfl, List.forall₂_same.2 fun w _ => .refl w⟩
  | object perm names values => exact ⟨_, _, rfl, perm, names, values⟩

theorem exists_perm (same : v.Same (.object ns)) (each : ∀ m ∈ ns, m.2.Rigid) :
    ∃ ms, v = .object ms ∧ ms.Perm ns := by
  obtain ⟨ms, os, rfl, perm, names, values⟩ := same.exists_object
  have rigid : ∀ w ∈ ns.map Prod.snd, w.Rigid := by
    intro w hw
    obtain ⟨m, hm, rfl⟩ := List.mem_map.1 hw
    exact each m hm
  have equal : os = ns := by
    rw [← List.zip_unzip os, ← List.zip_unzip ns]
    simp only [List.unzip_eq_map, names, eq_of_forall₂_same rigid values]
  exact ⟨ms, rfl, equal ▸ perm⟩

theorem exists_mem (names : os.map Prod.fst = ns.map Prod.fst)
    (values : List.Forall₂ Same (os.map Prod.snd) (ns.map Prod.snd)) {name : String}
    (h : (name, w) ∈ ns) : ∃ u, (name, u) ∈ os ∧ u.Same w := by
  induction ns generalizing os with
  | nil => exact absurd h List.not_mem_nil
  | cons n ns ih =>
    cases os with
    | nil => cases names
    | cons o os =>
      obtain ⟨first, others⟩ := List.cons.inj names
      obtain ⟨value, rest⟩ := List.forall₂_cons.1 values
      rcases List.mem_cons.1 h with rfl | h
      · exact ⟨o.2, List.mem_cons.2 (Or.inl (Prod.ext first.symm rfl)), value⟩
      · obtain ⟨u, hu, same⟩ := ih others rest h
        exact ⟨u, List.mem_cons_of_mem o hu, same⟩

/-- Objects that are the same have members of the same names, with values that are the same. -/
theorem exists_member? (same : v.Same (.object ns)) (nodup : (ns.map Prod.fst).Nodup)
    {name : String} (h : (name, w) ∈ ns) : ∃ u, v.member? name = some u ∧ u.Same w := by
  obtain ⟨ms, os, rfl, perm, names, values⟩ := same.exists_object
  obtain ⟨u, hu, value⟩ := exists_mem names values h
  have nodup' : (os.map Prod.fst).Nodup := names ▸ nodup
  refine ⟨u, ?_, value⟩
  exact (Table.lookup_eq_of_perm perm nodup' name).trans ((Table.lookup_eq_some_iff nodup').2 hu)

end Same

end Json

/-! ### Plain data up to the order of members -/

namespace Grammar

variable {g : Grammar} {v : Json} {ps : List (String × List (List String))}

theorem rigid_of_mem_productionMembers {m : String × Json} (hm : m ∈ g.productionMembers) :
    m.2.Rigid := by
  obtain ⟨A, _, rfl⟩ := List.mem_map.1 (Table.mem_of_mem_entries_ofList hm)
  apply Json.rigid_array
  intro w hw
  obtain ⟨r, _, rfl⟩ := List.mem_map.1 hw
  exact Json.rigid_ofNames _

namespace WellFormed

variable (hg : g.WellFormed)
include hg

theorem wellFormed_of_perm (perm : ps.Perm g.outline.productions) :
    ({ g.outline with productions := ps } : Outline).WellFormed where
  disjoint := hg.wellFormed_outline.disjoint
  start_mem := hg.wellFormed_outline.start_mem
  lhs_mem p hp := hg.wellFormed_outline.lhs_mem p (perm.subset hp)
  declares p hp := hg.wellFormed_outline.declares p (perm.subset hp)

/-- The left-hand sides of an outline may be read in any order. -/
theorem same_grammar_of_perm (nodup : ∀ A, (g.rhss A).Nodup)
    (perm : ps.Perm g.outline.productions) :
    ({ g.outline with productions := ps } : Outline).grammar.Same g := by
  obtain ⟨hstart, hnts, hts, _⟩ := hg.same_grammar_outline nodup
  refine ⟨hstart, hnts, hts, Table.get?_ofList_of_perm ?_⟩
  exact (perm.map g.outline.entry).trans (hg.perm_entries_outline nodup)

theorem exists_describes_of_same (same : v.Same g.description) :
    ∃ ps, ps.Perm g.outline.productions ∧ v.Describes { g.outline with productions := ps } := by
  obtain ⟨start, hstart, isStart⟩ := same.exists_member? (by simp) (.head _)
  obtain ⟨ns, hns, isNs⟩ := same.exists_member? (by simp) (.tail _ (.head _))
  obtain ⟨ts, hts, isTs⟩ := same.exists_member? (by simp) (.tail _ (.tail _ (.head _)))
  obtain ⟨productions, hproductions, isProductions⟩ :=
    same.exists_member? (by simp) (.tail _ (.tail _ (.tail _ (.head _))))
  obtain ⟨members, rfl, perm⟩ :=
    isProductions.exists_perm fun m hm => rigid_of_mem_productionMembers hm
  -- The members stand for the productions of the outline, in the order that they have here.
  have each : List.Forall₂ (fun m p => m.1 = p.1 ∧ m.2.ListsRhss p.2)
      g.productionMembers g.outline.productions := by
    obtain ⟨ms, hms, each⟩ := hg.describes_outline.productions.resolve_left fun h => nomatch h.1
    cases hms
    exact each
  obtain ⟨ps, each', perm'⟩ := List.perm_comp_forall₂ perm each
  refine ⟨ps, perm', ?_, ⟨ns, hns, ?_⟩, ⟨ts, hts, ?_⟩, Or.inr ⟨members, hproductions, each'⟩⟩
  · rw [hstart, Json.rigid_string _ _ isStart]
    rfl
  · rw [Json.rigid_ofNames _ _ isNs]
    exact .array _
  · rw [Json.rigid_ofNames _ _ isTs]
    exact .array _

end WellFormed

/-- A value that is the same as the plain data of a valid grammar is read as the same grammar. -/
theorem Valid.exists_ofDescription_of_same (hg : g.Valid) (nodup : ∀ A, (g.rhss A).Nodup)
    (same : v.Same g.description) : ∃ h, ofDescription v = .ok h ∧ h.Same g := by
  have wf := hg.wellFormed
  obtain ⟨ps, perm, describes⟩ := wf.exists_describes_of_same same
  refine ⟨_, ofDescription_eq_ok_iff.2 ⟨_, describes, wf.wellFormed_of_perm perm, rfl⟩, ?_⟩
  exact wf.same_grammar_of_perm nodup perm

end Grammar

/-! ### Two runs -/

namespace Command

variable {release release' : Release} {stamp stamp' file' text : String} {s : Settings}
  {g : Grammar} {v : Json} {args args' : List String}
  {read read' : Path → Except AccessError (List UInt8)}

/-- Nothing that is written depends on the order of the left-hand sides, on the file or on its
    format. -/
theorem Loaded.result_eq {l m : Loaded} (hl : l.grammar.Valid) (same : l.grammar.Same m.grammar)
    (spelling : l.spelling = m.spelling) :
    l.result s l.grammar.stages =
      m.result { s with file := file', inputFormat := .json } m.grammar.stages := by
  obtain ⟨_, _, _, last, _⟩ := same.stages_eq hl
  have render := same.render_eq hl.wellFormed.isNonterminal_of_mem_keys
  have shown : ∀ es : List Exhibit, es.flatMap Exhibit.pieces =
      (es.map Exhibit.lines).flatMap fun ls => ls.flatMap fun line => [line, "\n"] := by
    intro es
    rw [List.flatMap_map]
    rfl
  simp only [Loaded.result, shown, List.map_cons, Loaded.exhibit, Exhibit.lines, last, render,
    spelling, same.lines_exhibits_eq hl]

/-- A run on a file with a text and a run on a file with the plain data of its grammar, with the same
    choices of the output, the steps and the level of the log: both have status 0 and write the
    same. -/
theorem execute_text_json {level : Level} (hg : Grammar.ofText text = .ok g)
    (accepted : Request.ofArguments release args = .run s) (format : s.inputFormat = .text)
    (hlevel : s.logLevel = some level) (hpath : '\x00' ∉ s.file.toList)
    (holds : read (Path.ofString s.file) = .ok (Text.encodeUtf8 text.toList))
    (accepted' : Request.ofArguments release' args' =
      .run { s with file := file', inputFormat := .json })
    (hpath' : '\x00' ∉ file'.toList) {data : String}
    (holds' : fileText (Path.ofString file').render (read' (Path.ofString file')) = .ok data)
    (parsed : Json.parse data = .ok v) (same : v.Same g.description) :
    ∃ o o', execute release stamp read args = .ok o ∧ execute release' stamp' read' args' = .ok o' ∧
      o.status = 0 ∧ o'.status = 0 ∧ o.stdout = o'.stdout := by
  have valid : g.Valid := Grammar.valid_iff_wellFormed.2 (Grammar.wellFormed_ofText hg)
  obtain ⟨h, hh, sameGrammar⟩ :=
    valid.exists_ofDescription_of_same (Grammar.nodup_rhss_ofText hg) same
  have loaded : s.load read =
      .ok ⟨.plain, .text (String.ofList (Text.unifyLineEnds text.toList)), g⟩ := by
    unfold Settings.load
    rw [format, holds]
    exact grammarOfFile_encodeUtf8 hg _
  have loaded' : ({ s with file := file', inputFormat := .json } : Settings).load read' =
      .ok ⟨.plain, .data v, h⟩ := grammarOfFile_json holds' parsed hh
  have ran : execute release stamp read args = _ := execute_of_load accepted hlevel hpath loaded
  have ran' : execute release' stamp' read' args' = _ :=
    execute_of_load accepted' hlevel hpath' loaded'
  rw [Loaded.write_plain rfl] at ran ran'
  refine ⟨_, _, ran, ran', rfl, rfl, congrArg (Text.join "") ?_⟩
  exact Loaded.result_eq (l := ⟨_, _, g⟩) (m := ⟨_, _, h⟩) valid sameGrammar.symm rfl

/-- The plain data of a grammar, the last member first. -/
def reversedData (g : Grammar) : Json :=
  .object
    [ ("productions", .object g.productionMembers.reverse),
      ("terminals", .ofNames (SymbolSet.sortedNames g.terminals)),
      ("nonterminals", .ofNames (SymbolSet.sortedNames g.nonterminals)),
      ("start", .string g.start.name) ]

theorem textual_reversedData (g : Grammar) : (reversedData g).Textual := by
  have productions : (Json.object g.productionMembers.reverse).Textual := by
    cases g.textual_productionMembers with
    | object nodup each =>
      refine .object ?_ fun m hm => each m (List.mem_reverse.1 hm)
      rw [List.map_reverse]
      exact List.nodup_reverse.2 nodup
  refine .object (by simp) ?_
  simp only [List.forall_mem_cons]
  exact ⟨productions, Json.textual_ofNames _, Json.textual_ofNames _, .string _,
    List.forall_mem_nil _⟩

theorem same_reversedData (g : Grammar) : (reversedData g).Same g.description := by
  have productions : (Json.object g.productionMembers.reverse).Same (.object g.productionMembers) :=
    .object (List.reverse_perm _) rfl (List.forall₂_same.2 fun w _ => .refl w)
  refine .object (List.reverse_perm _).symm rfl ?_
  exact .cons (.refl _) (.cons (.refl _) (.cons (.refl _) (.cons productions .nil)))

/-- Two lines that end in two ways; the left-hand sides do not come in the order of their names. -/
theorem ofText_twoLines : Grammar.ofText "T -> a S\r\nS -> eps\n" =
    .ok (Grammar.ofProductions "T" [⟨"T", [["a", "S"]]⟩, ⟨"S", [[]]⟩]) :=
  Grammar.ofText_eq_ok_iff.2 ⟨⟨"T", [["a", "S"]]⟩, [⟨"S", [[]]⟩], by decide, rfl⟩

theorem execute_text_json_twoLines :
    ∃ (g : Grammar) (s : Settings),
      Grammar.ofText "T -> a S\r\nS -> eps\n" = .ok g ∧ (reversedData g).Same g.description ∧
      Request.ofArguments .later ["g"] = .run s ∧ s.inputFormat = .text ∧ s.logLevel = some .warning ∧
      Request.ofArguments .later ["--input-format", "json", "h"] =
        .run { s with file := "h", inputFormat := .json } ∧
      ∃ o o', execute .later "" (holdText "T -> a S\r\nS -> eps\n") ["g"] = .ok o ∧
        execute .later "" (holdText ((reversedData g).render ++ "\n"))
          ["--input-format", "json", "h"] = .ok o' ∧
        o.status = 0 ∧ o'.status = 0 ∧ o.stdout = o'.stdout := by
  have accepted : Request.ofArguments .later ["g"] =
      .run ⟨"g", .text, .text, true, some .warning⟩ := by decide
  have accepted' : Request.ofArguments .later ["--input-format", "json", "h"] =
      .run ⟨"h", .json, .text, true, some .warning⟩ := by decide
  have textual := textual_reversedData
    (Grammar.ofProductions "T" [⟨"T", [["a", "S"]]⟩, ⟨"S", [[]]⟩])
  refine ⟨_, _, ofText_twoLines, same_reversedData _, accepted, rfl, rfl, accepted', ?_⟩
  exact execute_text_json ofText_twoLines accepted rfl rfl (by decide) rfl accepted' (by decide)
    (fileText_render textual _) (Json.parse_render textual) (same_reversedData _)

end Command

end ContextFree
