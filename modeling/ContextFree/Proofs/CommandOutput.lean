/-
  ContextFree/Proofs/CommandOutput.lean
  =====================================
  **The command reads its own output.**

  The plain data of a grammar are made of strings, so what is written is read as the
  same value; its lines end with line feeds only, so it comes out of a file as it went
  in.  Read again, it gives the normal form of the run (`execute_json_readBack`).
-/
import ContextFree.Proofs.CommandRuns
import ContextFree.Proofs.Declarations
import ContextFree.Proofs.JsonRoundTrip

namespace ContextFree

/-! ### Plain data are made of strings -/

theorem Json.textual_ofNames (names : List String) : (ofNames names).Textual := by
  refine .array fun v hv => ?_
  obtain ⟨name, _, rfl⟩ := List.mem_map.1 hv
  exact .string name

namespace Grammar

variable {g : Grammar}

theorem textual_productionMembers (g : Grammar) : (Json.object g.productionMembers).Textual := by
  refine .object (Table.nodup_keys _) fun m hm => ?_
  obtain ⟨A, _, rfl⟩ := List.mem_map.1 (Table.mem_of_mem_entries_ofList hm)
  refine .array fun v hv => ?_
  obtain ⟨r, _, rfl⟩ := List.mem_map.1 hv
  exact Json.textual_ofNames _

theorem textual_description (g : Grammar) : g.description.Textual := by
  refine .object (by simp) ?_
  simp only [List.forall_mem_cons]
  exact ⟨.string _, Json.textual_ofNames _, Json.textual_ofNames _, textual_productionMembers g,
    List.forall_mem_nil _⟩

end Grammar

namespace Command

variable {release : Release} {stamp : String} {s : Settings} {args : List String} {o : Outcome}
  {read : Path → Except AccessError (List UInt8)}

/-! ### From a value to a file and back -/

theorem fileText_render {v : Json} (hv : v.Textual) (path : String) :
    fileText path (.ok (Text.encodeUtf8 (v.render ++ "\n").toList)) = .ok (v.render ++ "\n") := by
  have ends : '\r' ∉ (v.render ++ "\n").toList := by
    simp [Json.render, hv.not_mem_write]
  rw [fileText_encodeUtf8, Text.unifyLineEnds_eq_self ends, String.ofList_toList]

/-- A file that holds the plain data of a valid grammar gives the same grammar. -/
theorem grammarOfFile_description {g : Grammar} (hg : g.Valid) (nodup : ∀ A, (g.rhss A).Nodup)
    (path : String) :
    ∃ l, grammarOfFile path .json
      (.ok (Text.encodeUtf8 (g.description.render ++ "\n").toList)) = .ok l ∧
        l.spelling = .plain ∧ l.grammar.Same g := by
  have textual : g.description.Textual := g.textual_description
  obtain ⟨h, read, same⟩ := hg.exists_ofDescription_description nodup
  have loaded := grammarOfFile_json (fileText_render textual path) (Json.parse_render textual) read
  exact ⟨_, loaded, rfl, same⟩

/-- The pieces of a value together are the value as it is rendered. -/
theorem join_renderPieces (v : Json) :
    Text.join "" (v.renderPieces ++ ["\n"]) = v.render ++ "\n" := by
  apply String.toList_inj.1
  simp [Text.toList_join_empty, Json.renderPieces, Json.render, Function.comp_def,
    Json.flatten_pieces]

/-- A run that writes JSON and has status 0 has loaded a grammar and computed its normal form.  If no
    name of the grammar has a surrogate, the bytes that it has written, in a file that is read as
    JSON, give the normal form again. -/
theorem execute_json_readBack (accepted : Request.ofArguments release args = .run s)
    (format : s.outputFormat = .json) (ran : execute release stamp read args = .ok o)
    (status : o.status = 0) :
    ∃ l n, s.load read = .ok l ∧ l.grammar.chomskyForm = .ok n ∧
      (l.HasPlainNames → ∀ path, ∃ l',
        grammarOfFile path .json (.ok (Text.encodeUtf8 o.stdout.toList)) = .ok l' ∧
          l'.spelling = .plain ∧ l'.grammar.Same n) := by
  obtain ⟨l, loaded, written⟩ := exists_load_of_execute accepted ran status
  have hg : l.grammar.Valid := valid_of_grammarOfFile loaded
  refine ⟨l, l.grammar.stages.chomsky, loaded, hg.chomskyForm_eq, fun names path => ?_⟩
  have result : o.stdout = l.grammar.stages.chomsky.description.render ++ "\n" := by
    rw [l.write_plain (names.spelling_eq loaded)] at written
    rw [← Except.ok.inj written, Loaded.result, format]
    exact join_renderPieces _
  have valid : l.grammar.stages.chomsky.Valid :=
    Grammar.valid_iff_wellFormed.2 hg.wellFormed_stages_chomsky
  rw [result]
  refine grammarOfFile_description valid (fun A => ?_) path
  rw [Grammar.stages_chomsky]
  exact Grammar.nodup_rhss_toChomsky _ _ A

/-- A rule whose symbols have to be escaped in JSON, or take more than one byte. -/
theorem ofText_marks : Grammar.ofText "S -> \" \\ é\n" =
    .ok (Grammar.ofProductions "S" [⟨"S", [["\"", "\\", "é"]]⟩]) :=
  Grammar.ofText_eq_ok_iff.2 ⟨⟨"S", [["\"", "\\", "é"]]⟩, [], by decide, rfl⟩

theorem execute_json_readBack_marks :
    ∃ s o, Request.ofArguments .later ["--out=json", "g"] = .run s ∧ s.outputFormat = .json ∧
      execute .later "" (holdText "S -> \" \\ é\n") ["--out=json", "g"] = .ok o ∧ o.status = 0 ∧
      ∃ l n, s.load (holdText "S -> \" \\ é\n") = .ok l ∧ l.grammar.chomskyForm = .ok n ∧
        l.HasPlainNames ∧ ∀ path, ∃ l',
          grammarOfFile path .json (.ok (Text.encodeUtf8 o.stdout.toList)) = .ok l' ∧
            l'.spelling = .plain ∧ l'.grammar.Same n := by
  have accepted : Request.ofArguments .later ["--out=json", "g"] =
      .run ⟨"g", .text, .json, false, some .warning⟩ := by decide
  have loaded := load_holdText (s := ⟨"g", .text, .json, false, some .warning⟩) rfl ofText_marks
  have ran : execute .later "" (holdText "S -> \" \\ é\n") ["--out=json", "g"] = _ :=
    execute_of_load accepted rfl (by decide) loaded
  rw [Loaded.write_plain rfl] at ran
  obtain ⟨l, n, hl, hn, readBack⟩ := execute_json_readBack accepted rfl ran rfl
  have names : l.HasPlainNames := by
    cases loaded.symm.trans hl
    exact fun name _ => Text.Spelling.isEncodable_plain name
  exact ⟨_, _, accepted, rfl, ran, rfl, l, n, hl, hn, names, readBack names⟩

end Command

end ContextFree
