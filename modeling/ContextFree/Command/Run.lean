/-
  ContextFree/Command/Run.lean
  ============================
  **The command**: reads a grammar from a file and writes its Chomsky normal
  form.

  `execute` is a function of the arguments and of what reading a file gives, so it
  says all that the command does; only reading and writing are left to the
  program around it.  A run has an outcome whatever the file holds, except that it
  is broken off where an `Abort` says so.
-/
import ContextFree.Command.Arguments
import ContextFree.Command.Path
import ContextFree.Json.Reader
import ContextFree.Json.Writer
import ContextFree.Source
import ContextFree.Text.Utf8

namespace ContextFree.Command

/-- What a run leaves: its exit status and what it has written. -/
structure Outcome where
  status : Nat
  stdout : String
  stderr : String
  deriving DecidableEq

/-- Why a run is broken off and has no outcome. -/
inductive Abort where
  | noLogLevel
  /-- A null character in the path: the system cannot be asked for the file. -/
  | nullCharacter
  /-- The file holds a whole number with too many digits. -/
  | tooManyDigits (count : Nat)
  /-- The message of an error would show such a number. -/
  | numberShown
  /-- The standard output does not take a text with a surrogate. -/
  | unencodable (e : Text.EncodeError)
  deriving DecidableEq

def Abort.message : Abort → String
  | noLogLevel => "attribute name must be string, not 'list'"
  | nullCharacter => "embedded null byte"
  | tooManyDigits n => (Json.Error.tooManyDigits n).message
  | numberShown => Refusal.tooManyDigits.message .plain
  | unencodable e => e.message

/-! ### Loading -/

/-- Why a file gives no grammar. -/
inductive LoadError where
  | access (path : String) (e : AccessError)
  | utf8 (path : String) (e : Text.Utf8Error)
  | json (path : String) (e : Json.Error)
  | failure (spelling : Text.Spelling) (f : Failure)

/-- The bytes of a fault and their places. -/
def spanText (e : Text.Utf8Error) : String :=
  match e.span with
  | [b] =>
      "byte 0x" ++ String.ofList (Text.hexDigits 2 b.toNat) ++ " in position " ++ Nat.repr e.place
  | bs => "bytes in position " ++ Nat.repr e.place ++ "-" ++ Nat.repr (e.place + bs.length - 1)

def LoadError.message : LoadError → String
  | access path e => "[Errno " ++ Nat.repr e.code ++ "] " ++ e.reason ++ ": " ++ Text.quote path
  | utf8 path e =>
      path ++ ": 'utf-8' codec can't decode " ++ spanText e ++ ": " ++ e.fault.message
  | json path e => path ++ ": " ++ e.message
  | failure spelling f => f.message spelling

def LoadError.abort? : LoadError → Option Abort
  | json _ (.tooManyDigits n) => some (.tooManyDigits n)
  | failure _ (.description .tooManyDigits) => some .numberShown
  | _ => none

/-- The text of a file, with unified line ends. -/
def fileText (path : String) (content : Except AccessError (List UInt8)) :
    Except LoadError String := do
  let bytes ← content.mapError (.access path)
  let chars ← (Text.decodeUtf8 bytes).mapError (.utf8 path)
  pure (String.ofList (Text.unifyLineEnds chars))

/-- Whether the strings of a value have to be carried: a name of its grammar has a surrogate, or
    there is no grammar, and the message of the error may show any of the strings. -/
def mustCarry (v : Json) : Bool :=
  match Grammar.ofDescription v with
  | .ok g => g.declaredNames.toList.any fun name => !decide (Text.Spelling.carried.IsEncodable name)
  | .error _ => true

/-- The value of a text.  Its strings are plain unless they have to be carried; what becomes of a
    surrogate that is in none of the names does not matter then. -/
def readJson (text : String) : Except Json.Error (Text.Spelling × Json) :=
  match Json.parse text with
  | .ok v => .ok (.plain, v)
  | .error _ => do
    let v ← Json.parseWith .carried text
    if mustCarry v then pure (.carried, v)
    else (Json.parseWith .replaced text).map fun u => (.plain, u)

def readSource (path : String) (format : Format) (text : String) :
    Except LoadError (Text.Spelling × Source) :=
  match format with
  | .text => .ok (.plain, .text text)
  | .json => ((readJson text).mapError (.json path)).map fun p => (p.1, .data p.2)

/-- What loading a file gives: a source and its grammar, and how their texts are meant. -/
structure Loaded where
  spelling : Text.Spelling
  source : Source
  grammar : Grammar

def grammarOfFile (path : String) (format : Format) (content : Except AccessError (List UInt8)) :
    Except LoadError Loaded := do
  let text ← fileText path content
  let (spelling, source) ← readSource path format text
  let g ← source.grammar.mapError (.failure spelling)
  pure ⟨spelling, source, g⟩

/-! ### Writing -/

/-- The lines of the log from a level on. -/
def logText (stamp : String) (level : Level) (spelling : Text.Spelling) (events : List Event) :
    String :=
  Text.join "" ((events.filter fun e => decide (level.rank ≤ e.level.rank)).map fun e =>
    stamp ++ " | " ++ e.level.label ++ " | " ++ e.channel ++ " | " ++ e.message spelling ++ "\n")

def errorLine (message : String) : String := "error: " ++ message ++ "\n"

/-- The grammar of a file as it is shown before the stages. -/
def Loaded.exhibit (l : Loaded) : Exhibit := ⟨[], "Original grammar", l.grammar⟩

/-- The pieces in which the result of a run is written. -/
def Loaded.result (l : Loaded) (s : Settings) (stages : Stages) : List String :=
  match s.outputFormat with
  | .json => stages.chomsky.description.renderPieces ++ ["\n"]
  | .text =>
    if s.showSteps then (l.exhibit :: l.grammar.exhibits l.spelling).flatMap Exhibit.pieces
    else [stages.chomsky.render, "\n"]

/-- Writes pieces to the standard output, each by itself. -/
def Loaded.write (l : Loaded) (pieces : List String) : Except Abort String :=
  ((pieces.mapM l.spelling.encode).map (Text.join "")).mapError .unencodable

/-- Runs the pipeline on a loaded grammar and logs from a level on. -/
def Loaded.finish (l : Loaded) (stamp : String) (s : Settings) (level : Level) :
    Except Abort Outcome :=
  let logged (events : List Event) := logText stamp level l.spelling events
  let reported := l.source.events l.grammar
  match l.grammar.checkedStages with
  | .ok stages => (l.write (l.result s stages)).map fun out =>
      ⟨0, out, l.spelling.escape (logged (reported ++ l.grammar.events))⟩
  | .error d => (l.write (if s.showSteps then l.exhibit.pieces else [])).map fun out =>
      ⟨1, out, l.spelling.escape (logged reported ++ errorLine (d.message l.spelling))⟩

/-- Loads the grammar of a file and runs the pipeline on it. -/
def runFile (stamp : String) (s : Settings) (level : Level) (path : String)
    (content : Except AccessError (List UInt8)) : Except Abort Outcome :=
  match grammarOfFile path s.inputFormat content with
  | .ok l => l.finish stamp s level
  | .error e =>
    match e.abort? with
    | some a => .error a
    | none => .ok ⟨1, "", errorLine e.message⟩

def Settings.run (s : Settings) (stamp : String) (read : Path → Except AccessError (List UInt8)) :
    Except Abort Outcome :=
  let path := Path.ofString s.file
  match s.logLevel with
  | none => .error .noLogLevel
  | some level =>
    if '\x00' ∈ s.file.toList then .error .nullCharacter
    else runFile stamp s level path.render (read path)

/-! ### The whole command -/

def usage : String :=
  "usage: cfg-normalize [-h] [--input-format \x7btext,json\x7d]\n" ++
  "                     [--output-format \x7btext,json\x7d] [--no-steps]\n" ++
  "                     [--log-level \x7bDEBUG,INFO,WARNING,ERROR\x7d]\n" ++
  "                     file\n"

def help : String :=
  usage ++
  "\n" ++
  "Convert a context-free grammar to Chomsky Normal Form (epsilon, unit,\n" ++
  "unreachable, non-generating, CNF)\n" ++
  "\n" ++
  "positional arguments:\n" ++
  "  file                  Path of the grammar file\n" ++
  "\n" ++
  "options:\n" ++
  "  -h, --help            show this help message and exit\n" ++
  "  --input-format \x7btext,json\x7d\n" ++
  "                        Grammar file format (default: text)\n" ++
  "  --output-format \x7btext,json\x7d\n" ++
  "                        Format of the resulting grammar (default: text)\n" ++
  "  --no-steps            Do not print intermediate steps\n" ++
  "  --log-level \x7bDEBUG,INFO,WARNING,ERROR\x7d\n" ++
  "                        Logging level (default: WARNING)\n"

/-- What the command does with its arguments, given the release of the rules for options, the time
    stamp of its log and what reading a file gives. -/
def execute (release : Release) (stamp : String) (read : Path → Except AccessError (List UInt8))
    (args : List String) : Except Abort Outcome :=
  match Request.ofArguments release args with
  | .help => .ok ⟨0, help, ""⟩
  | .invalid e => .ok ⟨2, "", usage ++ "cfg-normalize: error: " ++ e.message ++ "\n"⟩
  | .run s => s.run stamp read

end ContextFree.Command
