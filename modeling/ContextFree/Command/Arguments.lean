/-
  ContextFree/Command/Arguments.lean
  ==================================
  **The arguments of the command.**

  Options stand anywhere among the operands.  A long option may be cut short as
  long as one option only begins with what is left, and takes its value behind
  `=` or as the next argument; of an option that is given twice the last one
  counts.  Everything behind a separate `--` is an operand.  An argument that
  begins with `-` is an operand all the same if it is a single `-`, reads as a
  negative number, or holds a space and is no option.

  Two things depend on the `Release` of the rules: what may stand behind `-h` in
  one argument, and whether `--` is a value.

  `classify` tells what each argument is; `take` then takes them from left to
  right and stops at the first error or at a request for help.
-/
import ContextFree.Log
import ContextFree.Text.Digit

namespace ContextFree.Command

inductive Format where
  | text
  | json
  deriving DecidableEq

def Format.label : Format → String
  | text => "text"
  | json => "json"

def Format.ofLabel? (word : String) : Option Format := [text, json].find? fun f => f.label == word

/-- The releases of the rules for options.  The earlier one takes every letter behind `-h` for an
    option, also behind `=`, and lets the value `--` pass as no value at all.  The later one takes
    `=` for the start of a value, grants help whatever letter follows, and refuses the value `--`
    like any other word that is not among the choices. -/
inductive Release where
  | earlier
  | later
  deriving DecidableEq

/-- What a run is asked to do; the level of the log may be left without a value. -/
structure Settings where
  file : String
  inputFormat : Format
  outputFormat : Format
  showSteps : Bool
  logLevel : Option Level
  deriving DecidableEq

inductive Flag where
  | help
  | inputFormat
  | outputFormat
  | noSteps
  | logLevel
  deriving DecidableEq

namespace Flag

/-- The options in the order in which they are listed. -/
def all : List Flag := [help, inputFormat, outputFormat, noSteps, logLevel]

def long : Flag → String
  | help => "--help"
  | inputFormat => "--input-format"
  | outputFormat => "--output-format"
  | noSteps => "--no-steps"
  | logLevel => "--log-level"

/-- The name of an option in messages. -/
def label : Flag → String
  | help => "-h/--help"
  | f => f.long

/-- The words that an option takes as its value; nothing if it takes none. -/
def choices : Flag → List String
  | inputFormat => [Format.text.label, Format.json.label]
  | outputFormat => [Format.text.label, Format.json.label]
  | logLevel => Level.all.map Level.label
  | _ => []

def takesValue (f : Flag) : Bool := !f.choices.isEmpty

end Flag

inductive UsageError where
  /-- More than one option begins like this argument. -/
  | ambiguous (argument : String) (matching : List Flag)
  | valueMissing (flag : Flag)
  /-- An option that takes no value has one. -/
  | valueIgnored (flag : Flag) (value : String)
  | invalidChoice (flag : Flag) (value : String)
  | fileMissing
  | unrecognized (arguments : List String)
  deriving DecidableEq

def UsageError.message : UsageError → String
  | ambiguous a matching =>
      "ambiguous option: " ++ a ++ " could match " ++ Text.join ", " (matching.map Flag.long)
  | valueMissing f => "argument " ++ f.label ++ ": expected one argument"
  | valueIgnored f v => "argument " ++ f.label ++ ": ignored explicit argument " ++ Text.quote v
  | invalidChoice f v =>
      "argument " ++ f.label ++ ": invalid choice: " ++ Text.quote v ++ " (choose from " ++
        Text.join ", " (f.choices.map Text.quote) ++ ")"
  | fileMissing => "the following arguments are required: file"
  | unrecognized args => "unrecognized arguments: " ++ Text.join " " args

/-! ### What an argument is -/

/-- An argument by its part in the command line. -/
inductive Argument where
  | operand (text : String)
  /-- The argument `--`, behind which there are operands only. -/
  | separator
  /-- An option, with what is attached to it. -/
  | option (flag : Flag) (attached : Option String)
  | unknown (text : String)
  deriving DecidableEq

/-- The text before the first `=`, and the text behind it if there is one. -/
def cutEquals : List Char → List Char × Option (List Char)
  | [] => ([], none)
  | '=' :: cs => ([], some cs)
  | c :: cs =>
    let (front, rest) := cutEquals cs
    (c :: front, rest)

/-- A negative number: digits, or a point with digits behind it and perhaps before it.  One line
    feed at the end does not matter. -/
def isNegativeNumber : List Char → Bool
  | '-' :: cs =>
    let cs := if cs.getLast? == some '\n' then cs.dropLast else cs
    match cs.dropWhile Text.isDecimalDigit with
    | [] => !cs.isEmpty
    | '.' :: fraction => !fraction.isEmpty && fraction.all Text.isDecimalDigit
    | _ => false
  | _ => false

/-- A text, unless there is none. -/
def text? : List Char → Option String
  | [] => none
  | cs => some (String.ofList cs)

/-- What is left behind the short option, where an `h` in front is the option once more. -/
def behindShort (cs : List Char) : List Char := cs.dropWhile (· == 'h')

/-- The value attached to the short option, by what stands behind it. -/
def shortValue : Release → List Char → Option String
  | .earlier, ['='] => some ""
  | .earlier, '=' :: cs => text? (behindShort cs)
  | .earlier, cs => text? (behindShort cs)
  | .later, cs =>
    match behindShort cs with
    | '=' :: value => some (String.ofList value)
    | '-' :: rest => some (String.ofList ('-' :: rest))
    | _ => none

/-- The option that a long argument names, in full or cut short. -/
def classifyLong (text : String) (cs : List Char) : Except UsageError Argument :=
  let (name, attached) := cutEquals cs
  let value := attached.map String.ofList
  match Flag.all.find? fun f => f.long.toList == name with
  | some f => .ok (.option f value)
  | none =>
    match Flag.all.filter fun f => name.isPrefixOf f.long.toList with
    | [f] => .ok (.option f value)
    | [] => .ok (if cs.contains ' ' then .operand text else .unknown text)
    | fs => .error (.ambiguous text fs)

/-- The part of an argument that stands before any `--`. -/
def classifyOne (release : Release) (text : String) : Except UsageError Argument :=
  match text.toList with
  | '-' :: '-' :: cs => classifyLong text ('-' :: '-' :: cs)
  | '-' :: 'h' :: cs => .ok (.option .help (shortValue release cs))
  | ['-'] => .ok (.operand text)
  | '-' :: cs =>
    .ok (if isNegativeNumber ('-' :: cs) || cs.contains ' ' then .operand text else .unknown text)
  | _ => .ok (.operand text)

def classify (release : Release) : List String → Except UsageError (List Argument)
  | [] => .ok []
  | "--" :: rest => .ok (.separator :: rest.map .operand)
  | a :: rest => do
    let first ← classifyOne release a
    let others ← classify release rest
    pure (first :: others)

/-! ### Taking the arguments in turn -/

/-- What the arguments so far say. -/
structure Reading where
  file : Option String
  inputFormat : Option Format
  outputFormat : Option Format
  noSteps : Bool
  logLevel : Option Level
  extras : List String

def Reading.start : Reading := ⟨none, some .text, some .text, false, some .warning, []⟩

inductive Request where
  | help
  | run (settings : Settings)
  | invalid (e : UsageError)
  deriving DecidableEq

/-- Gives an option one of its words; any other word leaves it without a value. -/
def Reading.setValue (r : Reading) (f : Flag) (word : String) : Reading :=
  match f with
  | .inputFormat => { r with inputFormat := Format.ofLabel? word }
  | .outputFormat => { r with outputFormat := Format.ofLabel? word }
  | .logLevel => { r with logLevel := Level.ofLabel? word }
  | _ => r

def Reading.leave (r : Reading) (text : String) : Reading := { r with extras := r.extras ++ [text] }

/-- After the last argument.  A format without a value is text, but the steps are shown only if the
    output is asked for as text. -/
def Reading.finish (r : Reading) : Request :=
  match r.file, r.extras with
  | none, _ => .invalid .fileMissing
  | some file, [] => .run
      { file := file
        inputFormat := r.inputFormat.getD .text
        outputFormat := r.outputFormat.getD .text
        showSteps := !r.noSteps && r.outputFormat == some .text
        logLevel := r.logLevel }
  | some _, extras => .invalid (.unrecognized extras)

/-- Takes an operand: the first one is the file. -/
def Reading.operand (r : Reading) (text : String) : Reading :=
  if r.file.isNone then { r with file := some text } else r.leave text

/-- Whether an option takes an attached word: one of its choices, or in the earlier release `--`. -/
def Release.admits (release : Release) (f : Flag) (value : String) : Bool :=
  f.choices.contains value || (value == "--" && release == .earlier)

/-- Takes the arguments in turn.  A `--` next to the first operand, before or behind, belongs to
    it. -/
def Reading.take (release : Release) (r : Reading) : List Argument → Request
  | [] => r.finish
  | .operand text :: .separator :: rest =>
    if r.file.isNone then take release (r.operand text) rest
    else take release ((r.leave text).leave "--") rest
  | .operand text :: rest => take release (r.operand text) rest
  | .separator :: .operand text :: rest =>
    if r.file.isNone then take release (r.operand text) rest
    else take release ((r.leave "--").leave text) rest
  | .separator :: rest => take release (r.leave "--") rest
  | .unknown text :: rest => take release (r.leave text) rest
  | .option f (some value) :: rest =>
    if !f.takesValue then .invalid (.valueIgnored f value)
    else if release.admits f value then take release (r.setValue f value) rest
    else .invalid (.invalidChoice f value)
  | .option .help none :: _ => .help
  | .option .noSteps none :: rest => take release { r with noSteps := true } rest
  | .option f none :: .operand value :: rest =>
    if f.choices.contains value then take release (r.setValue f value) rest
    else .invalid (.invalidChoice f value)
  | .option f none :: _ => .invalid (.valueMissing f)

def Request.ofArguments (release : Release) (args : List String) : Request :=
  match classify release args with
  | .ok arguments => Reading.start.take release arguments
  | .error e => .invalid e

end ContextFree.Command
