/-
  ContextFree/Description.lean
  ============================
  **Descriptions**: grammars as plain data.

  A description is an object with the members `start`, `nonterminals`,
  `terminals` and, if there are rules, `productions`, which maps left-hand sides
  to lists of right-hand sides.  A list of names may also be given as an object,
  whose keys are then the names.  `Grammar.ofDescription` reads a description and
  `Grammar.description` writes one.
-/
import ContextFree.Grammar.Basic
import ContextFree.Json.Value

namespace ContextFree

/-- A place of a description that holds a list of names. -/
inductive NameListPlace where
  | nonterminals
  | terminals
  | rhsOf (lhs : String)
  deriving DecidableEq

def NameListPlace.label (spelling : Text.Spelling) : NameListPlace → String
  | nonterminals => "nonterminals"
  | terminals => "terminals"
  | rhsOf lhs => "right-hand side of " ++ spelling.quote lhs

inductive DescriptionError where
  | notObject (found : Json)
  | missing (member : String)
  | startNotName (found : Json)
  /-- A list of names is expected. -/
  | notNameList (place : NameListPlace) (found : Json)
  /-- An item of a list of names is not a name. -/
  | notName (place : NameListPlace) (found : Json)
  | productionsNotObject
  | declaredTwice (names : List String)
  | startUndeclared (start : String)
  | lhsUndeclared (lhs : String)
  /-- What a left-hand side maps to is not a list. -/
  | notRhsList (lhs : String)
  | unknownSymbol (name : String)

def DescriptionError.message (spelling : Text.Spelling) : DescriptionError → String
  | notObject v => "grammar description must be a mapping, got " ++ v.kind
  | missing m => "grammar description is missing " ++ spelling.quote m
  | startNotName v => "start symbol must be a name, got " ++ v.display spelling
  | notNameList place v =>
      place.label spelling ++ " must be a list of names, got " ++ v.display spelling
  | notName place v => place.label spelling ++ ": " ++ v.display spelling ++ " is not a name"
  | productionsNotObject => "productions must map each non-terminal to its right-hand sides"
  | declaredTwice names =>
      "symbols declared both terminal and non-terminal: " ++ spelling.quotedList names
  | startUndeclared s => "start symbol " ++ spelling.quote s ++ " is not a declared non-terminal"
  | lhsUndeclared lhs => "production for undeclared non-terminal " ++ spelling.quote lhs
  | notRhsList lhs => "right-hand sides of " ++ spelling.quote lhs ++ " must be a list"
  | unknownSymbol name => "unknown symbol " ++ spelling.quote name

/-- The value that the message of an error shows, if it shows one. -/
def DescriptionError.shown? : DescriptionError → Option Json
  | startNotName v => some v
  | notNameList _ v => some v
  | notName _ v => some v
  | _ => none

/-- An error has a message unless it would show a long number. -/
def DescriptionError.isShowable (e : DescriptionError) : Bool := e.shown?.all Json.isShowable

/-- Why there is no grammar: an error of the description, or a message that cannot be made because
    it would show a whole number with too many digits. -/
inductive Refusal where
  | invalid (e : DescriptionError)
  | tooManyDigits

def Refusal.message (spelling : Text.Spelling) : Refusal → String
  | invalid e => e.message spelling
  | tooManyDigits =>
      "Exceeds the limit (" ++ Nat.repr Json.maxDigits ++ " digits) for integer string " ++
        "conversion; use sys.set_int_max_str_digits() to increase the limit"

/-- An error is raised with its message, which is made first. -/
def DescriptionError.raised (e : DescriptionError) : Refusal :=
  if e.isShowable then .invalid e else .tooManyDigits

/-- The parts of a description before they are looked into. -/
structure Description where
  start : Json
  nonterminals : Json
  terminals : Json
  productions : Json

namespace Description

/-! ### Reading -/

/-- The items of an array, or the keys of an object. -/
def items? : Json → Option (List Json)
  | .array items => some items
  | .object members => some (members.map fun m => .string m.1)
  | _ => none

def readName (place : NameListPlace) : Json → Except DescriptionError String
  | .string s => .ok s
  | v => .error (.notName place v)

def readNames (place : NameListPlace) (v : Json) : Except DescriptionError (List String) :=
  match items? v with
  | some items => items.mapM (readName place)
  | none => .error (.notNameList place v)

/-- The declared symbol with a name; no name is declared as both kinds. -/
def resolve (nonterminals terminals : NameSet) (name : String) : Except DescriptionError Symbol :=
  if name ∈ nonterminals then .ok (.nonterminal name)
  else if name ∈ terminals then .ok (.terminal name)
  else .error (.unknownSymbol name)

def readRhs (nonterminals terminals : NameSet) (lhs : String) (v : Json) :
    Except DescriptionError Rhs := do
  let names ← readNames (.rhsOf lhs) v
  names.mapM (resolve nonterminals terminals)

/-- A left-hand side with its right-hand sides; later repeats are dropped. -/
def readProduction (nonterminals terminals : NameSet) (member : String × Json) :
    Except DescriptionError (Symbol × List Rhs) :=
  if member.1 ∈ nonterminals then
    match items? member.2 with
    | some items => do
      let rhss ← items.mapM (readRhs nonterminals terminals member.1)
      pure (.nonterminal member.1, Distinct.ofList rhss)
    | none => .error (.notRhsList member.1)
  else .error (.lhsUndeclared member.1)

def readMembers : Json → Except DescriptionError (List (String × Json))
  | .object members => .ok members
  | _ => .error .productionsNotObject

def readStart : Json → Except DescriptionError String
  | .string s => .ok s
  | v => .error (.startNotName v)

def toGrammar (d : Description) : Except DescriptionError Grammar := do
  let start ← readStart d.start
  let nonterminals ← readNames .nonterminals d.nonterminals
  let terminals ← readNames .terminals d.terminals
  let members ← readMembers d.productions
  let ns : NameSet := .ofList nonterminals
  let ts : NameSet := .ofList terminals
  let both := ns.toList.filter (ts.contains ·)
  if !both.isEmpty then .error (.declaredTwice both)
  else if start ∉ ns then .error (.startUndeclared start)
  else
    let entries ← members.mapM (readProduction ns ts)
    pure
      { Grammar.ofSymbols (.nonterminal start) (.ofList (nonterminals.map Symbol.nonterminal))
          (.ofList (terminals.map Symbol.terminal)) with
        table := .ofList entries }

def required (value : Json) (member : String) : Except DescriptionError Json :=
  match value.member? member with
  | some v => .ok v
  | none => .error (.missing member)

/-- The parts of a description; productions may be absent. -/
def ofJson (value : Json) : Except DescriptionError Description :=
  match value with
  | .object _ => do
    let start ← required value "start"
    let nonterminals ← required value "nonterminals"
    let terminals ← required value "terminals"
    pure ⟨start, nonterminals, terminals, (value.member? "productions").getD (.object [])⟩
  | v => .error (.notObject v)

/-- Checks and reads a description. -/
def read (value : Json) : Except DescriptionError Grammar := do
  let d ← ofJson value
  d.toGrammar

end Description

namespace Grammar

def ofDescription (value : Json) : Except Refusal Grammar :=
  (Description.read value).mapError DescriptionError.raised

/-! ### Writing -/

/-- The productions by left-hand side, in the order of the names; of two left-hand sides with one
    name the later one counts. -/
def productionMembers (g : Grammar) : List (String × Json) :=
  (Table.ofList (g.lhssByName.map fun A =>
    (A.name, Json.array ((g.rhss A).map fun r => .ofNames (r.map Symbol.name))))).entries

/-- The plain data of a grammar: names in ascending order, right-hand sides as they are. -/
def description (g : Grammar) : Json :=
  .object
    [ ("start", .string g.start.name),
      ("nonterminals", .ofNames (SymbolSet.sortedNames g.nonterminals)),
      ("terminals", .ofNames (SymbolSet.sortedNames g.terminals)),
      ("productions", .object g.productionMembers) ]

end Grammar

end ContextFree
