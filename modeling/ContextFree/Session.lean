/-
  ContextFree/Session.lean
  ========================
  **Sessions**: grammars under names and one supply of fresh names, worked on by
  commands.

  A command reads the grammar under one name and stores its result under another.
  A command that fails changes nothing, and the commands after it go on.
-/
import ContextFree.Source

namespace ContextFree

structure Session where
  grammars : Table String Grammar
  names : NameSupply

namespace Session

/-- What a command does with the grammar that it reads. -/
inductive Action where
  /-- Starts a new supply with these names in use. -/
  | startNames (used : List String)
  /-- Starts a new supply with the names of the grammar in use. -/
  | startDeclaredNames
  /-- Hands out the next numbered name of a stem. -/
  | newName (stem : String)
  /-- Hands out the name of a stem and a hint. -/
  | namedName (stem hint : String)
  | showNames
  | load (source : Source)
  | addRule (rule : Rule)
  | setRhss (lhs : Symbol) (rhss : List Rhs)
  | check
  | view
  | render
  | describe
  | isChomsky
  /-- Compares the grammar with another one. -/
  | same (other : String)
  /-- Shows what a symbol reaches through unit rules. -/
  | unitReach (A : Symbol)
  | copy
  | withoutEpsilon
  | withoutUnits
  | onlyReachable
  | onlyGenerating
  | chomskyForm
  | separateTerminals
  | splitLong
  /-- Stores the result of the conversion, with the supply of the session or a new one. -/
  | toChomsky (shared : Bool)

/-- An action with the names of the grammars that it reads and stores. -/
structure Command where
  action : Action
  source : String
  target : String

/-- The answer to a command. -/
inductive Answer where
  | done
  | name (name : String)
  | names (names : List String)
  | supply (names : NameSupply)
  | grammar (g : Grammar)
  | text (text : String)
  | data (value : Json)
  | flag (b : Bool)
  | symbols (symbols : List Symbol)

inductive Error where
  | failure (f : Failure)
  | noGrammar (name : String)

/-- A session without grammars and without names in use. -/
def start : Session := ⟨∅, .ofUsed ∅⟩

def grammar (s : Session) (name : String) : Except Error Grammar :=
  match s.grammars.get? name with
  | some g => .ok g
  | none => .error (.noGrammar name)

/-- Stores a grammar and shows it. -/
def store (s : Session) (name : String) (g : Grammar) : Session × Answer :=
  ({ s with grammars := s.grammars.set name g }, .grammar g)

/-- Stores a grammar together with the supply that its fresh names leave. -/
def storeWith (s : Session) (name : String) (r : Grammar × NameSupply) : Session × Answer :=
  ({ s with names := r.2 }).store name r.1

def hand (s : Session) (r : String × NameSupply) : Session × Answer :=
  ({ s with names := r.2 }, .name r.1)

def restart (s : Session) (used : NameSet) : Session × Answer :=
  ({ s with names := .ofUsed used }, .names used.toList)

def lift {α : Type} (r : Except Failure α) : Except Error α := r.mapError .failure

def step (s : Session) (c : Command) : Except Error (Session × Answer) :=
  let on (f : Grammar → Session × Answer) : Except Error (Session × Answer) :=
    (s.grammar c.source).map f
  match c.action with
  | .startNames used => .ok (s.restart (.ofList used))
  | .startDeclaredNames => on fun g => s.restart g.declaredNames
  | .newName stem => .ok (s.hand (s.names.next stem))
  | .namedName stem hint => .ok (s.hand (s.names.hinted stem hint))
  | .showNames => .ok (s, .supply s.names)
  | .load source => (lift source.grammar).map (s.store c.target)
  | .addRule r => on fun g => s.store c.source (g.addRule r)
  | .setRhss A rhss => on fun g => s.store c.source (g.setRhss A rhss)
  | .check => do
    let g ← s.grammar c.source
    lift (g.check.mapError .defect)
    pure (s, .done)
  | .view => on fun g => (s, .grammar g)
  | .render => on fun g => (s, .text g.render)
  | .describe => on fun g => (s, .data g.description)
  | .isChomsky => on fun g => (s, .flag g.isChomsky)
  | .same other => do
    let g ← s.grammar c.source
    let h ← s.grammar other
    pure (s, .flag (decide (g.Same h)))
  | .unitReach A => on fun g => (s, .symbols (g.unitReach A))
  | .copy => on fun g => s.store c.target g
  | .withoutEpsilon => on fun g => s.store c.target g.withoutEpsilon
  | .withoutUnits => on fun g => s.store c.target g.withoutUnits
  | .onlyReachable => on fun g => s.store c.target g.onlyReachable
  | .onlyGenerating => on fun g => s.store c.target g.onlyGenerating
  | .chomskyForm => do
    let g ← s.grammar c.source
    let h ← lift (g.chomskyForm.mapError .defect)
    pure (s.store c.target h)
  | .separateTerminals => on fun g => s.storeWith c.target (g.separateTerminals s.names)
  | .splitLong => on fun g => s.storeWith c.target (g.splitLong s.names)
  | .toChomsky true => on fun g => s.storeWith c.target (g.toChomsky s.names)
  | .toChomsky false => on fun g => s.store c.target (g.toChomsky (.ofUsed g.declaredNames)).1

/-- Runs commands in turn and collects the answers; one that fails leaves the session as it is. -/
def run (s : Session) : List Command → List (Except Error Answer)
  | [] => []
  | c :: cs =>
    match s.step c with
    | .ok (s', answer) => .ok answer :: run s' cs
    | .error e => .error e :: run s cs

end Session

end ContextFree
