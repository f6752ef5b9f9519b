/-
  ContextFree/Log.lean
  ====================
  **The log**: what a run reports besides its results.

  An event says what happened, with the names and numbers that belong to it; its
  level, the channel it is reported on and its text follow from it.
-/
import ContextFree.Text.Surrogates

namespace ContextFree

inductive Level where
  | debug
  | info
  | warning
  | error
  deriving DecidableEq

namespace Level

def all : List Level := [debug, info, warning, error]

def label : Level → String
  | debug => "DEBUG"
  | info => "INFO"
  | warning => "WARNING"
  | error => "ERROR"

def ofLabel? (word : String) : Option Level := all.find? fun l => l.label == word

/-- The place of a level in the order of importance. -/
def rank : Level → Nat
  | debug => 10
  | info => 20
  | warning => 30
  | error => 40

end Level

/-- The stages of the normalization, in the order in which they run. -/
inductive Stage where
  | epsilon
  | unit
  | unreachable
  | nongenerating
  | chomsky
  deriving DecidableEq

/-- What is said when a stage begins. -/
def Stage.announcement : Stage → String
  | epsilon => "removing epsilon productions"
  | unit => "removing unit productions"
  | unreachable => "removing unreachable symbols"
  | nongenerating => "removing non-generating symbols"
  | chomsky => "converting to CNF"

/-- Something that a run reports. -/
inductive Event where
  /-- A text has been read: the number of its left-hand sides and its start symbol. -/
  | textRead (lhsCount : Nat) (start : String)
  /-- A grammar has been built: its numbers of declared symbols and its start symbol. -/
  | grammarBuilt (nonterminals terminals : Nat) (start : String)
  | begun (stage : Stage)
  | nullableFound (names : List String)
  | unitsFollowed (lhs : String) (closure : List String)
  | unreachableDropped (names : List String)
  | nongeneratingDropped (names : List String)
  | languageEmpty (start : String)
  | nameAllocated (name : String)
  /-- The normal form is reached, with this number of non-terminals. -/
  | chomskyReached (nonterminals : Nat)
  deriving DecidableEq

namespace Event

def level : Event → Level
  | begun _ => .info
  | languageEmpty _ => .warning
  | _ => .debug

def channel : Event → String
  | textRead _ _ => "cfg_normalizer.text"
  | grammarBuilt _ _ _ => "cfg_normalizer.grammar"
  | nameAllocated _ => "cfg_normalizer.fresh"
  | _ => "cfg_normalizer.simplify"

def message (spelling : Text.Spelling) : Event → String
  | textRead n s => "parsed " ++ Nat.repr n ++ " lines of productions, start=" ++ s
  | grammarBuilt n t s =>
      "built grammar: " ++ Nat.repr n ++ " non-terminals, " ++ Nat.repr t ++ " terminals, start=" ++
        s
  | begun stage => stage.announcement
  | nullableFound names => "nullable symbols: " ++ spelling.quotedList names
  | unitsFollowed A names => "unit closure of " ++ A ++ ": " ++ spelling.quotedList names
  | unreachableDropped names => "unreachable symbols dropped: " ++ spelling.quotedList names
  | nongeneratingDropped names => "non-generating symbols dropped: " ++ spelling.quotedList names
  | languageEmpty s =>
      "start symbol " ++ s ++ " generates no terminal string; the language is empty"
  | nameAllocated name => "allocated fresh symbol " ++ name
  | chomskyReached n => "CNF: " ++ Nat.repr n ++ " non-terminals after binarization"

end Event

end ContextFree
