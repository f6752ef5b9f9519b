/-
  ContextFree/Source.lean
  =======================
  **Sources of grammars**: a text, plain data, or a grammar that is given as it
  is.

  `grammar` reads a source.  `trace` reads it and runs the pipeline, and keeps what
  is shown and logged up to the end or the first failure.
-/
import ContextFree.Description
import ContextFree.Grammar.Text
import ContextFree.Pipeline

namespace ContextFree

/-- Where a grammar comes from. -/
inductive Source where
  | text (text : String)
  | data (value : Json)
  | given (g : Grammar)

inductive Failure where
  | text (e : TextError)
  | description (r : Refusal)
  | defect (d : Defect)

def Failure.message (spelling : Text.Spelling) : Failure → String
  | text e => e.message
  | description r => r.message spelling
  | defect d => d.message spelling

/-- What is shown and logged on the way, and the failure that ended it, if any. -/
structure Trace where
  shown : String
  log : List Event
  failure : Option Failure

namespace Source

def grammar : Source → Except Failure Grammar
  | text t => (Grammar.ofText t).mapError .text
  | data v => (Grammar.ofDescription v).mapError .description
  | given g => .ok g

/-- What reading a source reports, if it gives the grammar `g`. -/
def events (s : Source) (g : Grammar) : List Event :=
  match s with
  | text _ => [g.readEvent, g.builtEvent]
  | data _ => [g.builtEvent]
  | given _ => []

def trace (s : Source) : Trace :=
  match s.grammar with
  | .error e => ⟨"", [], some e⟩
  | .ok g =>
    match g.checkedStages with
    | .error d => ⟨"", s.events g, some (.defect d)⟩
    | .ok _ => ⟨g.transcript, s.events g ++ g.events, none⟩

end Source

end ContextFree
