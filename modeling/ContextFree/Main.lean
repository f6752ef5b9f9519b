/-
  ContextFree/Main.lean
  =====================
  **The program**: reads the file that the arguments name, lets
  `ContextFree.Command.execute` decide what to do, and writes what it says.
-/
import ContextFree.Command.Run
import Std.Time.Format

namespace ContextFree.Command

/-- Why the system refuses to read a file. -/
def accessErrorOf : IO.Error → AccessError
  | .noFileOrDirectory _ _ _ => .notFound
  | .inappropriateType _ code _ => if code == 21 then .isDirectory else .notDirectory
  | .invalidArgument _ _ _ => .nameTooLong
  | .permissionDenied _ _ _ => ⟨13, "Permission denied"⟩
  | _ => ⟨5, "Input/output error"⟩

def readFile (p : Path) : IO (Except AccessError (List UInt8)) := do
  try
    let bytes ← IO.FS.readBinFile p.render
    pure (.ok bytes.toList)
  catch e => pure (.error (accessErrorOf e))

/-- What reading a file gives, for a request that reads one. -/
def readRequested (args : List String) : IO (Except AccessError (List UInt8)) :=
  match Request.ofArguments .later args with
  | .run s => readFile (.ofString s.file)
  | _ => pure (.error .notFound)

/-- The local time in the form of a log line. -/
def timeStamp : IO String := do
  try
    let now ← Std.Time.PlainDateTime.now
    pure (now.format "uuuu-MM-dd HH:mm:ss,SSS")
  catch _ => pure "-"

end ContextFree.Command

def main (args : List String) : IO UInt32 := do
  let stamp ← ContextFree.Command.timeStamp
  let content ← ContextFree.Command.readRequested args
  match ContextFree.Command.execute .later stamp (fun _ => content) args with
  | .ok outcome =>
    IO.eprint outcome.stderr
    IO.print outcome.stdout
    pure outcome.status.toUInt32
  | .error abort =>
    IO.eprintln abort.message
    pure 1
