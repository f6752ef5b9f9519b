/-
  ContextFree/Command/Path.lean
  =============================
  **Paths of files**, in a form without superfluous parts: empty parts and `.`
  are left out, `..` stays.  Two slashes in front are kept; any other number of
  them is one.
-/
import ContextFree.Text.Pieces

namespace ContextFree.Command

/-- A path: the slashes in front, and the parts. -/
structure Path where
  root : String
  parts : List String
  deriving DecidableEq

namespace Path

/-- The slashes in front of a path. -/
def rootOf (path : String) : String :=
  match (path.toList.takeWhile (· == '/')).length with
  | 0 => ""
  | 2 => "//"
  | _ => "/"

def ofString (path : String) : Path :=
  ⟨rootOf path, ((Text.splitOn (· == '/') path.toList).map String.ofList).filter fun part =>
    part != "" && part != "."⟩

/-- The written form of a path; the empty path is `.`. -/
def render (p : Path) : String :=
  let text := p.root ++ Text.join "/" p.parts
  if text == "" then "." else text

end Path

/-- Why a file cannot be read: the number and the words of the system. -/
structure AccessError where
  code : Nat
  reason : String
  deriving DecidableEq

namespace AccessError

def notFound : AccessError := ⟨2, "No such file or directory"⟩

def notDirectory : AccessError := ⟨20, "Not a directory"⟩

def isDirectory : AccessError := ⟨21, "Is a directory"⟩

def nameTooLong : AccessError := ⟨36, "File name too long"⟩

end AccessError

end ContextFree.Command
