/-
  ContextFree/Command/FileTree.lean
  =================================
  **File trees**: files and directories in memory, by the parts of their absolute
  paths.

  A path is walked part by part, from the root or from the working directory.
  Every part but the last has to be a directory: one that is listed, or one that
  something listed lies in.  The root is its own parent.
-/
import ContextFree.Command.Path
import ContextFree.Table

namespace ContextFree.Command

inductive Entry where
  | file (bytes : List UInt8)
  | directory

/-- A file tree: the entries that it lists, by their places below the root. -/
structure FileTree where
  entries : Table (List String) Entry

namespace FileTree

/-- The working directory: it lies in the directory for temporary files, and since no part of a
    path is empty, no path leads to it by its name. -/
def workingDirectory : List String := ["tmp", ""]

/-- What every system has: a null device, which reads as an empty file, and a working directory. -/
def system : List (List String × Entry) :=
  [(["dev", "null"], .file []), (workingDirectory, .directory)]

/-- One part further: `..` leads one up, and nowhere from the root. -/
def enter (here : List String) (part : String) : List String :=
  if part == ".." then here.dropLast else here ++ [part]

/-- The place at which a path starts. -/
def origin (p : Path) : List String := if p.root == "" then workingDirectory else []

/-- The place of a path whose parts all lead somewhere. -/
def place (p : Path) : List String := p.parts.foldl enter (origin p)

/-- The tree of a system with the given entries; of two at one place the later one counts. -/
def ofList (entries : List (Path × Entry)) : FileTree :=
  ⟨Table.ofList (system ++ entries.map fun e => (place e.1, e.2))⟩

def entry? (t : FileTree) (here : List String) : Option Entry :=
  match t.entries.get? here with
  | some e => some e
  | none => if t.entries.keys.any (here.isPrefixOf ·) then some .directory else none

/-- Walks on from a place.  A part has at most 255 bytes. -/
def walk (t : FileTree) (here : List String) : List String → Except AccessError (List UInt8)
  | [] => match t.entry? here with
    | some (.file bytes) => .ok bytes
    | some .directory => .error .isDirectory
    | none => .error .notFound
  | part :: parts => match t.entry? here with
    | some .directory =>
      if 255 < part.utf8ByteSize then .error .nameTooLong else walk t (enter here part) parts
    | some (.file _) => .error .notDirectory
    | none => .error .notFound

/-- The bytes of the file under a path, which has at most 4095 bytes. -/
def read (t : FileTree) (p : Path) : Except AccessError (List UInt8) :=
  if 4095 < p.render.utf8ByteSize then .error .nameTooLong else t.walk (origin p) p.parts

end FileTree

end ContextFree.Command
