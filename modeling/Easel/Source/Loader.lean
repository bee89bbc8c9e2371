import Easel.Error
import Easel.Source.Wrap

/-!
Where imported units come from. A program names a unit and says whether the name is
that of a library unit or a path. A loader answers with the unit's text, already
wrapped in its block, or fails, and its failure becomes that of the program. A host
may bring a loader of its own, which may fail with any error there is. A loader is a
function: asked twice it gives the same answer.
-/

namespace Easel.Source

inductive ImportKind where
  | lib
  | file
deriving DecidableEq, Repr, Inhabited

namespace ImportKind

def spelling : ImportKind → String
  | .lib => "LIB"
  | .file => "FILE"

def ofText? (text : String) : Option ImportKind :=
  match text with
  | "LIB" => some .lib
  | "FILE" => some .file
  | _ => none

theorem ofText?_spelling (kind : ImportKind) : ofText? kind.spelling = some kind := by
  cases kind <;> rfl

end ImportKind

abbrev Loader := ImportKind → String → Except RuntimeError String

def Loader.ofUnits (units : List (String × String)) : Loader := fun _ name =>
  match units.find? (fun unit => unit.1 == name) with
  | some (_, text) => .ok (wrap text)
  | none => .error (.importFailed name .noSuchUnit)

structure Library where
  directory : String := "."
  extension : String := "cnv"
deriving DecidableEq, Repr

def joinPath (directory path : String) : String :=
  if path.startsWith "/" then path
  else if directory.isEmpty || directory.endsWith "/" then directory ++ path
  else directory ++ "/" ++ path

/-- The path of a unit. The library's extension is added to every library name, also to
one that has a point already. -/
def Library.resolve (library : Library) (kind : ImportKind) (name : String) : String :=
  match kind with
  | .lib => joinPath library.directory (name ++ "." ++ library.extension)
  | .file => name

/-- Serves units from files. `read` gives a file's text, or nothing if nobody has fetched
the file yet. -/
def Loader.ofFiles (library : Library) (read : String → Option (Except ReadFault String)) :
    Loader := fun kind name =>
  let path := library.resolve kind name
  match read path with
  | some (.ok text) => .ok (wrap text)
  | some (.error fault) => .error (.importFailed name (.unreadable path fault))
  | none => .error (.importFailed name (.unfetched path))

end Easel.Source
