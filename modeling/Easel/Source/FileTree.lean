import Easel.Source.Fault

/-!
Files below a working directory, and how a path finds one. A path is walked component by
component: `.` and empty components stay where they are, `..` goes up, and every step
starts at a directory. What lies above the working directory is not known; it is taken
to hold nothing but directories on the way up.
-/

namespace Easel.Source

structure File where
  components : List String
  bytes : ByteArray

abbrev FileTree := List File

namespace FileTree

def components (path : String) : List String :=
  (splitFrom [] path.toList).map String.ofList
where
  splitFrom : List Char → List Char → List (List Char)
    | component, [] => [component.reverse]
    | component, c :: rest =>
        if c = '/' then component.reverse :: splitFrom [] rest
        else splitFrom (c :: component) rest

def ofFiles (files : List (String × ByteArray)) : FileTree :=
  files.map fun (path, bytes) =>
    ⟨(components path).filter fun component => component ≠ "" && component ≠ ".", bytes⟩

def file? (tree : FileTree) (place : List String) : Option ByteArray :=
  (List.find? (fun file => file.components == place) tree).map File.bytes

/-- A directory is what files lie below. -/
def isDirectory (tree : FileTree) (place : List String) : Bool :=
  place.isEmpty || List.any tree fun file =>
    place.isPrefixOf file.components && place.length < file.components.length

/-- Where a walk stands. -/
inductive Place where
  | outside
  | directory (components : List String)
  | file (bytes : ByteArray)

def longestName : Nat := 255

def longestPath : Nat := 4095

def child (tree : FileTree) (parent : List String) (name : String) : Except ReadFault Place :=
  let place := parent ++ [name]
  if longestName < name.utf8ByteSize then .error .nameTooLong
  else
    match tree.file? place with
    | some bytes => .ok (.file bytes)
    | none => if tree.isDirectory place then .ok (.directory place) else .error .notFound

def advance (tree : FileTree) (place : Place) (component : String) : Except ReadFault Place :=
  match place with
  | .file _ => .error .notDirectory
  | .outside =>
      if component = "" || component = "." || component = ".." then .ok .outside
      else if longestName < component.utf8ByteSize then .error .nameTooLong
      else .error .notFound
  | .directory parent =>
      if component = "" || component = "." then .ok place
      else if component = ".." then
        .ok (if parent.isEmpty then .outside else .directory parent.dropLast)
      else tree.child parent component

def walk (tree : FileTree) (place : Place) : List String → Except ReadFault Place
  | [] => .ok place
  | component :: rest => do
      let next ← tree.advance place component
      tree.walk next rest

def read (tree : FileTree) (path : String) : Except ReadFault String :=
  if path.toList.contains (Char.ofNat 0) then .error .nulInName
  else if path.isEmpty then .error .notFound
  else if longestPath < path.utf8ByteSize then .error .nameTooLong
  else do
    let start := if path.startsWith "/" then Place.outside else Place.directory []
    match ← tree.walk start (components path) with
    | .outside | .directory _ => .error .isDirectory
    | .file bytes =>
        match String.fromUTF8? bytes with
        | some text => .ok text
        | none => .error .invalidText

end FileTree

end Easel.Source
