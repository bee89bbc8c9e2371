import Easel.Number.Decimal

/-!
The command line: at most one script, `--lib` with a directory and `--max-depth` with a
number, in any order. A value may follow its option or be attached to it by `=`; a value
that follows must not look like an option. After `--` everything is a script.
-/

namespace Easel.Shell

structure Arguments where
  script : Option String := none
  directory : Option String := none
  maxDepth : Option Nat := none
deriving DecidableEq, Repr

namespace Arguments

def greatestDepth : Nat := UInt64.size - 1

def readDepth? (text : String) : Option Nat :=
  let digits := match text.toList with
    | '+' :: rest => rest
    | characters => characters
  if digits.isEmpty || !digits.all Char.isDigit then none
  else
    let depth := Decimal.naturalOf digits
    if depth ≤ greatestDepth then some depth else none

/-- A single dash is no option but a name. -/
def looksLikeOption (text : String) : Bool :=
  text.startsWith "-" && text ≠ "-"

def withScript? (arguments : Arguments) (path : String) : Option Arguments :=
  if path.isEmpty || arguments.script.isSome then none
  else some { arguments with script := some path }

def withDirectory? (arguments : Arguments) (path : String) : Option Arguments :=
  if path.isEmpty || arguments.directory.isSome then none
  else some { arguments with directory := some path }

def withMaxDepth? (arguments : Arguments) (text : String) : Option Arguments := do
  let depth ← readDepth? text
  if arguments.maxDepth.isSome then none else some { arguments with maxDepth := some depth }

def attached? (name word : String) : Option String :=
  let opening := (name ++ "=").toList
  if opening.isPrefixOf word.toList then some (String.ofList (word.toList.drop opening.length))
  else none

def scriptsOnly? (arguments : Arguments) : List String → Option Arguments
  | [] => some arguments
  | word :: rest => do
      let arguments ← arguments.withScript? word
      arguments.scriptsOnly? rest

def read? (arguments : Arguments) : List String → Option Arguments
  | [] => some arguments
  | "--" :: rest => arguments.scriptsOnly? rest
  | "--lib" :: value :: rest => do
      if looksLikeOption value then none
      let arguments ← arguments.withDirectory? value
      arguments.read? rest
  | "--max-depth" :: value :: rest => do
      if looksLikeOption value then none
      let arguments ← arguments.withMaxDepth? value
      arguments.read? rest
  | word :: rest => do
      let arguments ←
        match attached? "--lib" word, attached? "--max-depth" word with
        | some value, _ => arguments.withDirectory? value
        | none, some value => arguments.withMaxDepth? value
        | none, none => if looksLikeOption word then none else arguments.withScript? word
      arguments.read? rest

end Arguments

structure Invocation where
  script : Option String
  directory : String
  maxDepth : Nat
deriving DecidableEq, Repr

/-- The arguments, with the directory of the environment where no option gives one, and
defaults for the rest. There is no directory without a name. -/
def Invocation.read? (words : List String) (environment : Option String) :
    Option Invocation := do
  let arguments ← Arguments.read? {} words
  let directory := (arguments.directory.or environment).getD "."
  if directory.isEmpty then none
  else some ⟨arguments.script, directory, arguments.maxDepth.getD 256⟩

end Easel.Shell
