import Easel.Shell.Arguments
import Easel.Shell.Repl
import Easel.Source.FileTree

/-!
The command line as a whole: a script is executed from its file, and without a script
the dialogue is begun. Everything a run can see is given: the words of the command line,
the library directory of the environment, the files and the input.
-/

namespace Easel.Shell

structure Exit where
  code : Nat
  stdout : ByteArray
  stderr : String

def usageError : Exit := ⟨2, ByteArray.empty, ""⟩

def crashCode : Nat := 101

def interpreter (invocation : Invocation)
    (read : String → Option (Except Source.ReadFault String)) : Interpreter :=
  { limits := { calls := invocation.maxDepth }
    loader := Source.Loader.ofFiles { directory := invocation.directory } read }

def concludeScript : Except Stop Value × Machine → Exit
  | (.ok _, machine) => ⟨0, machine.output.written, ""⟩
  | (.error (.failure cause), machine) =>
      ⟨1, (Repl.say "Exited with errors.\n" (Interpreter.report cause machine)).output.written, ""⟩
  | (.error _, machine) => ⟨crashCode, machine.output.written, ""⟩

def script (interpreter : Interpreter) (text : String) (machine : Machine) :
    Except Wanting Exit := do
  let result ← settled (interpreter.run (Source.wrap text) machine)
  return concludeScript result

def unreadableScript (path : String) (fault : Source.ReadFault) : Exit :=
  ⟨1, ByteArray.empty, "Failed to read '" ++ path ++ "': " ++ fault.message ++ "\n"⟩

def concludeDialogue : Repl.Turn → Exit
  | .goOn machine | .quit machine => ⟨0, machine.output.written, ""⟩
  | .stopped _ machine => ⟨crashCode, machine.output.written, ""⟩

def dialogue (interpreter : Interpreter) (machine : Machine) : Except Wanting Exit := do
  let bound := machine.input.bytes.length + 1
  let turn ← Repl.turns interpreter bound (Repl.say Repl.greeting machine)
  return concludeDialogue turn

/-- A process that has all it can ask for. A demand left open would be a failure. -/
def provided : Except Wanting Exit → Exit
  | .ok exit => exit
  | .error wanting => ⟨1, wanting.machine.output.written, ""⟩

def run (words : List String) (environment : Option String) (tree : Source.FileTree)
    (stdin : List UInt8) : Exit :=
  match Invocation.read? words environment with
  | none => usageError
  | some invocation =>
      let interpreter := interpreter invocation fun path => some (tree.read path)
      let machine : Machine := { input := { bytes := stdin } }
      match invocation.script with
      | none => provided (dialogue interpreter machine)
      | some path =>
          match tree.read path with
          | .ok text => provided (script interpreter text machine)
          | .error fault => unreadableScript path fault

end Easel.Shell
