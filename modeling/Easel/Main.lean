import Easel.Shell

/-!
The command line on the real system. Files and lines are fetched when a run asks for
them, and the run is then repeated from the machine it started on; what it has already
shown is not shown again.
-/

namespace Easel.Shell

abbrev Fetched := List (String × Except Source.ReadFault String)

def faultOf : IO.Error → Source.ReadFault
  | .noFileOrDirectory .. => .notFound
  | .inappropriateType _ code _ => if code = 20 || code = 0 - 20 then .notDirectory else .isDirectory
  | error => .other (toString error)

def fetch (path : String) : IO (Except Source.ReadFault String) := do
  try
    match String.fromUTF8? (← IO.FS.readBinFile path) with
    | some text => return .ok text
    | none => return .error .invalidText
  catch error => return .error (faultOf error)

partial def readLineBytes (stdin : IO.FS.Stream) (found : List UInt8) : IO Input := do
  let bytes ← stdin.read 1
  match bytes.toList with
  | [] => return ⟨found.reverse, true⟩
  | byte :: _ =>
      if byte = Input.newline then return ⟨(byte :: found).reverse, false⟩
      else readLineBytes stdin (byte :: found)

def display (output : ByteArray) (shown : Nat) : IO Nat := do
  let stdout ← IO.getStdout
  stdout.write (output.extract shown output.size)
  stdout.flush
  return max shown output.size

/-- Repeats an attempt until everything it asks for is there. -/
partial def provide {α : Type} (invocation : Invocation)
    (attempt : Interpreter → Machine → Except Wanting α) (fetched : Fetched)
    (machine : Machine) (shown : Nat) : IO (α × Fetched × Nat) := do
  let read path := (fetched.find? fun file => file.1 == path).map Prod.snd
  match attempt (interpreter invocation read) machine with
  | .ok result => return (result, fetched, shown)
  | .error wanting =>
      let shown ← display wanting.machine.output.written shown
      match wanting.demand with
      | .file path => provide invocation attempt ((path, ← fetch path) :: fetched) machine shown
      | .line =>
          let more ← readLineBytes (← IO.getStdin) []
          let input : Input := ⟨machine.input.bytes ++ more.bytes, more.ended⟩
          provide invocation attempt fetched { machine with input := input } shown

def leave (exit : Exit) (shown : Nat) : IO UInt32 := do
  discard (display exit.stdout shown)
  (← IO.getStderr).putStr exit.stderr
  return exit.code.toUInt32

partial def converse (invocation : Invocation) (fetched : Fetched) (machine : Machine)
    (shown : Nat) : IO UInt32 := do
  let asked := Repl.say Repl.prompt machine
  let shown ← display asked.output.written shown
  let (turn, fetched, shown) ← provide invocation Repl.turn fetched asked shown
  match turn with
  | .goOn machine => converse invocation fetched machine (← display machine.output.written shown)
  | other => leave (concludeDialogue other) shown

def start (invocation : Invocation) : IO UInt32 := do
  let machine : Machine := { input := ⟨[], false⟩ }
  match invocation.script with
  | none => converse invocation [] (Repl.say Repl.greeting machine) 0
  | some path =>
      match ← fetch path with
      | .error fault => leave (unreadableScript path fault) 0
      | .ok text =>
          let (exit, _, shown) ←
            provide invocation (fun interpreter => script interpreter text) [] machine 0
          leave exit shown

end Easel.Shell

def main (words : List String) : IO UInt32 := do
  match Easel.Shell.Invocation.read? words (← IO.getEnv "CANVAS_LIB") with
  | none =>
      (← IO.getStderr).putStrLn "usage: canvas [FILE] [--lib DIR] [--max-depth N]"
      return 2
  | some invocation => Easel.Shell.start invocation
