import Easel.Shell.Demand

/-!
The dialogue: every line of the input is run as a program on one machine, and its value
or failure is shown. Lines that a program reads come from the same input.
-/

namespace Easel.Shell.Repl

def greeting : String := "canvas REPL, end input to quit\n"

def prompt : String := ">> "

def say (text : String) (machine : Machine) : Machine :=
  { machine with output := (machine.output.write text).1 }

inductive Turn where
  | goOn (machine : Machine)
  | quit (machine : Machine)
  | stopped (stop : Stop) (machine : Machine)

def conclude : Except Stop Value × Machine → Turn
  | (.ok .none, machine) => .goOn machine
  | (.ok value, machine) => .goOn (say (value.render ++ "\n") machine)
  | (.error (.failure cause), machine) => .goOn (Interpreter.report cause machine)
  | (.error stop, machine) => .stopped stop machine

def turn (interpreter : Interpreter) (machine : Machine) : Except Wanting Turn :=
  let (line, input) := machine.input.readLine
  match line with
  | .ok (some line) => do
      let result ← settled (interpreter.run line { machine with input := input })
      return conclude result
  | .error .awaitingInput => .error ⟨.line, machine⟩
  | .ok none | .error _ => .ok (.quit { machine with input := input })

/-- Turns until the dialogue ends. Each takes at least a byte from the input, so there
are no more turns than bytes. -/
def turns (interpreter : Interpreter) : Nat → Machine → Except Wanting Turn
  | 0, machine => .ok (.quit machine)
  | bound + 1, machine => do
      match ← turn interpreter (say prompt machine) with
      | .goOn machine => turns interpreter bound machine
      | other => return other

end Easel.Shell.Repl
