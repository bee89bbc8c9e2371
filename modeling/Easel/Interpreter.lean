import Easel.Evaluation

/-!
An interpreter runs source texts on a machine, one after another. What a run changes
stays changed, also if the run fails.
-/

namespace Easel

/-- What all runs share. The default patience is more rounds of one loop than a machine
makes in a lifetime. -/
structure Interpreter where
  limits : Limits := {}
  loader : Source.Loader := Source.Loader.ofUnits []
  patience : Nat := 1 <<< 62
  watch : Option (Moment → Bool) := none

namespace Interpreter

def context (interpreter : Interpreter) : Context :=
  { limits := interpreter.limits
    loader := interpreter.loader
    patience := interpreter.patience
    watch := interpreter.watch }

/-- Flushes the output after a program. A flush that fails hides the program's own result
or failure. -/
def flushAfter (result : Except Stop Value) (machine : Machine) : Except Stop Value :=
  match result, machine.output.flush with
  | .ok _, some fault | .error (.failure _), some fault =>
      .error (.failure (.runtime (.channel fault)))
  | result, _ => result

def runProgram (interpreter : Interpreter) (program : Program) (machine : Machine) :
    Except Stop Value × Machine :=
  match Evaluation.program program interpreter.context machine with
  | .ok value machine => (flushAfter (.ok value) machine, machine)
  | .error stop machine => (flushAfter (.error stop) machine, machine)

def run (interpreter : Interpreter) (source : String) (machine : Machine) :
    Except Stop Value × Machine :=
  match Program.parse source with
  | .error error => (.error (.failure (.misread error)), machine)
  | .ok program => interpreter.runProgram program machine

def report (failure : Failure) (machine : Machine) : Machine :=
  { machine with output := (machine.output.write ("ERROR: " ++ failure.message ++ "\n")).1 }

def execute (interpreter : Interpreter) (source : String) (machine : Machine) :
    Except Stop Value × Machine :=
  match interpreter.run source machine with
  | (.error (.failure cause), machine) => (.error (.failure cause), report cause machine)
  | result => result

end Interpreter

end Easel
