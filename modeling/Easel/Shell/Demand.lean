import Easel.Interpreter

/-!
Runs that stop for want of something from outside. Nothing in the language can catch a
failure, so a run that asks for a file nobody has fetched, or for a line nobody has
typed, ends with that failure. Whoever can provide what is missing does so and runs the
same text again from the same machine.
-/

namespace Easel.Shell

inductive Demand where
  | line
  | file (path : String)
deriving DecidableEq, Repr

def Demand.of? : Except Stop Value → Option Demand
  | .error (.failure (.runtime (.channel .awaitingInput))) => some .line
  | .error (.failure (.runtime (.importFailed _ (.unfetched path)))) => some (.file path)
  | _ => none

/-- A demand, with the machine as it stood when the run stopped. -/
structure Wanting where
  demand : Demand
  machine : Machine

def settled (result : Except Stop Value × Machine) :
    Except Wanting (Except Stop Value × Machine) :=
  match Demand.of? result.1 with
  | some demand => .error ⟨demand, result.2⟩
  | none => .ok result

end Easel.Shell
