import Easel.Interpreter

/-!
A session drives one machine step by step: it runs texts, reads input, and looks at or
changes the scopes from outside. Each step has an answer, and the machine goes from one
step to the next.
-/

namespace Easel

inductive Step where
  | run (source : String)
  | execute (source : String)
  | get (name : String)
  | isLocal (name : String)
  | declare (name : String) (value : Value)
  | assign (name : String) (value : Value)
  | push
  | pop
  | beginImport (name : String)
  | endImport
  | readLine

inductive Answer where
  | value (value : Value)
  | stopped (stop : Stop)
  | executed (succeeded : Bool)
  | found (value : Option Value)
  | isLocal (bound : Bool)
  | line (line : Option String)
  | unreadable (fault : ChannelFault)
  | done

namespace Session

def onScopes (machine : Machine) (change : Scopes → Scopes) : Answer × Machine :=
  (.done, { machine with scopes := change machine.scopes })

def beginImport (name : String) (machine : Machine) : Answer × Machine :=
  if machine.scopes.isImporting name then
    (.stopped (.failure (.runtime (.recursiveImport name))), machine)
  else onScopes machine (·.beginImport name)

/-- A failure is told apart from ways to stop that leave nothing to go on with. -/
def execute (interpreter : Interpreter) (source : String) (machine : Machine) :
    Answer × Machine :=
  match interpreter.execute source machine with
  | (.ok _, machine) => (.executed true, machine)
  | (.error (.failure _), machine) => (.executed false, machine)
  | (.error stop, machine) => (.stopped stop, machine)

def perform (interpreter : Interpreter) (machine : Machine) : Step → Answer × Machine
  | .run source =>
      match interpreter.run source machine with
      | (.ok value, machine) => (.value value, machine)
      | (.error stop, machine) => (.stopped stop, machine)
  | .execute source => execute interpreter source machine
  | .get name => (.found (machine.scopes.get? name), machine)
  | .isLocal name => (.isLocal (machine.scopes.isLocal name), machine)
  | .declare name value => onScopes machine (·.declare name value)
  | .assign name value => onScopes machine (·.assign name value)
  | .push => onScopes machine Scopes.push
  | .pop => onScopes machine Scopes.pop
  | .beginImport name => beginImport name machine
  | .endImport => onScopes machine Scopes.endImport
  | .readLine =>
      let (line, input) := machine.input.readLine
      let machine := { machine with input := input }
      match line with
      | .ok line => (.line line, machine)
      | .error fault => (.unreadable fault, machine)

def ends : Answer → Bool
  | .stopped (.failure _) => false
  | .stopped _ => true
  | _ => false

structure Record where
  answer : Answer
  output : ByteArray
  machine : Machine

def records (interpreter : Interpreter) (machine : Machine) : List Step → List Record
  | [] => []
  | step :: rest =>
      let before := machine.output.written.size
      let (answer, machine) := perform interpreter machine step
      let written := machine.output.written
      let record : Record := ⟨answer, written.extract before written.size, machine⟩
      if ends answer then [record] else record :: records interpreter machine rest

end Session

end Easel
