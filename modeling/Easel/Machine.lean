import Easel.Channel
import Easel.Error
import Easel.Scope
import Easel.Source.Loader
import Easel.Value.Operations

/-!
The machine that programs run on: what they change, what they may use, and the ways in
which a run can end without a result.

Evaluation is counted in levels. The evaluation level is the number of statements and
expressions that are being evaluated inside one another, and the call level the number
of calls among them; both belong to the context of a piece of evaluation and are back to
what they were when it is done.

A run can be watched. A watch is a condition on moments, and a run that comes to a
moment that meets it pauses there. Moments are the changes of levels, frames and
imports, and the applications of operators and builtin functions. Without a watch a run
never pauses.
-/

namespace Easel

structure Limits where
  calls : Nat := 256
  evaluation : Nat := 4096
deriving DecidableEq, Repr

structure Machine where
  scopes : Scopes := {}
  output : Sink := {}
  input : Input := {}

inductive Activity where
  | passing
  | operating (operator : BinaryOperator) (left right : Value)
  | applying (builtin : Builtin) (arguments : List Value)

structure Moment where
  nesting : Nat
  calls : Nat
  scopes : Scopes
  activity : Activity

/-- How a run ends without a result. Only a failure is the program's own; patience is
exhausted if a loop has made as many rounds as it was given. -/
inductive Stop where
  | failure (cause : Failure)
  | crash
  | exhausted
  | paused (moment : Moment)

structure Context where
  limits : Limits
  loader : Source.Loader
  patience : Nat
  watch : Option (Moment → Bool) := none
  nesting : Nat := 0
  calls : Nat := 0

abbrev EvalM := ReaderT Context (EStateM Stop Machine)

namespace EvalM

def fail {α : Type} (error : RuntimeError) : EvalM α :=
  throw (.failure (.runtime error))

def orFail {α : Type} : Except RuntimeError α → EvalM α
  | .ok value => pure value
  | .error cause => fail cause

def orMishap {α : Type} : Except Mishap α → EvalM α
  | .ok value => pure value
  | .error (.error cause) => fail cause
  | .error .crash => throw .crash

/-- Pauses if the run is watched for this moment. -/
def observe (activity : Activity) : EvalM Unit := do
  let context ← read
  match context.watch with
  | none => pure ()
  | some pausesAt =>
      let moment : Moment := ⟨context.nesting, context.calls, (← get).scopes, activity⟩
      if pausesAt moment then throw (.paused moment)

/-- Runs an action in a changed context, with the scopes changed on the way in and again
on the way out, whether the action succeeds or fails. A run that crashes, pauses or is
exhausted leaves the scopes as they stand. -/
@[inline]
def bracket {α : Type} (inside : Context → Context) (enter leave : Scopes → Scopes)
    (action : EvalM α) : EvalM α := fun context machine =>
  match (do observe .passing; action) (inside context)
      { machine with scopes := enter machine.scopes } with
  | .ok value machine =>
      (do observe .passing; pure value) context { machine with scopes := leave machine.scopes }
  | .error (.failure cause) machine =>
      (do observe .passing; throw (Stop.failure cause)) context
        { machine with scopes := leave machine.scopes }
  | .error stop machine => .error stop machine

@[inline]
def nested {α : Type} : EvalM α → EvalM α :=
  bracket (fun context => { context with nesting := context.nesting + 1 }) id id

@[inline]
def called {α : Type} : EvalM α → EvalM α :=
  bracket (fun context => { context with calls := context.calls + 1 }) id id

@[inline]
def framed {α : Type} : EvalM α → EvalM α :=
  bracket id Scopes.push Scopes.pop

@[inline]
def importing {α : Type} (name : String) : EvalM α → EvalM α :=
  bracket id (·.beginImport name) Scopes.endImport

def importingOnce (name : String) (action : EvalM Unit) : EvalM Unit := do
  if (← get).scopes.isImporting name then fail (.recursiveImport name)
  else importing name action

def patience : EvalM Nat :=
  return (← read).patience

def load (kind : Source.ImportKind) (name : String) : EvalM String := do
  orFail ((← read).loader kind name)

def checkCalls : EvalM Unit := do
  let context ← read
  if context.limits.calls ≤ context.calls then fail (.callDepthExceeded context.limits.calls)

def modifyScopes (change : Scopes → Scopes) : EvalM Unit :=
  modify fun machine => { machine with scopes := change machine.scopes }

def lookup (name : String) : EvalM Value := do
  match (← get).scopes.get? name with
  | some value => return value
  | none => fail (.undefinedIdentifier name)

def operate (operator : BinaryOperator) (left right : Value) : EvalM Value := do
  observe (.operating operator left right)
  orMishap (Value.binary operator left right)

/-- Writes to the output. What fits is written even if the write fails. -/
def writeText (text : String) : EvalM Unit := do
  let machine ← get
  let (output, fault) := machine.output.write text
  set { machine with output := output }
  match fault with
  | none => pure ()
  | some fault => fail (.channel fault)

def flush : EvalM Unit := do
  match (← get).output.flush with
  | none => pure ()
  | some fault => fail (.channel fault)

/-- Takes a line from the input. The end of the input reads as an empty line. -/
def readText : EvalM String := do
  let machine ← get
  let (line, input) := machine.input.readLine
  set { machine with input := input }
  match line with
  | .ok line => return line.getD ""
  | .error fault => fail (.channel fault)

end EvalM

end Easel
