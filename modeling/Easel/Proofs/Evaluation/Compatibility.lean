import Easel.Proofs.Evaluation.Carrying
import Easel.Proofs.Frames

/-!
What holds of evaluation whatever is evaluated, because it holds of the building blocks. A
relation between actions is compatible if the primitive actions stand in it to themselves and
the ways of putting actions together carry it on. It then carries the condition that every tree
satisfies, so a compatible relation between two evaluators of one level further in is one
between the rules that use them. A property of single actions is the case of a relation that
ignores its second side.
-/

namespace Easel.Evaluation

open EvalM

/-- A relation between actions that the primitive actions and their sequences respect, whatever is
evaluated. -/
structure Sequential (R : {α : Type} → EvalM α → EvalM α → Prop) : Prop where
  pure : ∀ {α : Type} (value : α), R (pure value) (pure value)
  bind : ∀ {α β : Type} {action action' : EvalM α} {next next' : α → EvalM β}, R action action' →
    (∀ value, R (next value) (next' value)) → R (action >>= next) (action' >>= next')
  failure : ∀ {α : Type} (cause : Failure),
    R (throw (.failure cause) : EvalM α) (throw (.failure cause))
  crash : ∀ {α : Type}, R (throw .crash : EvalM α) (throw .crash)
  exhausted : ∀ {α : Type}, R (throw .exhausted : EvalM α) (throw .exhausted)
  observe : ∀ activity, R (observe activity) (observe activity)
  get : ∀ {α : Type} {next next' : Machine → EvalM α},
    (∀ machine, R (next machine) (next' machine)) → R (get >>= next) (get >>= next')
  patience : R patience patience
  load : ∀ kind name, R (load kind name) (load kind name)
  modifyScopes : ∀ {change}, (∀ scopes, Scopes.Keeps scopes (change scopes)) →
    R (modifyScopes change) (modifyScopes change)
  writeText : ∀ text, R (writeText text) (writeText text)
  readText : R readText readText

/-- A relation between actions that the building blocks of evaluation respect. -/
structure Compatible (R : {α : Type} → EvalM α → EvalM α → Prop) : Prop extends Sequential R where
  checkCalls : R checkCalls checkCalls
  nested : ∀ {α : Type} {action action' : EvalM α}, R action action' →
    R (nested action) (nested action')
  called : ∀ {α : Type} {action action' : EvalM α}, R action action' →
    R (called action) (called action')
  framed : ∀ {α : Type} {action action' : EvalM α}, R action action' →
    R (framed action) (framed action')
  importingOnce : ∀ {action action'} name, R action action' →
    R (importingOnce name action) (importingOnce name action')

/-- The evaluators of one level further in are related. -/
structure Deeper.Related (R : {α : Type} → EvalM α → EvalM α → Prop) (deeper deeper' : Deeper) :
    Prop where
  statement : ∀ node, R (deeper.statement node) (deeper'.statement node)
  expression : ∀ node, R (deeper.expression node) (deeper'.expression node)

theorem Deeper.Related.carried {R : {α : Type} → EvalM α → EvalM α → Prop} {deeper deeper' : Deeper}
    (related : Deeper.Related R deeper deeper') :
    Deeper.Carried .any (fun {_} [_] => R) deeper deeper' :=
  ⟨fun _ => related.statement _, fun _ => related.expression _⟩

namespace Sequential

variable {R : {α : Type} → EvalM α → EvalM α → Prop} (sequential : Sequential R)
include sequential

theorem fail {α : Type} (error : RuntimeError) : R (fail error : EvalM α) (fail error) :=
  sequential.failure (.runtime error)

theorem orMishap {α : Type} (result : Except Mishap α) : R (orMishap result) (orMishap result) := by
  match result with
  | .ok value => exact sequential.pure value
  | .error (.error cause) => exact sequential.fail cause
  | .error .crash => exact sequential.crash

theorem respects : Respects .any (Value.Every .any) Eq (fun {_} [_] => R) where
  coherent := Trait.coherent_any
  admits := Trait.admits_every
  value := by
    rintro machine _ name rfl -
    exact ⟨rfl, fun value _ => value.every_any⟩
  output := by
    rintro machine _ rfl
    rfl
  pure _ := sequential.pure _
  bind related next :=
    sequential.bind related fun result => next result (HoldsTrees.every_any result)
  get next := sequential.get fun machine => next machine machine rfl
  failure _ := sequential.failure _
  exhausted _ := sequential.exhausted
  applying _ _ _ := sequential.observe _
  operate operator _ _ _ _ := sequential.bind (sequential.observe _) fun _ => sequential.orMishap _
  patience := sequential.patience
  load kind name next := sequential.bind (sequential.load kind name) fun source =>
    next source fun program _ => Statement.everyEach_any program
  assign _ _ := sequential.modifyScopes fun scopes => Scopes.keeps_assign scopes _ _
  define _ _ := by
    apply sequential.modifyScopes
    intro scopes
    split
    · exact .refl scopes
    · exact Scopes.keeps_declare scopes _ _
  declareEach _ := sequential.modifyScopes fun scopes => Scopes.keeps_declareEach scopes _
  writeText := sequential.writeText
  readText := sequential.readText

end Sequential

namespace Compatible

variable {R : {α : Type} → EvalM α → EvalM α → Prop} (compatible : Compatible R)
include compatible

theorem carries : Carries .any Eq (fun {_} [_] => R) where
  toRespects := compatible.respects
  checkCalls := compatible.checkCalls
  nested := compatible.nested
  called := compatible.called
  framed := compatible.framed
  importingOnce := compatible.importingOnce

theorem finish (flow : Flow) : R (finish flow) (finish flow) :=
  compatible.carries.finish (flow.holds_any Value.every_any)

section Rules

variable {deeper deeper' : Deeper} (related : Deeper.Related R deeper deeper')
include related

theorem statements (last : Value) (nodes : List Statement) :
    R (statements deeper last nodes) (statements deeper' last nodes) :=
  compatible.carries.statements related.carried last last.every_any
    (Statement.everyEach_any nodes)

theorem roundsWhile (condition : Expression) (body : List Statement) (step : Option Expression)
    (patience : Nat) :
    R (roundsWhile deeper condition body step patience)
      (roundsWhile deeper' condition body step patience) :=
  compatible.carries.roundsWhile related.carried ⟨.whileLoop condition body, trivial, trivial⟩
    condition.every_any (Statement.everyEach_any body) (fun step _ => step.every_any) patience

theorem forLoop (start condition step : Expression) (body : List Statement) (patience : Nat) :
    R (do discard (deeper.expression start)
          Evaluation.roundsWhile deeper condition body (some step) patience)
      (do discard (deeper'.expression start)
          Evaluation.roundsWhile deeper' condition body (some step) patience) :=
  compatible.carries.forLoop related.carried (Statement.every_any _) patience

theorem statement (node : Statement) : R (statement deeper node) (statement deeper' node) :=
  compatible.carries.layered.statement related.carried node.every_any

theorem expression (node : Expression) : R (expression deeper node) (expression deeper' node) :=
  compatible.carries.layered.expression related.carried node.every_any

end Rules

end Compatible

end Easel.Evaluation
