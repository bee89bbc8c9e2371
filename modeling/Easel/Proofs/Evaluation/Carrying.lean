import Easel.Proofs.Bindings
import Easel.Proofs.Evaluation.Runs

/-!
What holds of evaluation because it holds of its building blocks and of the trees that are
evaluated. A condition on trees and one on values are respected by a relation between actions if
the primitive actions stand in it to themselves and sequences of actions carry it on, as long as
only allowed names are asked for and only good values are stored. What an action may rely on comes
from the actions before it: a relation speaks of two actions and of the values they can return.

Frames, calls and imports are where the levels of evaluation come in. A rule opens at most one of
each before it goes one level further in, so there are two relations: one for what is done inside
them, and a looser one for the rule as a whole. The rules for statements and expressions are put
together from these blocks alone, so whatever is evaluated, called or imported, values stay good
and the relation goes from the evaluators of one level further in to the rules that use them. Where
nothing depends on how many frames are open, one relation serves for both.

Some failures stand apart. Only where a function, a unit or a program ends can a signal turn out to
have no loop, and what is known of its code decides that. Only the reader of a unit can refuse its
text, and only an operator its operands. The rules for everything else do without these failures, so
that they also serve a relation that excludes some of them.

A property of single actions is the case of a relation that ignores its second side.
-/

namespace Easel

/-- A type of results that may hold values and trees. -/
class HoldsTrees (α : Type) where
  /-- The values are good, and the trees satisfy the condition. -/
  Holds : Trait → (Value → Prop) → α → Prop
  holds_any : ∀ {good : Value → Prop}, (∀ value, good value) → ∀ result, Holds .any good result

namespace HoldsTrees

abbrev Every {α : Type} [HoldsTrees α] (trait : Trait) (result : α) : Prop :=
  Holds trait (Value.Every trait) result

theorem every_any {α : Type} [HoldsTrees α] (result : α) : Every .any result :=
  holds_any Value.every_any result

instance : HoldsTrees Unit := ⟨fun _ _ _ => True, fun _ _ => trivial⟩

instance : HoldsTrees Nat := ⟨fun _ _ _ => True, fun _ _ => trivial⟩

instance : HoldsTrees String := ⟨fun _ _ _ => True, fun _ _ => trivial⟩

instance : HoldsTrees Value := ⟨fun _ good value => good value, fun all value => all value⟩

instance : HoldsTrees (List Value) :=
  ⟨fun _ good values => ∀ value ∈ values, good value, fun all _ value _ => all value⟩

end HoldsTrees

/-- The value that a statement ends with is good. -/
def Flow.Holds (good : Value → Prop) : Flow → Prop
  | .normal value | .ret value => good value
  | .breakLoop | .continueLoop => True

theorem Flow.holds_any {good : Value → Prop} (all : ∀ value, good value) (flow : Flow) :
    flow.Holds good := by
  cases flow with
  | normal value | ret value => exact all value
  | breakLoop | continueLoop => trivial

instance : HoldsTrees Flow := ⟨fun _ good flow => flow.Holds good, Flow.holds_any⟩

instance : HoldsTrees (Option Flow) :=
  ⟨fun _ good ended => ∀ flow, ended = some flow → flow.Holds good,
    fun all _ flow _ => flow.holds_any all⟩

/-- Every unit that can be loaded and read satisfies the condition. -/
def Source.Loader.Every (trait : Trait) (loader : Source.Loader) : Prop :=
  ∀ kind name source program, loader kind name = .ok source →
    Program.parse source = .ok program → Statement.EveryEach trait program

/-- The loader itself fails for this reason, whatever unit it is asked for then. -/
def Source.Loader.Fails (loader : Source.Loader) (cause : Failure) : Prop :=
  ∃ kind name error, loader kind name = .error error ∧ cause = .runtime error

/-- No failure of this kind is the loader's own. -/
def Source.Loader.Spares (loader : Source.Loader) (excused : Failure → Prop) : Prop :=
  ∀ cause, loader.Fails cause → ¬excused cause

theorem Source.Loader.spares_ofUnits {excused : Failure → Prop}
    (other : ∀ name fault, ¬excused (.runtime (.importFailed name fault)))
    (units : List (String × String)) : (Source.Loader.ofUnits units).Spares excused := by
  rintro _ ⟨kind, name, error, failed, rfl⟩
  unfold Source.Loader.ofUnits at failed
  split at failed
  · cases failed
  · cases failed
    exact other name _

theorem Source.Loader.spares_ofFiles {excused : Failure → Prop}
    (other : ∀ name fault, ¬excused (.runtime (.importFailed name fault)))
    (library : Source.Library) (read : String → Option (Except Source.ReadFault String)) :
    (Source.Loader.ofFiles library read).Spares excused := by
  rintro _ ⟨kind, name, error, failed, rfl⟩
  unfold Source.Loader.ofFiles at failed
  dsimp only at failed
  split at failed
  · cases failed
  · cases failed
    exact other name _
  · cases failed
    exact other name _

namespace Evaluation

open EvalM

def HasRounds : Statement → Prop
  | .whileLoop .. | .forLoop .. => True
  | _ => False

def AllowsRounds (trait : Trait) : Prop :=
  ∃ node, HasRounds node ∧ trait.onStatement node

/-- The failures that have a place of their own where they come up. -/
def IsReserved : Failure → Prop
  | .misread _ | .runtime (.signalOutsideLoop _) | .runtime (.unknownBinary ..)
  | .runtime (.typeMismatch ..) => True
  | _ => False

/-- The failures that come up elsewhere than where an operator refuses its operands. -/
def ArisesElsewhere : Failure → Prop
  | .misread error => ∃ source, Program.parse source = .error error
  | .runtime (.unknownBinary ..) | .runtime (.typeMismatch ..) => False
  | _ => True

theorem arisesElsewhere_of_not_isReserved {cause : Failure} (plain : ¬IsReserved cause) :
    ArisesElsewhere cause := by
  unfold ArisesElsewhere
  split
  · exact absurd trivial plain
  · exact plain trivial
  · exact plain trivial
  · trivial

/-- A relation between actions that the primitive actions and their sequences respect, as long as
the results are good and the failures are none of those that stand apart. `Like` is what the relation
supposes of the machines on the two sides. -/
structure Sustains (trait : Trait) (good : Value → Prop) (Like : Machine → Machine → Prop)
    (R : {α : Type} → [HoldsTrees α] → EvalM α → EvalM α → Prop) : Prop where
  coherent : trait.Coherent
  admits : trait.Admits good
  value : ∀ {machine other name}, Like machine other → trait.Allows name →
    other.scopes.get? name = machine.scopes.get? name ∧
      ∀ value, machine.scopes.get? name = some value → good value
  output : ∀ {machine other}, Like machine other → other.output.flush = machine.output.flush
  pure : ∀ {α : Type} [HoldsTrees α] {result : α}, HoldsTrees.Holds trait good result →
    R (pure result) (pure result)
  bind : ∀ {α β : Type} [HoldsTrees α] [HoldsTrees β] {action action' : EvalM α}
    {next next' : α → EvalM β}, R action action' →
    (∀ result, HoldsTrees.Holds trait good result → R (next result) (next' result)) →
    R (action >>= next) (action' >>= next')
  get : ∀ {α : Type} [HoldsTrees α] {next next' : Machine → EvalM α},
    (∀ machine other, Like machine other → R (next machine) (next' other)) →
    R (get >>= next) (get >>= next')
  refusal : ∀ {α : Type} [HoldsTrees α] {cause : Failure}, ¬IsReserved cause →
    R (throw (.failure cause) : EvalM α) (throw (.failure cause))
  exhausted : ∀ {α : Type} [HoldsTrees α], AllowsRounds trait →
    R (throw .exhausted : EvalM α) (throw .exhausted)
  applying : ∀ builtin {arguments}, (∀ value ∈ arguments, good value) →
    R (observe (.applying builtin arguments)) (observe (.applying builtin arguments))
  operate : ∀ operator {left right}, good left → good right →
    R (operate operator left right) (operate operator left right)
  patience : R patience patience
  assign : ∀ {name value}, trait.Allows name → good value →
    R (modifyScopes (·.assign name value)) (modifyScopes (·.assign name value))
  define : ∀ {name value}, trait.Allows name → good value →
    let declare : Scopes → Scopes := fun scopes =>
      if scopes.isLocal name then scopes else scopes.declare name value
    R (modifyScopes declare) (modifyScopes declare)
  declareEach : ∀ {bindings : List (String × Value)},
    (∀ binding ∈ bindings, trait.Allows binding.1 ∧ good binding.2) →
    R (modifyScopes (·.declareEach bindings)) (modifyScopes (·.declareEach bindings))
  writeText : ∀ text, R (writeText text) (writeText text)
  readText : R readText readText

/-- A relation that also a signal without a loop, a text that is no program and a loader that fails
respect. -/
structure Respects (trait : Trait) (good : Value → Prop) (Like : Machine → Machine → Prop)
    (R : {α : Type} → [HoldsTrees α] → EvalM α → EvalM α → Prop) : Prop
    extends Sustains trait good Like R where
  failure : ∀ {α : Type} [HoldsTrees α] {cause : Failure}, ArisesElsewhere cause →
    R (throw (.failure cause) : EvalM α) (throw (.failure cause))
  load : ∀ {α : Type} [HoldsTrees α] {next next' : String → EvalM α} kind name,
    (∀ source, (∀ program, Program.parse source = .ok program → Statement.EveryEach trait program) →
      R (next source) (next' source)) →
    R (load kind name >>= next) (load kind name >>= next')
  refusal := fun plain => failure (arisesElsewhere_of_not_isReserved plain)

structure Framing (trait : Trait) (good : Value → Prop) (Like : Machine → Machine → Prop)
    (R S : {α : Type} → [HoldsTrees α] → EvalM α → EvalM α → Prop) : Prop where
  inner : Sustains trait good Like R
  outer : Sustains trait good Like S
  loosen : ∀ {α : Type} [HoldsTrees α] {action action' : EvalM α}, R action action' →
    S action action'
  framed : ∀ {α : Type} [HoldsTrees α] {action action' : EvalM α}, R action action' →
    S (framed action) (framed action')

/-- A relation for what a rule does inside a frame, a call or an import, and a looser one for the
rule as a whole. -/
structure Layered (trait : Trait) (good : Value → Prop) (Like : Machine → Machine → Prop)
    (R S : {α : Type} → [HoldsTrees α] → EvalM α → EvalM α → Prop) : Prop where
  inner : Respects trait good Like R
  outer : Respects trait good Like S
  loosen : ∀ {α : Type} [HoldsTrees α] {action action' : EvalM α}, R action action' →
    S action action'
  framed : ∀ {α : Type} [HoldsTrees α] {action action' : EvalM α}, R action action' →
    S (framed action) (framed action')
  called : ∀ {α : Type} [HoldsTrees α] {action action' : EvalM α}, R action action' →
    S (do checkCalls; called (EvalM.framed action)) (do checkCalls; called (EvalM.framed action'))
  importingOnce : ∀ {action action'} name, R action action' →
    S (importingOnce name action) (importingOnce name action')

/-- One relation that all building blocks of evaluation respect, as long as the functions among
the results satisfy the condition. -/
structure Carries (trait : Trait) (Like : Machine → Machine → Prop)
    (R : {α : Type} → [HoldsTrees α] → EvalM α → EvalM α → Prop) : Prop
    extends Respects trait (Value.Every trait) Like R where
  admits := Trait.admits_every
  checkCalls : R checkCalls checkCalls
  nested : ∀ {α : Type} [HoldsTrees α] {action action' : EvalM α}, R action action' →
    R (nested action) (nested action')
  called : ∀ {α : Type} [HoldsTrees α] {action action' : EvalM α}, R action action' →
    R (called action) (called action')
  framed : ∀ {α : Type} [HoldsTrees α] {action action' : EvalM α}, R action action' →
    R (framed action) (framed action')
  importingOnce : ∀ {action action'} name, R action action' →
    R (importingOnce name action) (importingOnce name action')

/-- The evaluators of one level further in are related on the trees that satisfy the
condition. -/
structure Deeper.Carried (trait : Trait)
    (R : {α : Type} → [HoldsTrees α] → EvalM α → EvalM α → Prop) (deeper deeper' : Deeper) :
    Prop where
  statement : ∀ {node : Statement}, node.Every trait →
    R (deeper.statement node) (deeper'.statement node)
  expression : ∀ {node : Expression}, node.Every trait →
    R (deeper.expression node) (deeper'.expression node)

/-- What a rule comes to by a name is related: the functions that are called, and the units that are
imported. -/
structure Deeper.Entered (good : Value → Prop)
    (S : {α : Type} → [HoldsTrees α] → EvalM α → EvalM α → Prop) (deeper deeper' : Deeper) :
    Prop where
  callFunction : ∀ name {definition arguments}, good (.function definition) →
    (∀ argument ∈ arguments, good argument) →
    S (callFunction deeper name definition arguments) (callFunction deeper' name definition arguments)
  importUnit : ∀ kind name, S (importUnit deeper kind name) (importUnit deeper' kind name)

namespace Sustains

variable {trait : Trait} {good : Value → Prop} {Like : Machine → Machine → Prop}
  {R : {α : Type} → [HoldsTrees α] → EvalM α → EvalM α → Prop}
  (sustains : Sustains trait good Like R)
include sustains

section Blocks

variable {α : Type} [HoldsTrees α]

theorem ignore {action action' : EvalM α} (related : R action action') :
    R (discard action) (discard action') := by
  change R ((fun _ => ()) <$> action) ((fun _ => ()) <$> action')
  rw [map_eq_pure_bind, map_eq_pure_bind]
  exact sustains.bind related fun result _ => sustains.pure trivial

theorem fail (error : RuntimeError) (plain : ¬IsReserved (.runtime error)) :
    R (fail error : EvalM α) (fail error) :=
  sustains.refusal plain

theorem orFail {result : Except RuntimeError α}
    (made : ∀ value, result = .ok value → HoldsTrees.Holds trait good value)
    (plain : ∀ cause, result = .error cause → ¬IsReserved (.runtime cause)) :
    R (orFail result) (orFail result) := by
  cases result with
  | ok value => exact sustains.pure (made value rfl)
  | error cause => exact sustains.fail cause (plain cause rfl)

theorem lookup {name : String} (allowed : trait.Allows name) :
    R (lookup name) (lookup name) := by
  apply sustains.get
  intro machine other like
  obtain ⟨same, every⟩ := sustains.value like allowed
  rw [same]
  split
  · next found => exact sustains.pure (every _ found)
  · exact sustains.fail _ id

theorem flush : R flush flush := by
  apply sustains.get
  intro machine other like
  rw [sustains.output like]
  split
  · exact sustains.pure trivial
  · exact sustains.fail _ id

theorem increment (operator : UnaryOperator) (step : Int) {target : Expression}
    (every : target.Every trait) :
    R (increment operator step target) (increment operator step target) := by
  cases target with
  | identifier name =>
      apply sustains.bind (sustains.lookup every)
      intro value _
      split
      · apply sustains.bind
        · exact sustains.assign every (sustains.admits.number _)
        · exact fun _ _ => sustains.pure (sustains.admits.number _)
      · exact sustains.fail _ id
  | _ => exact sustains.fail _ id

theorem singleArgument (builtin : Builtin) {arguments : List Value}
    (each : ∀ argument ∈ arguments, good argument) :
    R (singleArgument builtin arguments) (singleArgument builtin arguments) := by
  rw [Evaluation.singleArgument.eq_def]
  split
  · exact sustains.pure (each _ (List.mem_singleton_self _))
  · exact sustains.fail _ id

theorem textArgument (builtin : Builtin) (argument : Value) :
    R (textArgument builtin argument) (textArgument builtin argument) := by
  rw [Evaluation.textArgument]
  split
  · exact sustains.pure trivial
  · exact sustains.fail _ id

theorem printFormatted (arguments : List Value) :
    R (printFormatted arguments) (printFormatted arguments) := by
  cases arguments with
  | nil => exact sustains.fail _ id
  | cons template values =>
      apply sustains.bind (sustains.textArgument .printf template)
      intro content _
      dsimp only
      split
      · exact sustains.bind (sustains.writeText _) fun _ _ => sustains.pure sustains.admits.none
      · exact sustains.fail _ id

theorem defineFunction {definition : Definition}
    (allowed : trait.onExpression (.function definition))
    (every : definition.Every trait) :
    R (Evaluation.define definition) (Evaluation.define definition) := by
  rw [Evaluation.define]
  split
  · exact sustains.pure trivial
  · next named =>
      have made := sustains.admits.function.mpr ⟨allowed, every⟩
      exact sustains.define (sustains.coherent.name allowed named) made

end Blocks

section Rules

variable {deeper deeper' : Deeper} (carried : Deeper.Carried trait R deeper deeper')
include carried

theorem statements (last : Value) (ready : good last) {nodes : List Statement}
    (every : Statement.EveryEach trait nodes) :
    R (statements deeper last nodes) (statements deeper' last nodes) := by
  induction nodes generalizing last with
  | nil => exact sustains.pure ready
  | cons node rest induction =>
      apply sustains.bind (carried.statement every.1)
      intro flow holds
      cases flow with
      | normal value => exact induction value holds every.2
      | _ => exact sustains.pure holds

theorem body {nodes : List Statement} (every : Statement.EveryEach trait nodes) :
    R (Evaluation.statements deeper .none nodes)
      (Evaluation.statements deeper' .none nodes) :=
  sustains.statements carried .none sustains.admits.none every

theorem expressions (found : List Value) (ready : ∀ value ∈ found, good value)
    {nodes : List Expression} (every : Expression.EveryEach trait nodes) :
    R (expressions deeper found nodes) (expressions deeper' found nodes) := by
  induction nodes generalizing found with
  | nil => exact sustains.pure fun value member => ready value (List.mem_reverse.mp member)
  | cons node rest induction =>
      apply sustains.bind (carried.expression every.1)
      intro value made
      exact induction (value :: found) (List.forall_mem_cons.mpr ⟨made, ready⟩) every.2

theorem arguments {nodes : List Expression} (every : Expression.EveryEach trait nodes) :
    R (Evaluation.expressions deeper [] nodes) (Evaluation.expressions deeper' [] nodes) :=
  sustains.expressions carried [] nofun every

theorem round {nodes : List Statement} (every : Statement.EveryEach trait nodes) :
    R (round deeper nodes)
      (round deeper' nodes) := by
  apply sustains.bind (sustains.body carried every)
  intro flow holds
  cases flow with
  | normal | continueLoop => exact sustains.pure nofun
  | breakLoop =>
      apply sustains.pure
      rintro _ ⟨⟩
      exact sustains.admits.none
  | ret value =>
      apply sustains.pure
      rintro _ ⟨⟩
      exact holds

theorem roundsWhile (allowed : AllowsRounds trait) {condition : Expression}
    (everyCondition : condition.Every trait) {nodes : List Statement}
    (every : Statement.EveryEach trait nodes) {step : Option Expression}
    (everyStep : ∀ expression, step = some expression → expression.Every trait) (patience : Nat) :
    R (roundsWhile deeper condition nodes step patience)
      (roundsWhile deeper' condition nodes step patience) := by
  induction patience with
  | zero => exact sustains.exhausted allowed
  | succ patience induction =>
      apply sustains.bind (carried.expression everyCondition)
      intro value _
      split
      · apply sustains.bind (sustains.round carried every)
        intro ended holds
        cases ended with
        | some flow => exact sustains.pure (holds flow rfl)
        | none =>
            cases step with
            | some step =>
                apply sustains.bind (sustains.ignore (carried.expression (everyStep step rfl)))
                exact fun _ _ => induction
            | none => exact induction
      · exact sustains.pure sustains.admits.none

theorem roundsCounted {nodes : List Statement} (every : Statement.EveryEach trait nodes)
    (count : Nat) :
    R (roundsCounted deeper nodes count) (roundsCounted deeper' nodes count) := by
  induction count with
  | zero => exact sustains.pure sustains.admits.none
  | succ count induction =>
      apply sustains.bind (sustains.round carried every)
      intro ended holds
      cases ended with
      | some flow => exact sustains.pure (holds flow rfl)
      | none => exact induction

theorem branches {alternatives : Alternatives} (every : alternatives.Every trait) :
    R (branches deeper alternatives) (branches deeper' alternatives) := by
  match alternatives with
  | .none => exact sustains.pure sustains.admits.none
  | .otherwise nodes => exact sustains.body carried every
  | .branch condition nodes rest =>
      obtain ⟨everyCondition, everyNode, everyRest⟩ := every
      apply sustains.bind (carried.expression everyCondition)
      intro value _
      split
      · exact sustains.body carried everyNode
      · exact branches everyRest

theorem forLoop {start condition step : Expression} {nodes : List Statement}
    (every : (Statement.forLoop start condition step nodes).Every trait) (patience : Nat) :
    R
      (do discard (deeper.expression start)
          Evaluation.roundsWhile deeper condition nodes (some step) patience)
      (do discard (deeper'.expression start)
          Evaluation.roundsWhile deeper' condition nodes (some step) patience) := by
  obtain ⟨allowed, everyStart, everyCondition, everyStep, everyNode⟩ := every
  apply sustains.bind (sustains.ignore (carried.expression everyStart))
  intro _ _
  apply sustains.roundsWhile carried ⟨.forLoop start condition step nodes, trivial, allowed⟩
    everyCondition everyNode
  rintro _ ⟨⟩
  exact everyStep

theorem unary (operator : UnaryOperator) {operand : Expression} (every : operand.Every trait) :
    R (unary deeper operator operand) (unary deeper' operator operand) := by
  rw [Evaluation.unary, Evaluation.unary]
  split
  · exact sustains.increment operator _ every
  · apply sustains.bind (carried.expression every)
    intro value _
    apply sustains.orFail
    · intro result made
      obtain ⟨n, rfl⟩ := Value.exists_number_of_unary made
      exact sustains.admits.number n
    · intro cause refused
      rw [Value.eq_unknownUnary_of_unary refused]
      exact id

theorem binary (operator : BinaryOperator) {left right : Expression} (everyLeft : left.Every trait)
    (everyRight : right.Every trait) :
    R (binary deeper operator left right) (binary deeper' operator left right) := by
  rw [Evaluation.binary, Evaluation.binary]
  split
  · exact sustains.fail _ id
  · apply sustains.bind (carried.expression everyLeft)
    intro leftValue goodLeft
    apply sustains.bind (carried.expression everyRight)
    exact fun rightValue goodRight => sustains.operate operator goodLeft goodRight

theorem assignment (operator : AssignOperator) {name : String} (allowed : trait.Allows name)
    {value : Expression} (every : value.Every trait) :
    R (Evaluation.assign deeper operator name value)
      (Evaluation.assign deeper' operator name value) := by
  apply sustains.bind (carried.expression every)
  intro right goodRight
  have stored : ∀ result : Value, good result →
      R (do modifyScopes (·.assign name result); Pure.pure result)
        (do modifyScopes (·.assign name result); Pure.pure result) := by
    intro result made
    apply sustains.bind (sustains.assign allowed made)
    exact fun _ _ => sustains.pure made
  dsimp only
  split
  · apply sustains.bind (sustains.lookup allowed)
    intro left goodLeft
    exact sustains.bind (sustains.operate _ goodLeft goodRight) stored
  · exact sustains.bind (sustains.pure goodRight) stored

theorem unitStatement {node : Statement} (every : node.Every trait) :
    R (unitStatement deeper node) (unitStatement deeper' node) := by
  cases node with
  | block nodes => exact sustains.body carried every.2
  | _ => exact carried.statement every

end Rules

end Sustains

namespace Respects

variable {trait : Trait} {good : Value → Prop} {Like : Machine → Machine → Prop}
  {R : {α : Type} → [HoldsTrees α] → EvalM α → EvalM α → Prop}
  (respects : Respects trait good Like R)
include respects

theorem finish {flow : Flow} (holds : flow.Holds good) :
    R (finish flow) (finish flow) := by
  cases flow with
  | normal value => exact respects.pure holds
  | ret value => exact respects.pure holds
  | breakLoop => exact respects.failure trivial
  | continueLoop => exact respects.failure trivial

theorem unitStatements {deeper deeper' : Deeper} (carried : Deeper.Carried trait R deeper deeper')
    {nodes : List Statement} (every : Statement.EveryEach trait nodes) :
    R (unitStatements deeper nodes) (unitStatements deeper' nodes) := by
  induction nodes with
  | nil => exact respects.pure trivial
  | cons node rest induction =>
      apply respects.bind (respects.unitStatement carried every.1)
      intro flow holds
      apply respects.bind (respects.ignore (respects.finish holds))
      intro _ _
      cases flow with
      | ret value => exact respects.pure trivial
      | _ => exact induction every.2

end Respects

namespace Framing

variable {trait : Trait} {good : Value → Prop} {Like : Machine → Machine → Prop}
  {R S : {α : Type} → [HoldsTrees α] → EvalM α → EvalM α → Prop}
  (framing : Framing trait good Like R S)
  {deeper deeper' : Deeper} (carried : Deeper.Carried trait R deeper deeper')
include framing carried

theorem repeatLoop {count : Expression} (everyCount : count.Every trait) {nodes : List Statement}
    (every : Statement.EveryEach trait nodes) :
    S (repeatLoop deeper count nodes) (repeatLoop deeper' count nodes) := by
  apply framing.outer.bind (framing.loosen (carried.expression everyCount))
  intro value _
  dsimp only
  split
  · exact framing.framed (framing.inner.roundsCounted carried every _)
  · exact framing.outer.fail _ id

theorem statement {node : Statement} (every : node.Every trait) :
    S (statement deeper node) (statement deeper' node) := by
  have inner := framing.inner
  have outer := framing.outer
  cases node with
  | block nodes => exact framing.framed (inner.body carried every.2)
  | conditional condition nodes alternatives =>
      exact framing.loosen (inner.branches carried every.2)
  | whileLoop condition nodes =>
      apply outer.bind outer.patience
      intro rounds _
      have allowed : AllowsRounds trait := ⟨.whileLoop condition nodes, trivial, every.1⟩
      have unstepped : ∀ step : Expression, none = some step → step.Every trait := nofun
      apply framing.framed
      exact inner.roundsWhile carried allowed every.2.1 every.2.2 unstepped rounds
  | forLoop start condition step nodes =>
      apply outer.bind outer.patience
      intro rounds _
      exact framing.framed (inner.forLoop carried every rounds)
  | foreachLoop item items nodes => exact outer.fail _ id
  | repeatLoop count nodes => exact framing.repeatLoop carried every.2.1 every.2.2
  | definition definition =>
      apply outer.bind (outer.defineFunction (outer.coherent.definition every.1) every.2)
      exact fun _ _ => outer.pure outer.admits.none
  | ret value =>
      apply outer.bind (framing.loosen (carried.expression every.2))
      exact fun _ made => outer.pure made
  | breakLoop => exact outer.pure trivial
  | continueLoop => exact outer.pure trivial
  | expression expression =>
      apply outer.bind (framing.loosen (carried.expression every.2))
      exact fun _ made => outer.pure made
  | empty => exact outer.pure outer.admits.none

section Entered

variable (entered : Deeper.Entered good S deeper deeper')
include entered

omit carried in
theorem applyBuiltin (builtin : Builtin) {arguments : List Value}
    (each : ∀ argument ∈ arguments, good argument) :
    S (applyBuiltin deeper builtin arguments)
      (applyBuiltin deeper' builtin arguments) := by
  have outer := framing.outer
  apply outer.bind (outer.applying builtin each)
  intro _ _
  cases builtin with
  | print => exact outer.bind (outer.writeText _) fun _ _ => outer.pure outer.admits.none
  | printf => exact outer.printFormatted arguments
  | input =>
      apply outer.bind (outer.writeText _)
      intro _ _
      apply outer.bind outer.flush
      intro _ _
      exact outer.bind outer.readText fun _ _ => outer.pure (outer.admits.content _)
  | toNum =>
      apply outer.bind (outer.singleArgument .toNum each)
      intro argument _
      apply outer.bind (outer.textArgument .toNum argument)
      intro content _
      split
      · exact outer.pure (outer.admits.number _)
      · exact outer.fail _ id
  | toStr =>
      apply outer.bind (outer.singleArgument .toStr each)
      intro argument _
      split
      · exact outer.pure (outer.admits.content _)
      · exact outer.fail _ id
  | error =>
      apply outer.bind (outer.singleArgument .error each)
      intro argument _
      apply outer.bind (outer.textArgument .error argument)
      exact fun message _ => outer.refusal id
  | importUnit =>
      dsimp only
      split
      · apply outer.bind (outer.textArgument .importUnit _)
        intro spelling _
        split
        · apply outer.bind (outer.textArgument .importUnit _)
          exact fun name _ => entered.importUnit _ name
        · exact outer.fail _ id
      · exact outer.fail _ id

theorem call {name : String} (allowed : trait.Allows name) {arguments : List Expression}
    (every : Expression.EveryEach trait arguments) :
    S (call deeper name arguments) (call deeper' name arguments) := by
  have outer := framing.outer
  have evaluated := framing.loosen (framing.inner.arguments carried every)
  apply outer.get
  intro machine other like
  obtain ⟨same, goodFound⟩ := outer.value like allowed
  rw [same]
  split
  · next found =>
      apply outer.bind evaluated
      exact fun values each => entered.callFunction name (goodFound _ found) each
  · exact outer.fail _ id
  · split
    · exact outer.bind evaluated fun values each => framing.applyBuiltin entered _ each
    · exact outer.fail _ id

theorem expression {node : Expression} (every : node.Every trait) :
    S (expression deeper node) (expression deeper' node) := by
  have inner := framing.inner
  have outer := framing.outer
  cases node with
  | identifier name => exact outer.lookup every
  | literal literal => exact outer.pure (outer.admits.literal every)
  | unary operator operand => exact framing.loosen (inner.unary carried operator every.2)
  | binary operator left right =>
      exact framing.loosen (inner.binary carried operator every.2.1 every.2.2)
  | assign operator name value =>
      have allowed := inner.coherent.assign every.1
      exact framing.loosen (inner.assignment carried operator allowed every.2)
  | call name arguments => exact framing.call carried entered (outer.coherent.call every.1) every.2
  | list items =>
      apply outer.bind (framing.loosen (inner.arguments carried every.2))
      exact fun values each => outer.pure (outer.admits.list.mpr each)
  | function definition => exact outer.pure (outer.admits.function.mpr every)

end Entered

end Framing

namespace Layered

variable {trait : Trait} {good : Value → Prop} {Like : Machine → Machine → Prop}
  {R S : {α : Type} → [HoldsTrees α] → EvalM α → EvalM α → Prop}
  (layered : Layered trait good Like R S)
include layered

theorem framing : Framing trait good Like R S :=
  ⟨layered.inner.toSustains, layered.outer.toSustains, layered.loosen, layered.framed⟩

variable {deeper deeper' : Deeper} (carried : Deeper.Carried trait R deeper deeper')
include carried

theorem callFunction (name : String) {definition : Definition}
    (called : good (.function definition)) {arguments : List Value}
    (each : ∀ argument ∈ arguments, good argument) :
    S (callFunction deeper name definition arguments)
      (callFunction deeper' name definition arguments) := by
  have inner := layered.inner
  obtain ⟨allowed, everyBody⟩ := inner.admits.function.mp called
  have bound : ∀ binding ∈ definition.parameters.zip arguments,
      trait.Allows binding.1 ∧ good binding.2 := by
    rintro ⟨parameter, argument⟩ member
    obtain ⟨listed, given⟩ := List.of_mem_zip member
    exact ⟨inner.coherent.parameter allowed listed, each argument given⟩
  rw [Evaluation.callFunction, Evaluation.callFunction]
  split
  · exact layered.outer.fail _ id
  · rw [← bind_assoc, ← bind_assoc]
    apply layered.outer.bind
    · apply layered.called
      apply inner.bind (inner.declareEach bound)
      intro _ _
      cases definition with
      | mk => exact inner.body carried everyBody
    · exact fun flow holds => layered.outer.finish holds

theorem importUnit (kind : Source.ImportKind) (name : String) :
    S (importUnit deeper kind name) (importUnit deeper' kind name) := by
  have inner := layered.inner
  apply layered.outer.bind
  · apply layered.importingOnce
    apply inner.load kind name
    intro source everyRead
    cases parsed : Program.parse source with
    | error error => exact inner.failure ⟨source, parsed⟩
    | ok program => exact inner.unitStatements carried (everyRead program parsed)
  · exact fun _ _ => layered.outer.pure inner.admits.none

theorem entered : Deeper.Entered good S deeper deeper' :=
  ⟨fun name _ _ called each => layered.callFunction carried name called each,
    layered.importUnit carried⟩

theorem statement {node : Statement} (every : node.Every trait) :
    S (statement deeper node) (statement deeper' node) :=
  layered.framing.statement carried every

theorem expression {node : Expression} (every : node.Every trait) :
    S (expression deeper node) (expression deeper' node) :=
  layered.framing.expression carried (layered.entered carried) every

end Layered

theorem Layered.carried_within {trait : Trait} {good : Value → Prop}
    {Like : Machine → Machine → Prop}
    {R : {α : Type} → [HoldsTrees α] → EvalM α → EvalM α → Prop}
    (layered : Layered trait good Like R R)
    (nested : ∀ {α : Type} [HoldsTrees α] {action action' : EvalM α}, R action action' →
      R (nested action) (nested action'))
    (tooDeep : ∀ {α : Type} [HoldsTrees α], R (tooDeep : EvalM α) tooDeep) (room : Nat) :
    Deeper.Carried trait R (within room) (within room) := by
  induction room with
  | zero => exact ⟨fun _ => tooDeep, fun _ => tooDeep⟩
  | succ room induction =>
      constructor
      · exact fun every => nested (layered.statement induction every)
      · exact fun every => nested (layered.expression induction every)

namespace Carries

variable {trait : Trait} {Like : Machine → Machine → Prop}
  {R : {α : Type} → [HoldsTrees α] → EvalM α → EvalM α → Prop} (carries : Carries trait Like R)
include carries

theorem layered : Layered trait (Value.Every trait) Like R R where
  inner := carries.toRespects
  outer := carries.toRespects
  loosen := id
  framed := carries.framed
  called related :=
    carries.bind carries.checkCalls fun _ _ => carries.called (carries.framed related)
  importingOnce := carries.importingOnce

section Within

variable (tooDeep : ∀ {α : Type} [HoldsTrees α], R (tooDeep : EvalM α) tooDeep)
include tooDeep

theorem evaluated (room : Nat) {tree : Program} (every : Statement.EveryEach trait tree) :
    R (do Evaluation.finish (← Evaluation.statements (within room) .none tree))
      (do Evaluation.finish (← Evaluation.statements (within room) .none tree)) := by
  apply carries.bind
  · exact carries.body (carries.layered.carried_within carries.nested tooDeep room) every
  · exact fun flow holds => carries.finish holds

end Within

end Carries

end Evaluation

end Easel
