import Easel.Proofs.Evaluation.Abbreviation
import Easel.Proofs.Evaluation.Avoiding
import Easel.Proofs.Grammar.Weight

/-!
What the limit on nesting is worth to evaluation. A program without calls takes as many levels of
evaluation as its parts lie inside one another, and the reader bounds these, with the exception of
left operands. The levels therefore suffice for every program that can be read, unless operators
are applied to the results of operators some thousand times over.
-/

namespace Easel

/-- The condition that a tree holds no call. -/
def Trait.uncalled : Trait where
  onExpression
    | .call .. => False
    | _ => True
  onStatement _ := True

instance : DecidablePred Trait.uncalled.onExpression
  | .call .. => isFalse id
  | .identifier _ | .literal _ | .unary .. | .binary .. | .assign .. | .list _ | .function _ =>
      isTrue trivial

instance : DecidablePred Trait.uncalled.onStatement := fun _ => isTrue trivial

theorem Expression.weight_pos (node : Expression) : 0 < node.weight 1 0 := by
  cases node <;> simp only [Expression.weight] <;> omega

theorem Statement.weight_pos (node : Statement) : 0 < node.weight 1 0 := by
  cases node <;> simp only [Statement.weight] <;> omega

namespace Evaluation

open EvalM

variable {α : Type}

/-- The action does not fail for want of levels. -/
abbrev Roomy (action : EvalM α) : Prop :=
  Avoids (fun _ => IsLevelLimit) action

theorem roomy_operate (operator : BinaryOperator) (left right : Value) :
    Roomy (operate operator left right) := by
  apply avoids_operate
  intro _ cause made levels
  have refusal := Value.refuses_binary operator left right cause made
  cases cause with
  | evaluationDepthExceeded limit => exact refusal
  | _ => exact levels

theorem roomy_define (definition : Definition) : Roomy (define definition) := by
  unfold define
  split
  · exact avoids_pure _
  · exact avoids_modifyScopes _

theorem roomy_increment (operator : UnaryOperator) (step : Int) (operand : Expression) :
    Roomy (increment operator step operand) := by
  cases operand with
  | identifier name =>
      apply (avoids_lookup fun _ => id).bind
      intro value
      cases value with
      | number n => exact (avoids_modifyScopes _).bind fun _ => avoids_pure _
      | text _ | function _ | list _ | none => exact avoids_fail fun _ => id
  | _ => exact avoids_fail fun _ => id

/-- The evaluators have levels left for trees without calls that take no more than `room`. -/
structure Deeper.Roomy (deeper : Deeper) (room : Nat) : Prop where
  statement : ∀ {node : Statement}, node.Every .uncalled → node.weight 1 0 ≤ room →
    Evaluation.Roomy (deeper.statement node)
  expression : ∀ {node : Expression}, node.Every .uncalled → node.weight 1 0 ≤ room →
    Evaluation.Roomy (deeper.expression node)

section Rules

variable {deeper : Deeper} {room : Nat} (roomy : deeper.Roomy room)
include roomy

theorem roomy_statements (last : Value) {nodes : List Statement}
    (uncalled : Statement.EveryEach .uncalled nodes)
    (low : Statement.weightEach 1 0 nodes ≤ room) : Roomy (statements deeper last nodes) := by
  induction nodes generalizing last with
  | nil => exact avoids_pure _
  | cons node rest induction =>
      rw [Statement.weightEach, Nat.max_le] at low
      apply (roomy.statement uncalled.1 low.1).bind
      intro flow
      cases flow with
      | normal value => exact induction value uncalled.2 low.2
      | breakLoop | continueLoop | ret value => exact avoids_pure _

theorem roomy_expressions (found : List Value) {nodes : List Expression}
    (uncalled : Expression.EveryEach .uncalled nodes)
    (low : Expression.weightEach 1 0 nodes ≤ room) : Roomy (expressions deeper found nodes) := by
  induction nodes generalizing found with
  | nil => exact avoids_pure _
  | cons node rest induction =>
      rw [Expression.weightEach, Nat.max_le] at low
      apply (roomy.expression uncalled.1 low.1).bind
      exact fun value => induction (value :: found) uncalled.2 low.2

section Bodies

variable {body : List Statement} (uncalledBody : Statement.EveryEach .uncalled body)
  (lowBody : Statement.weightEach 1 0 body ≤ room)
include uncalledBody lowBody

theorem roomy_round : Roomy (round deeper body) := by
  apply (roomy_statements roomy .none uncalledBody lowBody).bind
  intro flow
  cases flow <;> exact avoids_pure _

theorem roomy_roundsWhile {condition : Expression} (uncalled : condition.Every .uncalled)
    (low : condition.weight 1 0 ≤ room) {step : Option Expression}
    (stepped : ∀ expression, step = some expression →
      expression.Every .uncalled ∧ expression.weight 1 0 ≤ room) (patience : Nat) :
    Roomy (roundsWhile deeper condition body step patience) := by
  induction patience with
  | zero => exact avoids_stop (by simp)
  | succ patience induction =>
      apply (roomy.expression uncalled low).bind
      intro value
      split
      · apply (roomy_round roomy uncalledBody lowBody).bind
        intro ended
        cases ended with
        | some flow => exact avoids_pure flow
        | none =>
            cases step with
            | none => exact induction
            | some step =>
                have next := stepped step rfl
                exact (roomy.expression next.1 next.2).discard.bind fun _ => induction
      · exact avoids_pure _

theorem roomy_roundsCounted (count : Nat) : Roomy (roundsCounted deeper body count) := by
  induction count with
  | zero => exact avoids_pure _
  | succ count induction =>
      apply (roomy_round roomy uncalledBody lowBody).bind
      intro ended
      cases ended with
      | some flow => exact avoids_pure flow
      | none => exact induction

theorem roomy_repeatLoop {count : Expression} (uncalled : count.Every .uncalled)
    (low : count.weight 1 0 ≤ room) : Roomy (repeatLoop deeper count body) := by
  apply (roomy.expression uncalled low).bind
  intro value
  dsimp only
  split
  · exact (roomy_roundsCounted roomy uncalledBody lowBody _).bracket fun _ => rfl
  · exact avoids_fail fun _ => id

end Bodies

theorem roomy_branches : {alternatives : Alternatives} → alternatives.Every .uncalled →
    alternatives.weight 1 0 ≤ room → Roomy (branches deeper alternatives)
  | .none, _, _ => avoids_pure _
  | .otherwise _, uncalled, low => roomy_statements roomy .none uncalled low
  | .branch condition body rest, uncalled, low => by
      rw [Alternatives.weight, Nat.max_le, Nat.max_le] at low
      apply (roomy.expression uncalled.1 low.1).bind
      intro value
      split
      · exact roomy_statements roomy .none uncalled.2.1 low.2.1
      · exact roomy_branches uncalled.2.2 low.2.2

theorem roomy_unary {operator : UnaryOperator} {operand : Expression}
    (uncalled : operand.Every .uncalled)
    (low : operator.step?.isSome = false → operand.weight 1 0 ≤ room) :
    Roomy (unary deeper operator operand) := by
  unfold unary
  cases stepped : operator.step? with
  | some step => exact roomy_increment operator step operand
  | none =>
      rw [stepped] at low
      apply (roomy.expression uncalled (low rfl)).bind
      intro value
      cases made : Value.unary operator value with
      | ok result => exact avoids_pure result
      | error cause =>
          rw [Value.eq_unknownUnary_of_unary made]
          exact avoids_fail fun _ => id

theorem roomy_binary {operator : BinaryOperator} {left right : Expression}
    (uncalledLeft : left.Every .uncalled) (uncalledRight : right.Every .uncalled)
    (low : operator ≠ .member → left.weight 1 0 ≤ room ∧ right.weight 1 0 ≤ room) :
    Roomy (binary deeper operator left right) := by
  unfold binary
  split
  · exact avoids_fail fun _ => id
  · next other =>
      apply (roomy.expression uncalledLeft (low other).1).bind
      intro first
      apply (roomy.expression uncalledRight (low other).2).bind
      exact fun second => roomy_operate operator first second

theorem roomy_assign (operator : AssignOperator) (name : String) {value : Expression}
    (uncalled : value.Every .uncalled) (low : value.weight 1 0 ≤ room) :
    Roomy (assign deeper operator name value) := by
  have stores : ∀ result, Roomy (do modifyScopes (·.assign name result); return result) :=
    fun result => (avoids_modifyScopes _).bind fun _ => avoids_pure result
  apply (roomy.expression uncalled low).bind
  intro result
  cases operator.binary? with
  | none => exact stores result
  | some binary =>
      apply (avoids_lookup fun _ => id).bind
      intro current
      exact (roomy_operate binary current result).bind stores

theorem roomy_expression {node : Expression} (uncalled : node.Every .uncalled)
    (low : node.weight 1 0 ≤ room + 1) : Roomy (expression deeper node) := by
  rw [Nat.add_comm] at low
  cases node with
  | identifier name => exact avoids_lookup fun _ => id
  | literal value | function definition => exact avoids_pure _
  | unary operator operand =>
      apply roomy_unary roomy uncalled.2
      intro evaluated
      have inside := Nat.le_of_add_le_add_left low
      rwa [evaluated] at inside
  | binary operator left right =>
      apply roomy_binary roomy uncalled.2.1 uncalled.2.2
      intro evaluated
      have inside := Nat.le_of_add_le_add_left low
      rw [if_neg evaluated, Nat.max_le, Nat.zero_add] at inside
      exact inside
  | assign operator name value =>
      exact roomy_assign roomy operator name uncalled.2 (Nat.le_of_add_le_add_left low)
  | call name arguments => exact uncalled.1.elim
  | list items =>
      have items := roomy_expressions roomy [] uncalled.2 (Nat.le_of_add_le_add_left low)
      exact items.bind fun values => avoids_pure _

theorem roomy_statement {node : Statement} (uncalled : node.Every .uncalled)
    (low : node.weight 1 0 ≤ room + 1) : Roomy (statement deeper node) := by
  rw [Nat.add_comm] at low
  cases node with
  | block body =>
      have inside := Nat.le_of_add_le_add_left low
      exact (roomy_statements roomy .none uncalled.2 inside).bracket fun _ => rfl
  | conditional condition body alternatives =>
      exact roomy_branches roomy uncalled.2 (Nat.le_of_add_le_add_left low)
  | whileLoop condition body =>
      have inside := Nat.max_le.mp (Nat.le_of_add_le_add_left low)
      have stepless : ∀ expression : Expression, none = some expression →
          expression.Every .uncalled ∧ expression.weight 1 0 ≤ room := by
        intro expression same
        cases same
      apply avoids_patience.bind
      intro rounds
      exact (roomy_roundsWhile roomy uncalled.2.2 inside.2 uncalled.2.1 inside.1 stepless
        rounds).bracket fun _ => rfl
  | forLoop start condition step body =>
      have inside := Nat.max_le.mp (Nat.le_of_add_le_add_left low)
      have front := Nat.max_le.mp inside.1
      have back := Nat.max_le.mp inside.2
      have stepped : ∀ expression, some step = some expression →
          expression.Every .uncalled ∧ expression.weight 1 0 ≤ room := by
        intro expression same
        cases same
        exact ⟨uncalled.2.2.2.1, back.1⟩
      apply avoids_patience.bind
      intro rounds
      apply Avoids.bracket _ fun _ => rfl
      apply (roomy.expression uncalled.2.1 front.1).discard.bind
      intro _
      exact roomy_roundsWhile roomy uncalled.2.2.2.2 back.2 uncalled.2.2.1 front.2 stepped rounds
  | foreachLoop item items body => exact avoids_fail fun _ => id
  | repeatLoop count body =>
      have inside := Nat.max_le.mp (Nat.le_of_add_le_add_left low)
      exact roomy_repeatLoop roomy uncalled.2.2 inside.2 uncalled.2.1 inside.1
  | definition definition => exact (roomy_define definition).bind fun _ => avoids_pure _
  | ret value | expression value =>
      have inside := roomy.expression uncalled.2 (Nat.le_of_add_le_add_left low)
      exact inside.bind fun _ => avoids_pure _
  | breakLoop | continueLoop | empty => exact avoids_pure _

end Rules

/-- As many levels as a tree takes are enough for it. -/
theorem roomy_within (room : Nat) : (within room).Roomy room := by
  induction room with
  | zero =>
      constructor
      · intro node _ low
        exact absurd low (Nat.not_le_of_lt node.weight_pos)
      · intro node _ low
        exact absurd low (Nat.not_le_of_lt node.weight_pos)
  | succ room induction =>
      constructor
      · intro node uncalled low
        exact (roomy_statement induction uncalled low).bracket fun _ => rfl
      · intro node uncalled low
        exact (roomy_expression induction uncalled low).bracket fun _ => rfl

theorem roomy_finish (flow : Flow) : Roomy (finish flow) := by
  cases flow with
  | normal value | ret value => exact avoids_pure value
  | breakLoop | continueLoop => exact avoids_fail fun _ => id

theorem not_endsBy_program {tree : Program} (uncalled : Statement.EveryEach .uncalled tree)
    {context : Context} (enough : tree.levels ≤ context.limits.evaluation) (machine : Machine) :
    ¬EndsBy IsLevelLimit (program tree context machine) := by
  have evaluated := roomy_statements (roomy_within context.limits.evaluation) .none uncalled enough
  rw [program, read_bind_run]
  exact evaluated.bind roomy_finish context machine

end Evaluation

end Easel
