import Easel.Proofs.Evaluation.Inclusion

/-!
A compound assignment is an abbreviation. It looks its variable up behind its right side and not in
front of it, and the right side stands one level less far in than it does in the long form. The
order shows if the right side changes what the variable is bound to, and the levels if they run out;
where neither happens, the two forms end alike, also where they fail.
-/

namespace Easel.Evaluation

open EvalM

def IsLevelLimit : Failure → Prop
  | .runtime (.evaluationDepthExceeded _) => True
  | _ => False

theorem excuses_levelled : Excuses Levelled IsLevelLimit where
  unwatched levelled := ⟨levelled.unwatched_inner, levelled.unwatched⟩
  patience levelled := by rw [levelled.same]
  loader levelled := by rw [levelled.same]
  levels _ := trivial
  checkCalls := follows_of_eq fun levelled machine => by
    rw [levelled.same, checkCalls, read_bind_run, read_bind_run]
    dsimp only
    split <;> rfl
  nested := Levelled.nested
  called := Levelled.called

/-- What an operator makes of a left operand and of how its right operand ends. -/
def applied (operator : BinaryOperator) (left : Value) :
    EStateM.Result Stop Machine Value → EStateM.Result Stop Machine Value
  | .ok right after =>
      match Value.binary operator left right with
      | .ok result => .ok result after
      | .error (.error cause) => .error (.failure (.runtime cause)) after
      | .error .crash => .error .crash after
  | .error stop after => .error stop after

def stored (name : String) :
    EStateM.Result Stop Machine Value → EStateM.Result Stop Machine Value
  | .ok result after => .ok result { after with scopes := after.scopes.assign name result }
  | .error stop after => .error stop after

theorem endsIn_applied {operator : BinaryOperator} (other : operator ≠ .index) (left : Value)
    {evaluated : EStateM.Result Stop Machine Value} {after : Machine}
    (ends : EndsIn evaluated after) : EndsIn (applied operator left evaluated) after := by
  rcases ends with ⟨right, rfl⟩ | ⟨cause, rfl⟩
  · have plain := Value.isPlain_binary other left right
    dsimp only [applied]
    generalize Value.binary operator left right = made at plain
    rcases made with (cause | _) | result
    · exact .inr ⟨.runtime cause, rfl⟩
    · exact plain.elim
    · exact .inl ⟨result, rfl⟩
  · exact .inr ⟨cause, rfl⟩

theorem endsIn_stored (name : String) {evaluated : EStateM.Result Stop Machine Value}
    {after : Machine} (ends : EndsIn evaluated after) :
    ∃ last, EndsIn (stored name evaluated) last := by
  rcases ends with ⟨result, rfl⟩ | ⟨cause, rfl⟩
  · exact ⟨_, .inl ⟨result, rfl⟩⟩
  · exact ⟨after, .inr ⟨cause, rfl⟩⟩

theorem EndsBy.applied {excused : Failure → Prop} {evaluated : EStateM.Result Stop Machine Value}
    (ended : EndsBy excused evaluated) (operator : BinaryOperator) (left : Value) :
    EndsBy excused (applied operator left evaluated) := by
  rcases ended with ⟨cause, after, excuse, rfl⟩
  exact ⟨cause, after, excuse, rfl⟩

theorem EndsBy.stored {excused : Failure → Prop} {evaluated : EStateM.Result Stop Machine Value}
    (ended : EndsBy excused evaluated) (name : String) :
    EndsBy excused (stored name evaluated) := by
  rcases ended with ⟨cause, after, excuse, rfl⟩
  exact ⟨cause, after, excuse, rfl⟩

theorem lookup_run {name : String} {current : Value} {machine : Machine}
    (found : machine.scopes.get? name = some current) (context : Context) :
    lookup name context machine = .ok current machine := by
  rw [lookup, get_bind_run, found]
  rfl

theorem assign_plain_run (deeper : Deeper) (name : String) (value : Expression) (context : Context)
    (machine : Machine) :
    assign deeper .assign name value context machine =
      stored name (deeper.expression value context machine) := by
  rw [assign, bind_run]
  cases deeper.expression value context machine with
  | ok result after => rfl
  | error stop after => rfl

section Rules

variable {context : Context} (unwatched : context.watch = none) {machine : Machine} {name : String}
  {current : Value} {value : Expression}
include unwatched

theorem operate_run (operator : BinaryOperator) (left right : Value) :
    operate operator left right context machine = applied operator left (.ok right machine) := by
  rw [operate, bind_run, observe_of_unwatched unwatched]
  dsimp only [applied]
  rcases Value.binary operator left right with (cause | _) | result <;> rfl

theorem assign_compound_run {deeper : Deeper} {operator : AssignOperator} {binary : BinaryOperator}
    (compound : operator.binary? = some binary)
    (unchanged : ∀ result after, deeper.expression value context machine = .ok result after →
      after.scopes.get? name = some current) :
    assign deeper operator name value context machine =
      stored name (applied binary current (deeper.expression value context machine)) := by
  rw [assign, bind_run, compound]
  cases evaluated : deeper.expression value context machine with
  | ok result after =>
      have found := unchanged result after evaluated
      dsimp only
      rw [bind_run, lookup_run found]
      dsimp only
      rw [bind_run, operate_run unwatched]
      cases applied binary current (.ok result after) with
      | ok result after => rfl
      | error stop after => rfl
  | error stop after => rfl

/-- The left operand is looked up in front of the right one. -/
theorem binary_run {deeper : Deeper} {operator : BinaryOperator} (other : operator ≠ .member)
    {left : Expression} (found : deeper.expression left context machine = .ok current machine) :
    binary deeper operator left value context machine =
      applied operator current (deeper.expression value context machine) := by
  rw [binary, if_neg other, bind_run, found]
  dsimp only
  rw [bind_run]
  cases deeper.expression value context machine with
  | ok right after => exact operate_run unwatched operator current right
  | error stop after => rfl

end Rules

section Levels

def inward (context : Context) : Context :=
  { context with nesting := context.nesting + 1 }

theorem endsBy_without_room (node : Expression) (context : Context) (machine : Machine) :
    EndsBy IsLevelLimit (expressionWithin 0 node context machine) :=
  ⟨.runtime (.evaluationDepthExceeded context.limits.evaluation), machine, trivial, rfl⟩

variable {context : Context} (unwatched : context.watch = none) {machine : Machine} {room : Nat}
include unwatched

theorem expressionWithin_run (node : Expression) :
    expressionWithin (room + 1) node context machine =
      expression (within room) node (inward context) machine := by
  rw [expressionWithin, nested_of_unwatched unwatched]
  rfl

/-- One level further in, an expression runs out of levels or does what it does here. -/
theorem expressionWithin_inward (node : Expression) (machine : Machine) :
    EndsBy IsLevelLimit (expressionWithin room node (inward context) machine) ∨
      expressionWithin (room + 1) node context machine =
        expressionWithin room node (inward context) machine :=
  (excuses_levelled.within (Nat.le_succ room)).expression node (inward context) context
    ⟨unwatched, rfl⟩ machine

variable {name : String} {current : Value} {value : Expression}

theorem assign_plain_within (enough : ¬EndsBy IsLevelLimit
      (expressionWithin room (.assign .assign name value) context machine)) :
    expressionWithin room (.assign .assign name value) context machine =
      stored name (expressionWithin room value context machine) := by
  cases room with
  | zero => exact absurd (endsBy_without_room _ context machine) enough
  | succ room =>
      rw [expressionWithin_run unwatched, expression, assign_plain_run] at enough ⊢
      rcases expressionWithin_inward unwatched value machine with ended | same
      · exact absurd (ended.stored name) enough
      · rw [same]
        rfl

theorem assign_compound_within {operator : AssignOperator} {binary : BinaryOperator}
    (compound : operator.binary? = some binary)
    (unchanged : ∀ result after, expressionWithin room value context machine = .ok result after →
      after.scopes.get? name = some current)
    (enough : ¬EndsBy IsLevelLimit
      (expressionWithin room (.assign operator name value) context machine)) :
    expressionWithin room (.assign operator name value) context machine =
      stored name (applied binary current (expressionWithin room value context machine)) := by
  cases room with
  | zero => exact absurd (endsBy_without_room _ context machine) enough
  | succ room =>
      rw [expressionWithin_run unwatched, expression] at enough ⊢
      rcases expressionWithin_inward unwatched value machine with ended | same
      · exact absurd (ended.bind _) enough
      · rw [same] at unchanged ⊢
        have unwatchedInward : (inward context).watch = none := unwatched
        exact assign_compound_run unwatchedInward compound unchanged

theorem binary_within {binary : BinaryOperator} (other : binary ≠ .member)
    (bound : machine.scopes.get? name = some current)
    (enough : ¬EndsBy IsLevelLimit
      (expressionWithin room (.binary binary (.identifier name) value) context machine)) :
    expressionWithin room (.binary binary (.identifier name) value) context machine =
      applied binary current (expressionWithin room value context machine) := by
  have unwatchedInward : (inward context).watch = none := unwatched
  match room with
  | 0 => exact absurd (endsBy_without_room _ context machine) enough
  | 1 =>
      rw [expressionWithin_run unwatched, expression, Evaluation.binary, if_neg other] at enough
      exact absurd ((endsBy_without_room (.identifier name) (inward context) machine).bind _) enough
  | room + 2 =>
      have found : (within (room + 1)).expression (.identifier name) (inward context) machine =
          .ok current machine := by
        change expressionWithin (room + 1) (.identifier name) (inward context) machine = _
        rw [expressionWithin_run unwatchedInward]
        exact lookup_run bound _
      rw [expressionWithin_run unwatched, expression, binary_run unwatchedInward other found]
        at enough ⊢
      rcases expressionWithin_inward unwatched value machine with ended | same
      · exact absurd (ended.applied binary current) enough
      · rw [same]
        rfl

end Levels

theorem ordinary_of_compound {operator : AssignOperator} {binary : BinaryOperator}
    (compound : operator.binary? = some binary) : binary ≠ .member ∧ binary ≠ .index := by
  cases operator <;> cases compound <;> exact ⟨nofun, nofun⟩

/-- The two forms end alike, if the right side ends without changing what the variable is bound to
and neither form runs out of levels. -/
theorem compound_assignment_abbreviates {context : Context} (unwatched : context.watch = none)
    (room : Nat) (machine : Machine) {operator : AssignOperator} {binary : BinaryOperator}
    (compound : operator.binary? = some binary) {name : String} {current : Value}
    (bound : machine.scopes.get? name = some current) (value : Expression) :
    let evaluated := expressionWithin room value context machine
    let short := expressionWithin room (.assign operator name value) context machine
    let long := expressionWithin room
      (.assign .assign name (.binary binary (.identifier name) value)) context machine
    (∃ after, EndsIn evaluated after) →
      (∀ result after, evaluated = .ok result after →
        after.scopes.get? name = machine.scopes.get? name) →
      ¬EndsBy IsLevelLimit short → ¬EndsBy IsLevelLimit long →
      short = long ∧ ∃ after, EndsIn short after := by
  intro evaluated short long ends unchanged enoughShort enoughLong
  have operation := ordinary_of_compound compound
  have shortRun : short = stored name (applied binary current evaluated) := by
    apply assign_compound_within unwatched compound _ enoughShort
    intro result after returned
    rw [unchanged result after returned]
    exact bound
  have assigned : long = stored name (expressionWithin room
      (.binary binary (.identifier name) value) context machine) :=
    assign_plain_within unwatched enoughLong
  have enoughRight : ¬EndsBy IsLevelLimit
      (expressionWithin room (.binary binary (.identifier name) value) context machine) := by
    intro ended
    apply enoughLong
    rw [assigned]
    exact ended.stored name
  have longRun : long = stored name (applied binary current evaluated) := by
    rw [assigned, binary_within unwatched operation.1 bound enoughRight]
  rcases ends with ⟨after, ends⟩
  rw [shortRun, longRun]
  exact ⟨rfl, endsIn_stored name (endsIn_applied operation.2 current ends)⟩

theorem compound_assignment_abbreviates_call :
    let double : Definition := .mk (some "f") ["x"]
      [.expression (.assign .plusAssign "x" (.identifier "x")), .ret (.identifier "x")]
    let context : Context :=
      { limits := { calls := 3, evaluation := 12 }, loader := .ofUnits [], patience := 0 }
    let machine : Machine :=
      { scopes := { current := [("x", .text "\"a\""), ("f", .function double)] } }
    let value : Expression := .call "f" [.identifier "x"]
    let evaluated := expressionWithin 12 value context machine
    let short := expressionWithin 12 (.assign .plusAssign "x" value) context machine
    let long := expressionWithin 12
      (.assign .assign "x" (.binary .plus (.identifier "x") value)) context machine
    ((∃ after, EndsIn evaluated after) ∧
      (∀ result after, evaluated = .ok result after →
        after.scopes.get? "x" = machine.scopes.get? "x") ∧
      ¬EndsBy IsLevelLimit short ∧ ¬EndsBy IsLevelLimit long) ∧
      short = long ∧ ∃ after, EndsIn short after := by
  intro double context machine value evaluated short long
  have run : evaluated = .ok (.text "\"aa\"") machine := by rfl
  have ends : ∃ after, EndsIn evaluated after := ⟨machine, .inl ⟨_, run⟩⟩
  have unchanged : ∀ result after, evaluated = .ok result after →
      after.scopes.get? "x" = machine.scopes.get? "x" := by
    intro result after returned
    rw [run] at returned
    cases returned
    rfl
  have enoughShort : ¬EndsBy IsLevelLimit short := not_endsBy_of_returns (by decide +kernel)
  have enoughLong : ¬EndsBy IsLevelLimit long := not_endsBy_of_returns (by decide +kernel)
  exact ⟨⟨ends, unchanged, enoughShort, enoughLong⟩,
    compound_assignment_abbreviates rfl 12 machine rfl rfl value ends unchanged enoughShort
      enoughLong⟩

end Easel.Evaluation
