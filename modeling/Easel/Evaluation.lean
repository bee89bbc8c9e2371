import Easel.Machine
import Easel.Number.Decimal
import Easel.Syntax.Parser
import Easel.Text.Blank
import Easel.Text.Template

/-!
Evaluation of programs. Each rule for a form of statement or expression is given the
evaluators of one level further in, and the levels are counted down from the limit; at
level zero evaluation fails. Rules therefore contain one another only through `Deeper`,
whatever a program calls or imports, and nothing but the rounds of `while` and `for`
needs patience.

Frames are dynamic: a function runs in a frame on top of its caller's, and an imported
unit in its caller's very frame.
-/

namespace Easel

inductive Flow where
  | normal (value : Value)
  | breakLoop
  | continueLoop
  | ret (value : Value)

namespace Evaluation

open EvalM

structure Deeper where
  statement : Statement → EvalM Flow
  expression : Expression → EvalM Value

/-- The value of a function body, a program or a unit, which a signal to a loop must not
leave. -/
def finish : Flow → EvalM Value
  | .normal value | .ret value => pure value
  | .breakLoop => fail (.signalOutsideLoop "break")
  | .continueLoop => fail (.signalOutsideLoop "continue")

def statements (deeper : Deeper) (last : Value) : List Statement → EvalM Flow
  | [] => return .normal last
  | statement :: rest => do
      match ← deeper.statement statement with
      | .normal value => statements deeper value rest
      | flow => return flow

def expressions (deeper : Deeper) (found : List Value) :
    List Expression → EvalM (List Value)
  | [] => return found.reverse
  | expression :: rest => do
      let value ← deeper.expression expression
      expressions deeper (value :: found) rest

def round (deeper : Deeper) (body : List Statement) : EvalM (Option Flow) := do
  match ← statements deeper .none body with
  | .normal _ | .continueLoop => return none
  | .breakLoop => return some (.normal .none)
  | .ret value => return some (.ret value)

def roundsWhile (deeper : Deeper) (condition : Expression) (body : List Statement)
    (step : Option Expression) : Nat → EvalM Flow
  | 0 => throw .exhausted
  | patience + 1 => do
      if (← deeper.expression condition).isTruthy then
        match ← round deeper body with
        | some flow => return flow
        | none =>
            match step with
            | some step => discard (deeper.expression step)
            | none => pure ()
            roundsWhile deeper condition body step patience
      else return .normal .none

def roundsCounted (deeper : Deeper) (body : List Statement) : Nat → EvalM Flow
  | 0 => return .normal .none
  | count + 1 => do
      match ← round deeper body with
      | some flow => return flow
      | none => roundsCounted deeper body count

def branches (deeper : Deeper) : Alternatives → EvalM Flow
  | .none => return .normal .none
  | .otherwise body => statements deeper .none body
  | .branch condition body rest => do
      if (← deeper.expression condition).isTruthy then statements deeper .none body
      else branches deeper rest

def repeatLoop (deeper : Deeper) (count : Expression) (body : List Statement) :
    EvalM Flow := do
  -- The count is evaluated outside the frame of the loop.
  let value ← deeper.expression count
  let times? := match value with
    | .number n => n.repeatCount?
    | _ => none
  match times? with
  | some times => framed (roundsCounted deeper body times)
  | none => fail (.invalidRepeatCount value.render)

/-- Binds a named function in the innermost frame, unless the name is bound there. -/
def define (definition : Definition) : EvalM Unit :=
  match definition.name with
  | none => pure ()
  | some name => modifyScopes fun scopes =>
      if scopes.isLocal name then scopes else scopes.declare name (.function definition)

def statement (deeper : Deeper) : Statement → EvalM Flow
  | .block body => framed (statements deeper .none body)
  | .conditional condition body alternatives =>
      branches deeper (.branch condition body alternatives)
  | .whileLoop condition body => do
      let rounds ← patience
      framed (roundsWhile deeper condition body none rounds)
  | .forLoop start condition step body => do
      let rounds ← patience
      framed do
        discard (deeper.expression start)
        roundsWhile deeper condition body (some step) rounds
  | .foreachLoop .. => fail (.unsupported "foreach loop")
  | .repeatLoop count body => repeatLoop deeper count body
  | .definition definition => do
      define definition
      return .normal .none
  | .ret value => return .ret (← deeper.expression value)
  | .breakLoop => return .breakLoop
  | .continueLoop => return .continueLoop
  | .expression expression => return .normal (← deeper.expression expression)
  | .empty => return .normal .none

/-- Adds to a variable that holds a number. The value is that before the change if the
operator stands behind the variable, and that after it otherwise. -/
def increment (operator : UnaryOperator) (step : Int) : Expression → EvalM Value
  | .identifier name => do
      match ← lookup name with
      | .number previous =>
          let updated := previous + Float.ofInt step
          modifyScopes (·.assign name (.number updated))
          return .number (if operator.isAfterOperand then previous else updated)
      | other => fail (.unknownUnary operator.spelling other.kind)
  | _ => fail (.invalidIncrementTarget operator.spelling)

def unary (deeper : Deeper) (operator : UnaryOperator) (operand : Expression) :
    EvalM Value := do
  match operator.step? with
  | some step => increment operator step operand
  | none => orFail (Value.unary operator (← deeper.expression operand))

/-- Member access fails before its operands are evaluated. -/
def binary (deeper : Deeper) (operator : BinaryOperator) (left right : Expression) :
    EvalM Value := do
  if operator = .member then fail (.unsupported "member access")
  else
    let left ← deeper.expression left
    let right ← deeper.expression right
    operate operator left right

/-- A compound assignment evaluates its right side before it looks up the variable. -/
def assign (deeper : Deeper) (operator : AssignOperator) (name : String)
    (value : Expression) : EvalM Value := do
  let value ← deeper.expression value
  let value ← match operator.binary? with
    | some operator => operate operator (← lookup name) value
    | none => pure value
  modifyScopes (·.assign name value)
  return value

def callFunction (deeper : Deeper) (name : String) (definition : Definition)
    (arguments : List Value) : EvalM Value := do
  let want := definition.parameters.length
  if arguments.length ≠ want then fail (.incorrectArity name arguments.length want)
  else
    checkCalls
    let flow ← called <| framed do
      modifyScopes (·.declareEach (definition.parameters.zip arguments))
      statements deeper .none definition.body
    finish flow

/-- A statement of a unit. A block runs in the frame of the import. -/
def unitStatement (deeper : Deeper) : Statement → EvalM Flow
  | .block body => statements deeper .none body
  | statement => deeper.statement statement

def unitStatements (deeper : Deeper) : List Statement → EvalM Unit
  | [] => pure ()
  | statement :: rest => do
      let flow ← unitStatement deeper statement
      discard (finish flow)
      match flow with
      -- A return ends the unit and not what imports it.
      | .ret _ => pure ()
      | _ => unitStatements deeper rest

def importUnit (deeper : Deeper) (kind : Source.ImportKind) (name : String) : EvalM Value := do
  importingOnce name do
    match Program.parse (← load kind name) with
    | .error error => throw (.failure (.misread error))
    | .ok program => unitStatements deeper program
  return .none

def singleArgument (builtin : Builtin) : List Value → EvalM Value
  | [argument] => pure argument
  | arguments => fail (.incorrectArity builtin.name arguments.length 1)

def textArgument (builtin : Builtin) (argument : Value) : EvalM String :=
  match argument.content? with
  | some content => pure content
  | none => fail (.unsupportedArgument builtin.name argument.kind)

def printFormatted : List Value → EvalM Value
  | [] => fail (.incorrectArity Builtin.printf.name 0 1)
  | template :: values => do
      let segments := Text.Template.segments (← textArgument .printf template)
      if values.length + 1 = segments.length then
        writeText (Text.Template.fill segments (values.map Value.render))
        return .none
      else fail (.incorrectArity Builtin.printf.name (values.length + 1) segments.length)

def toNumber? (content : String) : Except String Number :=
  let trimmed := Text.trim content.toList
  if Decimal.isSigned trimmed then
    let (negative, magnitude) := Decimal.splitSign trimmed
    .ok ((Decimal.ofDigits magnitude).toNumber negative)
  else .error (String.ofList trimmed)

def applyBuiltin (deeper : Deeper) (builtin : Builtin) (arguments : List Value) :
    EvalM Value := do
  observe (.applying builtin arguments)
  match builtin with
  | .print =>
      writeText (String.join (arguments.map Value.render) ++ "\n")
      return .none
  | .printf => printFormatted arguments
  | .input =>
      -- The prompt is to be seen before the line is waited for.
      writeText (String.join (arguments.map Value.render))
      flush
      return Value.ofContent (← readText)
  | .toNum =>
      let content ← textArgument .toNum (← singleArgument .toNum arguments)
      match toNumber? content with
      | .ok number => return .number number
      | .error text => fail (.conversionFailed text)
  | .toStr =>
      match ← singleArgument .toStr arguments with
      | .number n => return Value.ofContent n.render
      | other => fail (.unsupportedArgument Builtin.toStr.name other.kind)
  | .error =>
      let message ← textArgument .error (← singleArgument .error arguments)
      throw (.failure (.raised message))
  | .importUnit =>
      match arguments with
      | [kind, name] =>
          let spelling ← textArgument .importUnit kind
          match Source.ImportKind.ofText? spelling with
          | some kind => importUnit deeper kind (← textArgument .importUnit name)
          | none => fail (.unknownImportKind spelling)
      | _ => fail (.incorrectArity Builtin.importUnit.name arguments.length 2)

/-- Calls what a name stands for. Arguments are evaluated only if it can be called, and
before their number is checked. -/
def call (deeper : Deeper) (name : String) (arguments : List Expression) : EvalM Value := do
  match (← get).scopes.get? name with
  | some (.function definition) =>
      let arguments ← expressions deeper [] arguments
      callFunction deeper name definition arguments
  | some other => fail (.notAFunction name other.kind)
  | none =>
      match Builtin.ofName? name with
      | some builtin =>
          let arguments ← expressions deeper [] arguments
          applyBuiltin deeper builtin arguments
      | none => fail (.undefinedIdentifier name)

def expression (deeper : Deeper) : Expression → EvalM Value
  | .identifier name => lookup name
  | .literal literal => return Value.ofLiteral literal
  | .unary operator operand => unary deeper operator operand
  | .binary operator left right => binary deeper operator left right
  | .assign operator name value => assign deeper operator name value
  | .call name arguments => call deeper name arguments
  | .list items => return .list (← expressions deeper [] items)
  | .function definition => return .function definition

def tooDeep {α : Type} : EvalM α := do
  fail (.evaluationDepthExceeded (← read).limits.evaluation)

mutual

def statementWithin : Nat → Statement → EvalM Flow
  | 0, _ => tooDeep
  | room + 1, node =>
      nested (statement ⟨statementWithin room, expressionWithin room⟩ node)

def expressionWithin : Nat → Expression → EvalM Value
  | 0, _ => tooDeep
  | room + 1, node =>
      nested (expression ⟨statementWithin room, expressionWithin room⟩ node)

end

def within (room : Nat) : Deeper :=
  ⟨statementWithin room, expressionWithin room⟩

def program (statements : Program) : EvalM Value := do
  let limit := (← read).limits.evaluation
  finish (← Evaluation.statements (within limit) .none statements)

end Evaluation

end Easel
