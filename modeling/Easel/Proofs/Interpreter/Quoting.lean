import Easel.Proofs.Interpreter.Pieces
import Easel.Proofs.Printer.Written

/-!
Every text of a running system is quoted. Texts are stored with their quotes, and taking the quotes
off guesses where there are none, so a single text without them would be taken for another one.
There is none: the lexer makes texts with quotes, and so does everything that makes texts at run
time. Values hold texts in lists and in the bodies of functions, and outlive the run that made them
in the scopes, so the condition is one on whole values and is kept from run to run.
-/

namespace Easel

/-- The texts among the literals of the tree are quoted. -/
def Trait.quoted : Trait where
  onExpression
    | .literal (.text raw) => Text.IsQuoted raw
    | _ => True
  onStatement _ := True

theorem Trait.coherent_quoted : Trait.quoted.Coherent :=
  ⟨fun _ => trivial, fun _ => trivial, fun _ => trivial, fun _ _ => trivial, fun _ _ => trivial⟩

theorem Trait.written_implies_quoted : written.Implies .quoted where
  onExpression := by
    intro node isWritten
    cases node with
    | literal literal =>
        cases literal with
        | number _ => trivial
        | text raw =>
            obtain ⟨content, -, spelled⟩ := isWritten
            refine ⟨String.ofList content, ?_⟩
            rw [← String.toList_inj, spelled]
            simp [Text.quote]
    | _ => trivial
  onStatement _ := trivial

theorem Program.quoted_of_parse {source : String} {program : Program}
    (parsed : Program.parse source = .ok program) : Statement.EveryEach .quoted program := by
  have derived := Parser.parse_eq_ok_iff_isProgram.mp parsed
  have isWritten := derived.written fun _ member => Token.hasShape_of_mem_words member
  exact isWritten.mono Trait.written_implies_quoted

mutual

/-- Every text in the value is quoted, in lists and in the bodies of functions too. -/
def Value.WellQuoted : Value → Prop
  | .text raw => Text.IsQuoted raw
  | .function definition => definition.Every .quoted
  | .list items => Value.WellQuotedEach items
  | .number _ | .none => True

def Value.WellQuotedEach : List Value → Prop
  | [] => True
  | value :: rest => value.WellQuoted ∧ Value.WellQuotedEach rest

end

namespace Value

theorem wellQuotedEach_iff {values : List Value} :
    WellQuotedEach values ↔ ∀ value ∈ values, value.WellQuoted := by
  induction values with
  | nil => simp [WellQuotedEach]
  | cons head tail induction => rw [WellQuotedEach, induction, List.forall_mem_cons]

theorem admits_wellQuoted : Trait.quoted.Admits WellQuoted where
  number _ := trivial
  none := trivial
  content content := ⟨content, rfl⟩
  literal := by
    intro literal quoted
    cases literal with
    | number _ => trivial
    | text raw => exact quoted
  list := wellQuotedEach_iff
  function := ⟨fun every => ⟨trivial, every⟩, fun both => both.2⟩

theorem ofContent_unquote {raw : String} (quoted : WellQuoted (.text raw)) :
    ofContent (Text.unquote raw) = .text raw := by
  obtain ⟨content, rfl⟩ := quoted
  rw [Text.unquote_quote, ofContent]

theorem unquote_inj {left right : String} (quotedLeft : WellQuoted (.text left))
    (quotedRight : WellQuoted (.text right)) :
    Text.unquote left = Text.unquote right ↔ left = right := by
  constructor
  · intro same
    have made := ofContent_unquote quotedLeft
    rw [same, ofContent_unquote quotedRight] at made
    cases made
    rfl
  · intro same
    rw [same]

/-- Quoted texts are equal in a program if they are stored alike. -/
theorem binary_equal_of_wellQuoted {left right : String} (quotedLeft : WellQuoted (.text left))
    (quotedRight : WellQuoted (.text right)) :
    binary .equal (.text left) (.text right) = .ok (ofBool (decide (left = right))) := by
  have compared : (Text.unquote left == Text.unquote right) = decide (left = right) := by
    rw [beq_eq_decide]
    exact decide_eq_decide.mpr (unquote_inj quotedLeft quotedRight)
  rw [binary, equality?, compared]
  rfl

end Value

def Scopes.WellQuoted (scopes : Scopes) : Prop :=
  scopes.Stores (fun _ => True) Value.WellQuoted

def Activity.WellQuoted : Activity → Prop
  | .passing => True
  | .operating _ left right => left.WellQuoted ∧ right.WellQuoted
  | .applying _ arguments => ∀ argument ∈ arguments, argument.WellQuoted

/-- Every value that is bound or used at the moment is well quoted. -/
structure Moment.WellQuoted (moment : Moment) : Prop where
  scopes : moment.scopes.WellQuoted
  activity : moment.activity.WellQuoted

namespace Evaluation

open EvalM

variable {α β : Type} [HoldsTrees α] [HoldsTrees β]

/-- A run leaves scopes that are well quoted, whatever ends it. So is what it returns, and so is the
moment where it pauses. -/
inductive LeavesQuoted : EStateM.Result Stop Machine α → Prop
  | returned {result : α} {after : Machine}
      (holds : HoldsTrees.Holds .quoted Value.WellQuoted result)
      (quoted : after.scopes.WellQuoted) : LeavesQuoted (.ok result after)
  | stopped {stop : Stop} {after : Machine}
      (shown : ∀ moment, stop = .paused moment → moment.WellQuoted)
      (quoted : after.scopes.WellQuoted) : LeavesQuoted (.error stop after)

def Quoting (action : EvalM α) : Prop :=
  ∀ context machine, machine.scopes.WellQuoted → LeavesQuoted (action context machine)

theorem Quoting.bind {action : EvalM α} {next : α → EvalM β} (first : Quoting action)
    (second : ∀ result, HoldsTrees.Holds .quoted Value.WellQuoted result → Quoting (next result)) :
    Quoting (action >>= next) := by
  intro context machine quoted
  rw [bind_run]
  have left := first context machine quoted
  generalize action context machine = ended at left
  cases left with
  | returned holds quoted => exact second _ holds context _ quoted
  | stopped shown quoted => exact .stopped shown quoted

theorem quoting_pure {result : α} (holds : HoldsTrees.Holds .quoted Value.WellQuoted result) :
    Quoting (pure result) := by
  intro context machine quoted
  exact .returned holds quoted

theorem quoting_throw {stop : Stop} (unpaused : ∀ moment, stop ≠ .paused moment) :
    Quoting (throw stop : EvalM α) := by
  intro context machine quoted
  exact .stopped (fun moment same => absurd same (unpaused moment)) quoted

theorem LeavesQuoted.failed {cause : Failure} {after : Machine} (quoted : after.scopes.WellQuoted) :
    LeavesQuoted (.error (.failure cause) after : EStateM.Result Stop Machine α) := by
  apply LeavesQuoted.stopped _ quoted
  intro moment same
  cases same

theorem quoting_failure (cause : Failure) : Quoting (throw (.failure cause) : EvalM α) :=
  fun _ _ quoted => .failed quoted

theorem quoting_observe {activity : Activity} (quoted : activity.WellQuoted) :
    Quoting (observe activity) := by
  intro context machine quotedScopes
  cases watched : context.watch with
  | none =>
      rw [observe_of_unwatched watched]
      exact .returned trivial quotedScopes
  | some pausesAt =>
      rw [observe_of_watched watched]
      dsimp only
      split
      · refine .stopped ?_ quotedScopes
        rintro moment ⟨⟩
        exact ⟨quotedScopes, quoted⟩
      · exact .returned trivial quotedScopes

theorem quoting_operate (operator : BinaryOperator) {left right : Value}
    (quotedLeft : left.WellQuoted) (quotedRight : right.WellQuoted) :
    Quoting (operate operator left right) := by
  have quoted : (Activity.operating operator left right).WellQuoted := ⟨quotedLeft, quotedRight⟩
  apply Quoting.bind (quoting_observe quoted)
  intro _ _
  cases made : Value.binary operator left right with
  | ok value => exact quoting_pure (Value.admits_wellQuoted.binary quotedLeft made)
  | error mishap =>
      cases mishap with
      | error cause => exact quoting_failure _
      | crash => exact quoting_throw nofun

theorem quoting_modifyScopes {change : Scopes → Scopes}
    (changed : ∀ {scopes : Scopes}, scopes.WellQuoted → (change scopes).WellQuoted) :
    Quoting (modifyScopes change) := by
  intro context machine quoted
  exact .returned trivial (changed quoted)

theorem quoting_writeText (text : String) : Quoting (writeText text) := by
  intro context machine quoted
  rw [writeText, get_bind_run]
  rcases machine.output.write text with ⟨output, _ | fault⟩
  · exact .returned trivial quoted
  · exact .failed quoted

theorem quoting_readText : Quoting readText := by
  intro context machine quoted
  rw [readText, get_bind_run]
  rcases machine.input.readLine with ⟨fault | line, input⟩
  · exact .failed quoted
  · exact .returned trivial quoted

theorem quoting_checkCalls : Quoting checkCalls := by
  intro context machine quoted
  rw [checkCalls, read_bind_run]
  split
  · exact .failed quoted
  · exact .returned trivial quoted

theorem quoting_load {next : String → EvalM α} (kind : Source.ImportKind) (name : String)
    (second : ∀ source, (∀ program, Program.parse source = .ok program →
      Statement.EveryEach .quoted program) → Quoting (next source)) :
    Quoting (load kind name >>= next) := by
  intro context machine quoted
  rw [load_bind_run]
  cases context.loader kind name with
  | ok source =>
      have read : ∀ program, Program.parse source = .ok program →
          Statement.EveryEach .quoted program := fun _ parsed => Program.quoted_of_parse parsed
      exact second source read context machine quoted
  | error error => exact .failed quoted

theorem Quoting.bracket {action : EvalM α} (quoting : Quoting action) (inside : Context → Context)
    {enter leave : Scopes → Scopes}
    (entered : ∀ {scopes : Scopes}, scopes.WellQuoted → (enter scopes).WellQuoted)
    (left : ∀ {scopes : Scopes}, scopes.WellQuoted → (leave scopes).WellQuoted) :
    Quoting (bracket inside enter leave action) := by
  intro context machine quoted
  have observed : Quoting (observe .passing) := quoting_observe trivial
  have acted := observed.bind (fun _ _ => quoting) (inside context)
    { machine with scopes := enter machine.scopes } (entered quoted)
  rw [EvalM.bracket]
  generalize (do observe .passing; action) (inside context)
    { machine with scopes := enter machine.scopes } = ended at acted
  cases acted with
  | returned holds quoted =>
      exact observed.bind (fun _ _ => quoting_pure holds) context _ (left quoted)
  | @stopped stop after shown quoted =>
      cases stop with
      | failure cause =>
          exact observed.bind (fun _ _ => quoting_failure cause) context _ (left quoted)
      | crash => exact .stopped shown quoted
      | exhausted => exact .stopped shown quoted
      | paused moment => exact .stopped shown quoted

theorem Quoting.importingOnce {action : EvalM Unit} (name : String) (quoting : Quoting action) :
    Quoting (importingOnce name action) := by
  have marked : Quoting (importing name action) :=
    quoting.bracket id (fun quoted => quoted) (fun quoted => quoted)
  intro context machine quoted
  rw [EvalM.importingOnce, get_bind_run]
  split
  · exact .failed quoted
  · exact marked context machine quoted

theorem respects_quoting :
    Respects .quoted Value.WellQuoted
      (fun machine other => other = machine ∧ machine.scopes.WellQuoted)
      (fun action _ => Quoting action) where
  coherent := Trait.coherent_quoted
  admits := Value.admits_wellQuoted
  value := by
    rintro machine _ name ⟨rfl, quoted⟩ -
    exact ⟨rfl, fun _ found => quoted.of_get? trivial found⟩
  output := by
    rintro machine _ ⟨rfl, -⟩
    rfl
  pure := quoting_pure
  bind := Quoting.bind
  get next context machine quoted := next machine machine ⟨rfl, quoted⟩ context machine quoted
  failure _ := quoting_failure _
  exhausted _ := quoting_throw nofun
  applying _ _ quoted := quoting_observe quoted
  operate operator _ _ quotedLeft quotedRight := quoting_operate operator quotedLeft quotedRight
  patience _ _ quoted := .returned trivial quoted
  load := quoting_load
  assign _ made := quoting_modifyScopes fun quoted => quoted.assign _ made
  define _ made := quoting_modifyScopes fun quoted => quoted.define _ made
  declareEach each := quoting_modifyScopes fun quoted =>
    quoted.declareEach fun binding member => (each binding member).2
  writeText := quoting_writeText
  readText := quoting_readText

theorem layered_quoting :
    Layered .quoted Value.WellQuoted
      (fun machine other => other = machine ∧ machine.scopes.WellQuoted)
      (fun action _ => Quoting action) (fun action _ => Quoting action) where
  inner := respects_quoting
  outer := respects_quoting
  loosen quoting := quoting
  framed quoting := quoting.bracket id Scopes.Stores.push Scopes.Stores.pop
  called quoting := quoting_checkCalls.bind fun _ _ =>
    Quoting.bracket (quoting.bracket id Scopes.Stores.push Scopes.Stores.pop) _ id id
  importingOnce := Quoting.importingOnce

theorem quoting_program {tree : Program} (every : Statement.EveryEach .quoted tree) :
    Quoting (program tree) := by
  intro context machine quoted
  have deeper := layered_quoting.carried_within (fun quoting => quoting.bracket _ id id)
    (fun _ _ quoted => .failed quoted) context.limits.evaluation
  have body := respects_quoting.body deeper every
  exact body.bind (fun flow holds => respects_quoting.finish holds) context machine quoted

end Evaluation

namespace Interpreter

open Evaluation

/-- Scopes that runs of source texts can make of others. Each run has an interpreter, an output and
an input of its own, and may end in any way. -/
inductive Reaches (start : Scopes) : Scopes → Prop
  | start : Reaches start start
  | run {scopes : Scopes} (reached : Reaches start scopes) (interpreter : Interpreter)
      (source : String) (output : Sink) (input : Input) :
      Reaches start (interpreter.run source { scopes, output, input }).2.scopes

/-- Everything is well quoted at the end of a run: what it returns, what it leaves and what it has
come to if it pauses. -/
structure EndsQuoted (ended : Except Stop Value × Machine) : Prop where
  returned : ∀ value, ended.1 = .ok value → value.WellQuoted
  left : ended.2.scopes.WellQuoted
  paused : ∀ moment, ended.1 = .error (.paused moment) → moment.WellQuoted

theorem endsQuoted_failure (cause : Failure) {after : Machine} (quoted : after.scopes.WellQuoted) :
    EndsQuoted (.error (.failure cause), after) :=
  ⟨nofun, quoted, nofun⟩

theorem endsQuoted_outcome {result : EStateM.Result Stop Machine Value}
    (left : LeavesQuoted result) : EndsQuoted (outcome result) := by
  cases left with
  | returned holds quoted =>
      refine ⟨?_, quoted, nofun⟩
      rintro value ⟨⟩
      exact holds
  | stopped shown quoted =>
      refine ⟨nofun, quoted, ?_⟩
      rintro moment ⟨⟩
      exact shown moment rfl

theorem endsQuoted_run (interpreter : Interpreter) (source : String) {machine : Machine}
    (quoted : machine.scopes.WellQuoted) : EndsQuoted (interpreter.run source machine) := by
  rw [run]
  cases parsed : Program.parse source with
  | error error => exact endsQuoted_failure _ quoted
  | ok tree =>
      have ended := endsQuoted_outcome
        (quoting_program (Program.quoted_of_parse parsed) interpreter.context machine quoted)
      dsimp only
      rcases interpreter.runProgram_cases tree machine with same | ⟨fault, failed⟩
      · rw [same]
        exact ended
      · rw [failed]
        exact endsQuoted_failure _ ended.left

theorem wellQuoted_of_reaches {start scopes : Scopes} (quoted : start.WellQuoted)
    (reached : Reaches start scopes) : scopes.WellQuoted := by
  induction reached with
  | start => exact quoted
  | run _ interpreter source output input induction =>
      exact (interpreter.endsQuoted_run source induction).left

theorem texts_stay_quoted (start scopes : Scopes) (quoted : start.WellQuoted)
    (reached : Reaches start scopes) :
    scopes.WellQuoted ∧
      (∀ (interpreter : Interpreter) source output input,
        EndsQuoted (interpreter.run source { scopes, output, input }) ∧
          ∀ moment, interpreter.Passes source { scopes, output, input } moment →
            moment.WellQuoted) ∧
      (∀ raw, (Value.text raw).WellQuoted →
        Value.ofContent (Text.unquote raw) = .text raw) ∧
      ∀ left right, (Value.text left).WellQuoted → (Value.text right).WellQuoted →
        Value.binary .equal (.text left) (.text right) =
          .ok (.ofBool (decide (left = right))) := by
  have quotedHere := wellQuoted_of_reaches quoted reached
  have ends : ∀ (interpreter : Interpreter) source output input,
      EndsQuoted (interpreter.run source { scopes, output, input }) :=
    fun interpreter source _ _ => interpreter.endsQuoted_run source quotedHere
  refine ⟨quotedHere, ?_, fun _ => Value.ofContent_unquote,
    fun _ _ => Value.binary_equal_of_wellQuoted⟩
  intro interpreter source output input
  refine ⟨ends interpreter source output input, ?_⟩
  intro moment passes
  obtain ⟨watch, paused⟩ := passes
  exact (ends _ source output input).paused moment paused

theorem texts_stay_quoted_call :
    let first := "def join(x) \x7b ret x + \"b\"; \x7d t = [join(\"a\")];"
    let second := "join(input());"
    let interpreter : Interpreter := { limits := { calls := 1, evaluation := 9 }, patience := 0 }
    let start : Scopes := {}
    let scopes := (interpreter.run first {}).2.scopes
    let machine : Machine := { scopes, input := { bytes := "c\n".toUTF8.toList } }
    start.WellQuoted ∧ Reaches start scopes ∧
      ∃ value, (interpreter.run second machine).1 = .ok value ∧ value.WellQuoted := by
  intro first second interpreter start scopes machine
  have quoted : start.WellQuoted := by
    intro frame member name value _ found
    cases List.mem_singleton.mp member
    cases found
  have reached : Reaches start scopes := .run .start interpreter first {} {}
  have returns : ∃ value, (interpreter.run second machine).1 = .ok value := by decide +kernel
  obtain ⟨value, returned⟩ := returns
  have kept := (texts_stay_quoted start scopes quoted reached).2.1 interpreter second {}
    machine.input
  exact ⟨quoted, reached, value, returned, kept.1.returned value returned⟩

end Interpreter

end Easel
