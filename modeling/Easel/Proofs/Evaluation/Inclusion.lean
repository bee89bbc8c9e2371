import Easel.Proofs.Evaluation.Hygiene
import Easel.Proofs.Evaluation.Limits

/-!
An import is the inclusion of the unit's statements where the call stands. The statements run in
the frame of the call either way, so an import differs from them in two respects only: they stand
some levels further in, and while they run the unit is marked as being imported. Neither shows in
what they do, except by a failure: levels or calls may run out, and an import of the same unit is
recursive.

Two runs of the same statements are compared step by step, one with the mark and one without it.
Between the mark and the top of the imports in course stand the units that the statements import
themselves, the same in both runs.
-/

namespace Easel

/-- The scopes differ in one import that is in course in the first. -/
structure Scopes.Marked (name : String) (base above : List String) (scopes other : Scopes) :
    Prop where
  marked : scopes.importing = above ++ name :: base
  unmarked : other = { scopes with importing := above ++ base }

namespace Scopes.Marked

variable {name : String} {base above : List String} {scopes other : Scopes}

theorem beginImport (marked : Marked name base above scopes other) (unit : String) :
    Marked name base (unit :: above) (scopes.beginImport unit) (other.beginImport unit) := by
  obtain ⟨importing, rfl⟩ := marked
  exact ⟨congrArg (unit :: ·) importing, rfl⟩

theorem endImport {unit : String} (marked : Marked name base (unit :: above) scopes other) :
    Marked name base above scopes.endImport other.endImport := by
  obtain ⟨importing, rfl⟩ := marked
  exact ⟨congrArg (List.drop 1) importing, rfl⟩

theorem push (marked : Marked name base above scopes other) :
    Marked name base above scopes.push other.push := by
  obtain ⟨importing, rfl⟩ := marked
  exact ⟨importing, rfl⟩

theorem pop (marked : Marked name base above scopes other) :
    Marked name base above scopes.pop other.pop := by
  obtain ⟨importing, rfl⟩ := marked
  cases inner : scopes.outer with
  | nil => simpa [Scopes.pop, inner] using Marked.mk importing rfl
  | cons frame outer =>
      rw [Scopes.pop, Scopes.pop, inner]
      exact ⟨importing, rfl⟩

theorem declare (marked : Marked name base above scopes other) (bound : String) (value : Value) :
    Marked name base above (scopes.declare bound value) (other.declare bound value) := by
  obtain ⟨importing, rfl⟩ := marked
  exact ⟨importing, rfl⟩

theorem declareEach (marked : Marked name base above scopes other)
    (bindings : List (String × Value)) :
    Marked name base above (scopes.declareEach bindings) (other.declareEach bindings) := by
  induction bindings generalizing scopes other with
  | nil => exact marked
  | cons binding rest induction => exact induction (marked.declare binding.1 binding.2)

theorem assign (marked : Marked name base above scopes other) (bound : String) (value : Value) :
    Marked name base above (scopes.assign bound value) (other.assign bound value) := by
  have declared := marked.declare bound value
  obtain ⟨importing, rfl⟩ := marked
  rw [Scopes.assign, Scopes.assign]
  dsimp only
  split
  · exact declared
  · split
    · exact ⟨importing, rfl⟩
    · exact declared

theorem isImporting (marked : Marked name base above scopes other) {unit : String}
    (different : unit ≠ name) : other.isImporting unit = scopes.isImporting unit := by
  obtain ⟨importing, rfl⟩ := marked
  simp [Scopes.isImporting, importing, different]

end Scopes.Marked

namespace Evaluation

open EvalM

variable {α β : Type} {name : String} {base above : List String}

def IsExcused (name : String) (cause : Failure) : Prop :=
  IsDepthLimit cause ∨ cause = .runtime (.recursiveImport name)

structure MarkedAlike (name : String) (base above : List String) (machine other : Machine) :
    Prop where
  scopes : machine.scopes.Marked name base above other.scopes
  output : other.output = machine.output
  input : other.input = machine.input

/-- Two runs end alike, if the mark and the levels have not ended the first. -/
inductive EndMarked (name : String) (base above : List String) :
    EStateM.Result Stop Machine α → EStateM.Result Stop Machine α → Prop
  | returned {after otherAfter} (result : α)
      (alike : MarkedAlike name base above after otherAfter) :
      EndMarked name base above (.ok result after) (.ok result otherAfter)
  | failed {after otherAfter} (cause : Failure)
      (alike : MarkedAlike name base above after otherAfter) :
      EndMarked name base above (.error (.failure cause) after) (.error (.failure cause) otherAfter)
  | crashed {after otherAfter} :
      EndMarked name base above (.error .crash after) (.error .crash otherAfter)
  | exhausted {after otherAfter} :
      EndMarked name base above (.error .exhausted after) (.error .exhausted otherAfter)
  | excused {after other} (cause : Failure) (excused : IsExcused name cause) :
      EndMarked name base above (.error (.failure cause) after) other

structure Levelled (inner context : Context) : Prop where
  unwatched : context.watch = none
  same : inner = { context with nesting := inner.nesting }

/-- With the mark and on another level the first action does what the second does without. -/
def Including (name : String) (base : List String) (action action' : EvalM α) : Prop :=
  ∀ inner context above machine other, Levelled inner context →
    MarkedAlike name base above machine other →
    EndMarked name base above (action inner machine) (action' context other)

theorem Levelled.unwatched_inner {inner context : Context} (levelled : Levelled inner context) :
    inner.watch = none := by
  rw [levelled.same]
  exact levelled.unwatched

theorem Levelled.nested {inner context : Context} (levelled : Levelled inner context) :
    Levelled { inner with nesting := inner.nesting + 1 }
      { context with nesting := context.nesting + 1 } := by
  obtain ⟨unwatched, same⟩ := levelled
  rw [same]
  exact ⟨unwatched, rfl⟩

theorem Levelled.called {inner context : Context} (levelled : Levelled inner context) :
    Levelled { inner with calls := inner.calls + 1 }
      { context with calls := context.calls + 1 } := by
  obtain ⟨unwatched, same⟩ := levelled
  rw [same]
  exact ⟨unwatched, rfl⟩

theorem Including.bind {action action' : EvalM α} {next next' : α → EvalM β}
    (first : Including name base action action')
    (second : ∀ result, Including name base (next result) (next' result)) :
    Including name base (action >>= next) (action' >>= next') := by
  intro inner context above machine other levelled alike
  rw [bind_run, bind_run]
  have acted := first inner context above machine other levelled alike
  generalize action inner machine = ended, action' context other = otherEnded at acted
  cases acted with
  | returned result alike => exact second result inner context above _ _ levelled alike
  | failed cause alike => exact .failed cause alike
  | crashed => exact .crashed
  | exhausted => exact .exhausted
  | excused cause excused => exact .excused cause excused

theorem including_pure (result : α) : Including name base (pure result) (pure result) := by
  intro inner context above machine other _ alike
  exact .returned result alike

theorem including_failure (cause : Failure) :
    Including name base (throw (.failure cause) : EvalM α) (throw (.failure cause)) := by
  intro inner context above machine other _ alike
  exact .failed cause alike

theorem including_observe (activity : Activity) :
    Including name base (observe activity) (observe activity) := by
  intro inner context above machine other levelled alike
  rw [observe_of_unwatched levelled.unwatched_inner, observe_of_unwatched levelled.unwatched]
  exact .returned () alike

theorem including_operate (operator : BinaryOperator) (left right : Value) :
    Including name base (operate operator left right) (operate operator left right) := by
  apply Including.bind (including_observe _)
  intro _
  match Value.binary operator left right with
  | .ok value => exact including_pure value
  | .error (.error cause) => exact including_failure _
  | .error .crash =>
      intro inner context above machine other _ _
      exact .crashed

theorem including_modifyScopes {change : Scopes → Scopes}
    (changed : ∀ {above scopes other}, Scopes.Marked name base above scopes other →
      Scopes.Marked name base above (change scopes) (change other)) :
    Including name base (modifyScopes change) (modifyScopes change) := by
  intro inner context above machine other _ alike
  exact .returned () ⟨changed alike.scopes, alike.output, alike.input⟩

theorem including_define (bound : String) (value : Value) :
    let declare : Scopes → Scopes := fun scopes =>
      if scopes.isLocal bound then scopes else scopes.declare bound value
    Including name base (modifyScopes declare) (modifyScopes declare) := by
  apply including_modifyScopes
  intro above scopes other marked
  have same : other.isLocal bound = scopes.isLocal bound := by
    rw [marked.unmarked]
    rfl
  rw [same]
  split
  · exact marked
  · exact marked.declare bound value

theorem including_writeText (text : String) :
    Including name base (writeText text) (writeText text) := by
  intro inner context above machine other _ alike
  rw [writeText, get_bind_run, get_bind_run, alike.output]
  rcases machine.output.write text with ⟨output, _ | fault⟩
  · exact .returned () ⟨alike.scopes, rfl, alike.input⟩
  · exact .failed _ ⟨alike.scopes, rfl, alike.input⟩

theorem including_readText : Including name base readText readText := by
  intro inner context above machine other _ alike
  rw [readText, get_bind_run, get_bind_run, alike.input]
  rcases machine.input.readLine with ⟨fault | line, input⟩
  · exact .failed _ ⟨alike.scopes, alike.output, rfl⟩
  · exact .returned _ ⟨alike.scopes, alike.output, rfl⟩

theorem including_load (kind : Source.ImportKind) (unit : String) :
    Including name base (load kind unit) (load kind unit) := by
  intro inner context above machine other levelled alike
  rw [levelled.same, load_run, load_run]
  dsimp only
  split
  · exact .returned _ alike
  · exact .failed _ alike

theorem including_checkCalls : Including name base checkCalls checkCalls := by
  intro inner context above machine other levelled alike
  rw [levelled.same, checkCalls, read_bind_run, read_bind_run]
  dsimp only
  split
  · exact .failed _ alike
  · exact .returned () alike

/-- A bracket may put further imports on top of the mark, as long as it takes them off again. -/
theorem Including.bracket {action action' : EvalM α}
    (including : Including name base action action') {inside : Context → Context}
    (levels : ∀ {inner context}, Levelled inner context → Levelled (inside inner) (inside context))
    {enter leave : Scopes → Scopes} {aboveInside : List String}
    (entered : ∀ {scopes other}, Scopes.Marked name base above scopes other →
      Scopes.Marked name base aboveInside (enter scopes) (enter other))
    (left : ∀ {scopes other}, Scopes.Marked name base aboveInside scopes other →
      Scopes.Marked name base above (leave scopes) (leave other))
    {inner context : Context} (levelled : Levelled inner context) {machine other : Machine}
    (alike : MarkedAlike name base above machine other) :
    EndMarked name base above (bracket inside enter leave action inner machine)
      (bracket inside enter leave action' context other) := by
  have inward := levels levelled
  rw [bracket_of_unwatched levelled.unwatched_inner inward.unwatched_inner,
    bracket_of_unwatched levelled.unwatched inward.unwatched]
  have acted := including (inside inner) (inside context) aboveInside
    { machine with scopes := enter machine.scopes } { other with scopes := enter other.scopes }
    inward ⟨entered alike.scopes, alike.output, alike.input⟩
  generalize action (inside inner) { machine with scopes := enter machine.scopes } = ended,
    action' (inside context) { other with scopes := enter other.scopes } = otherEnded at acted
  cases acted with
  | returned result alike => exact .returned result ⟨left alike.scopes, alike.output, alike.input⟩
  | failed cause alike => exact .failed cause ⟨left alike.scopes, alike.output, alike.input⟩
  | crashed => exact .crashed
  | exhausted => exact .exhausted
  | excused cause excused => exact .excused cause excused

/-- Only an import of the marked unit itself can fail with the mark and go on without it. -/
theorem Including.importingOnce {action action' : EvalM Unit} (unit : String)
    (including : Including name base action action') :
    Including name base (importingOnce unit action) (importingOnce unit action') := by
  intro inner context above machine other levelled alike
  have imported := including.bracket id (fun marked => marked.beginImport unit)
    Scopes.Marked.endImport levelled alike
  rw [EvalM.importingOnce, EvalM.importingOnce, get_bind_run, get_bind_run]
  by_cases same : unit = name
  · subst same
    have importing : machine.scopes.isImporting unit = true := by
      simp [Scopes.isImporting, alike.scopes.marked]
    rw [if_pos importing]
    exact .excused _ (.inr rfl)
  · rw [alike.scopes.isImporting same]
    split
    · exact .failed _ alike
    · exact imported

theorem carries_including (name : String) (base : List String) :
    Carries .any (fun machine other => ∃ above, MarkedAlike name base above machine other)
      (fun {_} [_] => Including name base) where
  coherent := Trait.coherent_any
  value := by
    rintro machine other asked ⟨above, alike⟩ -
    have same : other.scopes.get? asked = machine.scopes.get? asked := by
      rw [alike.scopes.unmarked]
      rfl
    exact ⟨same, fun value _ => value.every_any⟩
  output := by
    rintro machine other ⟨above, alike⟩
    rw [alike.output]
  pure _ := including_pure _
  bind related next := related.bind fun result => next result (HoldsTrees.every_any result)
  get next inner context above machine other levelled alike :=
    next machine other ⟨above, alike⟩ inner context above machine other levelled alike
  failure _ := including_failure _
  exhausted _ _ _ _ _ _ _ _ := .exhausted
  applying _ _ _ := including_observe _
  operate operator _ _ _ _ := including_operate operator _ _
  patience inner context above machine other levelled alike := by
    rw [levelled.same]
    exact .returned _ alike
  load kind unit next := (including_load kind unit).bind fun source =>
    next source fun program _ => Statement.everyEach_any program
  assign _ _ := including_modifyScopes fun marked => marked.assign _ _
  define _ _ := including_define _ _
  declareEach _ := including_modifyScopes fun marked => marked.declareEach _
  writeText := including_writeText
  readText := including_readText
  checkCalls := including_checkCalls
  nested including _ _ _ _ _ levelled alike :=
    including.bracket Levelled.nested id id levelled alike
  called including _ _ _ _ _ levelled alike :=
    including.bracket Levelled.called id id levelled alike
  framed including _ _ _ _ _ levelled alike :=
    including.bracket id Scopes.Marked.push Scopes.Marked.pop levelled alike
  importingOnce := Including.importingOnce

theorem including_within {room larger : Nat} (atMost : room ≤ larger) :
    Deeper.Carried .any (fun {_} [_] => Including name base) (within room) (within larger) := by
  have carries := carries_including name base
  induction room generalizing larger with
  | zero =>
      constructor
      · intro node _ inner context above machine other _ _
        exact .excused _ (.inl trivial)
      · intro node _ inner context above machine other _ _
        exact .excused _ (.inl trivial)
  | succ room induction =>
      obtain ⟨others, rfl⟩ : ∃ others, larger = others + 1 := ⟨larger - 1, by omega⟩
      have deeper := induction (Nat.le_of_succ_le_succ atMost)
      constructor
      · exact fun every => carries.nested (carries.layered.statement deeper every)
      · exact fun every => carries.nested (carries.layered.expression deeper every)

def importStatement (kind : Source.ImportKind) (name : String) : Statement :=
  .expression (.call Builtin.importUnit.name
    [.literal (.text (Text.quote kind.spelling)), .literal (.text (Text.quote name))])

/-- What an import makes of how its unit's statements end. -/
def importOutcome : EStateM.Result Stop Machine Flow → EStateM.Result Stop Machine Flow
  | .ok (.normal _) after | .ok (.ret _) after => .ok (.normal .none) after
  | .ok .breakLoop after => .error (.failure (.runtime (.signalOutsideLoop "break"))) after
  | .ok .continueLoop after => .error (.failure (.runtime (.signalOutsideLoop "continue"))) after
  | .error stop after => .error stop after

theorem nested_of_unwatched {context : Context} (unwatched : context.watch = none)
    (action : EvalM α) (machine : Machine) :
    nested action context machine =
      action { context with nesting := context.nesting + 1 } machine := by
  rw [nested, bracket_of_unwatched unwatched unwatched]
  dsimp only [id]
  rcases action { context with nesting := context.nesting + 1 } machine with
    ⟨value, after⟩ | ⟨stop, after⟩
  · rfl
  · cases stop <;> rfl

theorem CutOff.bind {action : EvalM α} {context : Context} {machine : Machine}
    (cut : CutOff (action context machine)) (next : α → EvalM β) :
    CutOff ((action >>= next) context machine) :=
  EndsBy.bind cut next

theorem cutOff_tooDeep (context : Context) (machine : Machine) :
    CutOff ((tooDeep : EvalM α) context machine) :=
  ⟨.runtime (.evaluationDepthExceeded context.limits.evaluation), machine, trivial, rfl⟩

section Call

variable {context : Context} (unwatched : context.watch = none) {machine : Machine}
include unwatched

theorem expressionStatement_run (room : Nat) (node : Expression) :
    statementWithin (room + 1) (.expression node) context machine =
      (do return Flow.normal (← expressionWithin room node))
        { context with nesting := context.nesting + 1 } machine := by
  rw [statementWithin, nested_of_unwatched unwatched]
  rfl

theorem literal_run (room : Nat) (literal : Literal) :
    expressionWithin (room + 1) (.literal literal) context machine =
      .ok (.ofLiteral literal) machine := by
  rw [expressionWithin, nested_of_unwatched unwatched]
  rfl

theorem literals_run (room : Nat) (first second : Literal) :
    expressions (within (room + 1)) [] [.literal first, .literal second] context machine =
      .ok [.ofLiteral first, .ofLiteral second] machine := by
  simp only [expressions, within, bind_run, literal_run unwatched]
  rfl

theorem builtinCall_run {builtin : Builtin} (unbound : machine.scopes.get? builtin.name = none)
    (room : Nat) (arguments : List Expression) :
    expressionWithin (room + 1) (.call builtin.name arguments) context machine =
      (do applyBuiltin (within room) builtin (← expressions (within room) [] arguments))
        { context with nesting := context.nesting + 1 } machine := by
  rw [expressionWithin, nested_of_unwatched unwatched, expression, call, get_bind_run, unbound,
    Builtin.ofName?_name]
  rfl

theorem applyImport_run (deeper : Deeper) (kind : Source.ImportKind) (name : String) :
    applyBuiltin deeper .importUnit [.ofContent kind.spelling, .ofContent name] context machine =
      importUnit deeper kind name context machine := by
  have spelled : ∀ content, (Value.ofContent content).content? = some content := by
    intro content
    rw [Value.ofContent, Value.content?, Text.unquote_quote]
  rw [applyBuiltin, bind_run, observe_of_unwatched unwatched]
  simp only [textArgument, spelled, pure_bind, Source.ImportKind.ofText?_spelling]

end Call

theorem cutOff_import_of_room_lt {room : Nat} (few : room < 3) {context : Context}
    (unwatched : context.watch = none) {machine : Machine}
    (unbound : machine.scopes.get? Builtin.importUnit.name = none) (kind : Source.ImportKind)
    (name : String) :
    CutOff (statementWithin room (importStatement kind name) context machine) := by
  match room with
  | 0 => exact cutOff_tooDeep context machine
  | 1 =>
      rw [importStatement, expressionStatement_run unwatched]
      exact (cutOff_tooDeep _ machine).bind _
  | 2 =>
      let inner : Context := { context with nesting := context.nesting + 1 }
      have called : CutOff (expressionWithin 1 (.call Builtin.importUnit.name
          [.literal (.text (Text.quote kind.spelling)), .literal (.text (Text.quote name))])
          inner machine) := by
        have unwatchedInner : inner.watch = none := unwatched
        rw [builtinCall_run unwatchedInner unbound]
        exact ((cutOff_tooDeep _ machine).bind _).bind _
      rw [importStatement, expressionStatement_run unwatched]
      exact called.bind _

theorem import_run {context : Context} (unwatched : context.watch = none) {machine : Machine}
    (unbound : machine.scopes.get? Builtin.importUnit.name = none) (room : Nat)
    (kind : Source.ImportKind) (name : String) :
    statementWithin (room + 3) (importStatement kind name) context machine =
      (do return Flow.normal (← importUnit (within (room + 1)) kind name))
        { context with nesting := context.nesting + 2 } machine := by
  let inner : Context := { context with nesting := context.nesting + 1 }
  let innermost : Context := { context with nesting := context.nesting + 2 }
  have unwatchedInner : inner.watch = none := unwatched
  have unwatchedInnermost : innermost.watch = none := unwatched
  have called : expressionWithin (room + 2) (.call Builtin.importUnit.name
        [.literal (.text (Text.quote kind.spelling)), .literal (.text (Text.quote name))])
        inner machine =
      importUnit (within (room + 1)) kind name innermost machine := by
    rw [builtinCall_run unwatchedInner unbound, bind_run, literals_run unwatchedInnermost]
    exact applyImport_run unwatchedInnermost (within (room + 1)) kind name
  rw [importStatement, expressionStatement_run unwatched, bind_run, bind_run, called]
  rfl

theorem unitStatements_block_run (deeper : Deeper) (body : List Statement) (context : Context)
    (machine : Machine) :
    unitStatements deeper [.block body] context machine =
      (do discard (finish (← statements deeper .none body))) context machine := by
  rw [unitStatements, unitStatement, bind_run, bind_run]
  rcases statements deeper .none body context machine with ⟨flow, after⟩ | ⟨stop, after⟩
  · cases flow <;> rfl
  · rfl

/-- Whether a signal is refused before or after the unit is done makes no difference. -/
theorem importUnit_block_run {context : Context} (unwatched : context.watch = none)
    {machine : Machine} {kind : Source.ImportKind} {name source : String} {body : List Statement}
    (fresh : name ∉ machine.scopes.importing) (loaded : context.loader kind name = .ok source)
    (parsed : Program.parse source = .ok [.block body]) (deeper : Deeper) :
    (do return Flow.normal (← importUnit deeper kind name)) context machine =
      importOutcome (importing name (statements deeper .none body) context machine) := by
  let marked : Machine := { machine with scopes := machine.scopes.beginImport name }
  have unmarked : ¬machine.scopes.isImporting name = true := by
    simpa [Scopes.isImporting] using fresh
  rw [bind_run, importUnit, bind_run, importingOnce, get_bind_run, if_neg unmarked, importing,
    importing, bracket_of_unwatched unwatched unwatched, bracket_of_unwatched unwatched unwatched]
  dsimp only [id]
  rw [load_bind_run, loaded]
  dsimp only
  rw [parsed]
  dsimp only
  rw [unitStatements_block_run, bind_run]
  rcases statements deeper .none body context marked with ⟨flow, after⟩ | ⟨stop, after⟩
  · cases flow <;> rfl
  · cases stop <;> rfl

theorem MarkedAlike.eq_endImport {after otherAfter : Machine}
    (alike : MarkedAlike name base [] after otherAfter) :
    otherAfter = { after with scopes := after.scopes.endImport } := by
  obtain ⟨⟨marked, unmarked⟩, output, input⟩ := alike
  have scopes : otherAfter.scopes = after.scopes.endImport := by
    rw [unmarked, Scopes.endImport, marked]
    rfl
  rw [← scopes, ← output, ← input]

/-- A run inside an import that ends by itself, and not because of the import, is one without. -/
theorem Including.eq_importing {action action' : EvalM α} {machine : Machine}
    (including : Including name machine.scopes.importing action action') {inner context : Context}
    (levelled : Levelled inner context) {after : Machine}
    (ends : EndsIn (importing name action inner machine) after)
    (unexcused : ∀ cause, importing name action inner machine = .error (.failure cause) after →
      ¬IsExcused name cause) :
    action' context machine = importing name action inner machine := by
  have unwatched := levelled.unwatched_inner
  have alike : MarkedAlike name machine.scopes.importing []
      { machine with scopes := machine.scopes.beginImport name } machine := ⟨⟨rfl, rfl⟩, rfl, rfl⟩
  have acted := including inner context [] _ machine levelled alike
  rw [importing, bracket_of_unwatched unwatched unwatched] at ends unexcused ⊢
  dsimp only [id] at ends unexcused ⊢
  generalize action inner { machine with scopes := machine.scopes.beginImport name } = ended,
    action' context machine = otherEnded at acted ends unexcused ⊢
  cases acted with
  | returned result alike => rw [alike.eq_endImport]
  | failed cause alike => rw [alike.eq_endImport]
  | crashed => simp [EndsIn] at ends
  | exhausted => simp [EndsIn] at ends
  | excused cause excused =>
      obtain ⟨value, ⟨⟩⟩ | ⟨_, ⟨⟩⟩ := ends
      exact absurd excused (unexcused cause rfl)

theorem endsIn_importOutcome {result : EStateM.Result Stop Machine Flow} {after : Machine} :
    EndsIn (importOutcome result) after ↔ EndsIn result after := by
  rcases result with ⟨flow, ended⟩ | ⟨stop, ended⟩
  · cases flow <;> simp [importOutcome, EndsIn]
  · rfl

/-- Importing a unit is running its statements where the call stands. -/
theorem import_is_inclusion (room : Nat) (context : Context) (machine : Machine)
    (kind : Source.ImportKind) (name source : String) (body : List Statement)
    (unwatched : context.watch = none)
    (unbound : machine.scopes.get? Builtin.importUnit.name = none)
    (fresh : name ∉ machine.scopes.importing) (loaded : context.loader kind name = .ok source)
    (parsed : Program.parse source = .ok [.block body]) :
    let imported := statementWithin room (importStatement kind name) context machine
    let direct := statements (within room) .none body context machine
    ∀ after, EndsIn imported after → ¬CutOff imported →
      imported ≠ .error (.failure (.runtime (.recursiveImport name))) after →
      EndsIn direct after ∧ imported = importOutcome direct := by
  intro imported direct after ends uncut unrepeated
  by_cases few : room < 3
  · exact absurd (cutOff_import_of_room_lt few unwatched unbound kind name) uncut
  obtain ⟨left, rfl⟩ : ∃ left, room = left + 3 := ⟨room - 3, by omega⟩
  let inner : Context := { context with nesting := context.nesting + 2 }
  have unwatchedInner : inner.watch = none := unwatched
  have outcome : imported = importOutcome
      (importing name (statements (within (left + 1)) .none body) inner machine) := by
    have called := import_run unwatched unbound left kind name
    have run := importUnit_block_run unwatchedInner fresh loaded parsed (within (left + 1))
    exact called.trans run
  have including : Including name machine.scopes.importing
      (statements (within (left + 1)) .none body) (statements (within (left + 3)) .none body) := by
    have fewer : left + 1 ≤ left + 3 := Nat.add_le_add_left (by decide) left
    exact (carries_including name _).body (including_within fewer) (Statement.everyEach_any body)
  have levelled : Levelled inner context := ⟨unwatched, rfl⟩
  have endsInside := endsIn_importOutcome.mp (outcome ▸ ends)
  have unexcused : ∀ cause, importing name (statements (within (left + 1)) .none body) inner
      machine = .error (.failure cause) after → ¬IsExcused name cause := by
    intro cause failed excused
    rw [failed] at outcome
    rcases excused with limit | rfl
    · exact uncut ⟨cause, after, limit, outcome⟩
    · exact unrepeated outcome
  have same : direct = _ := including.eq_importing levelled endsInside unexcused
  rw [same]
  exact ⟨endsInside, outcome⟩

theorem import_is_inclusion_return :
    let source := "\x7bx = \"a\"; import(\"FILE\", \"inner\"); ret y; z = y;\x7d"
    let loader : Source.Loader := fun _ name =>
      .ok (if name = "inner" then "\x7by = x;\x7d" else source)
    let context : Context := { limits := { calls := 0, evaluation := 9 }, loader, patience := 0 }
    let machine : Machine := { scopes := { importing := ["main"] } }
    let imported := statementWithin 9 (importStatement .lib "unit") context machine
    ∃ body after, Program.parse source = .ok [.block body] ∧
      (∃ value, imported = .ok value after) ∧
      EndsIn (statements (within 9) .none body context machine) after ∧
      imported = importOutcome (statements (within 9) .none body context machine) := by
  intro source loader context machine imported
  have parsed : ∃ body, Program.parse source = .ok [.block body] := by decide +kernel
  have returns : ∃ value after, imported = .ok value after := by decide +kernel
  obtain ⟨body, parsed⟩ := parsed
  obtain ⟨value, after, returned⟩ := returns
  have unrepeated : imported ≠ .error (.failure (.runtime (.recursiveImport "unit"))) after := by
    rw [returned]
    exact nofun
  have included := import_is_inclusion 9 context machine .lib "unit" source body rfl rfl
    (by decide) rfl parsed after (.inl ⟨value, returned⟩)
    (not_cutOff_of_returns ⟨value, after, returned⟩) unrepeated
  exact ⟨body, after, parsed, ⟨value, returned⟩, included⟩

end Evaluation

end Easel
