import Easel.Proofs.Evaluation.Crashing
import Easel.Proofs.Interpreter.Pieces
import Easel.Proofs.Lexemes.Bytes
import Easel.Proofs.Parser.Compatibility

/-!
What ends a run for no reason that a program could be told. A crash is a part that is asked for and
not there: a cut inside a character, a token behind the last one, a frame of an empty stack, an
argument that was not given, an item of something empty. Each place where a part is asked for is
looked at here in a form in which the part may be missing, and this form is compared with the one
that takes it for granted. Only an item that a program asks for itself can be missing, and only from
something empty at a position that is no number.
-/

namespace Easel

namespace Parser

variable {α β : Type}

/-- A reader that succeeds has moved on to a position that is not behind the last token. -/
def Advances (reader : Parser α) : Prop :=
  ∀ tokens result rest, reader tokens = .ok (result, rest) →
    ∃ position ≤ tokens.length, rest = tokens.drop position

theorem Advances.bind {reader : Parser α} {next : α → Parser β} (first : Advances reader)
    (second : ∀ result, Advances (next result)) : Advances (reader >>= next) := by
  intro tokens result rest read
  rw [bind_apply] at read
  cases ended : reader tokens with
  | error error =>
      rw [ended] at read
      cases read
  | ok found =>
      rw [ended] at read
      obtain ⟨position, inside, left⟩ := first tokens found.1 found.2 ended
      obtain ⟨further, insideRest, rfl⟩ := second found.1 found.2 result rest read
      rw [left, List.length_drop] at insideRest
      refine ⟨position + further, by omega, ?_⟩
      rw [left, List.drop_drop]

theorem advances_of_stays {reader : Parser α}
    (stays : ∀ tokens result rest, reader tokens = .ok (result, rest) → rest = tokens) :
    Advances reader := by
  intro tokens result rest read
  exact ⟨0, Nat.zero_le _, stays tokens result rest read⟩

theorem advances_throw (error : SyntaxError) : Advances (throw error : Parser α) := by
  intro tokens result rest read
  cases read

theorem advances_skip : Advances skip := by
  intro tokens result rest read
  cases read
  cases tokens with
  | nil => exact ⟨0, Nat.le_refl _, rfl⟩
  | cons token rest => exact ⟨1, Nat.succ_le_succ (Nat.zero_le _), rfl⟩

theorem advances_look {look : Parser (Option Token)}
    (stays : ∀ tokens result rest, look tokens = .ok (result, rest) → rest = tokens)
    {next : Option Token → Parser α} (atEnd : Advances (next none))
    (atToken : ∀ token other : Token, token = other → Advances (next (some token))) :
    Advances (look >>= next) := by
  apply Advances.bind (advances_of_stays stays)
  intro seen
  cases seen with
  | none => exact atEnd
  | some token => exact atToken token token rfl

theorem compatible_advances : Compatible Eq (fun reader _ => Advances reader) where
  word := congrArg Token.word
  pure _ := advances_of_stays fun _ _ _ read => by cases read; rfl
  bind := Advances.bind
  unexpectedEnd _ := advances_throw _
  atToken _ _ := advances_throw _
  invalidNumber _ _ _ := advances_throw _
  current? := advances_look fun _ _ _ read => by cases read; rfl
  following? := advances_look fun _ _ _ read => by cases read; rfl
  skip := advances_skip

theorem advances_within (rounds room : Nat) :
    Advances (statementWithin rounds room) ∧
      ∀ precedence, Advances (expressionWithin rounds room precedence) := by
  have refused : ∀ {α : Type}, Advances (tooDeep : Parser α) := by
    intro α tokens result rest read
    cases read
  exact compatible_advances.within rounds 0 refused (fun _ => refused) room

theorem advances_program (rounds room : Nat) :
    Advances (statementsUntilEnd (statementWithin rounds room) rounds []) := by
  have statement := (advances_within rounds room).1
  exact @Compatible.statementsUntilEnd _ _ compatible_advances _ (statementWithin rounds room)
    statement rounds []

end Parser

theorem Scopes.getElem?_stack (scopes : Scopes) :
    0 < scopes.depth ∧ scopes.frames.reverse[scopes.depth - 1]? = some scopes.current := by
  refine ⟨Nat.succ_pos _, ?_⟩
  rw [depth, frames, List.reverse_cons, List.length_cons, Nat.add_sub_cancel, ← List.length_reverse,
    List.getElem?_concat_length]

theorem Text.Template.segments_ne_nil (template : String) :
    0 < (Text.Template.segments template).length := by
  have some : ∀ characters segment, segmentsFrom segment characters ≠ [] := by
    intro characters segment
    fun_induction segmentsFrom segment characters with
    | case1 segment => exact List.cons_ne_nil _ _
    | case2 segment rest induction => exact List.cons_ne_nil _ _
    | case3 segment c rest _ induction => exact induction
  exact List.length_pos_iff.mpr (some template.toList [])

theorem Input.splitAt?_withoutEnd (line : String) :
    ∃ ends, Text.splitAt? line.toList (Text.size (withoutEnd line).toList) =
      some ((withoutEnd line).toList, ends) := by
  let isEnd : Char → Bool := fun c => c = '\r' || c = '\n'
  have parts := List.takeWhile_append_dropWhile (p := isEnd) (l := line.toList.reverse)
  have reversed := congrArg List.reverse parts
  rw [List.reverse_append, List.reverse_reverse] at reversed
  refine ⟨(line.toList.reverse.takeWhile isEnd).reverse, ?_⟩
  have kept : (withoutEnd line).toList = (line.toList.reverse.dropWhile isEnd).reverse := by
    rw [withoutEnd, String.toList_ofList]
  rw [kept]
  nth_rewrite 1 [← reversed]
  exact Text.splitAt?_append _ _

/-- An index that passes the check is in bounds, unless nothing is, and the position is no
number. -/
theorem Value.selectIndex_in_bounds {position : Number.Whole} {length index : Nat}
    (selected : selectIndex position length = .ok index) :
    index < length ∨ length = 0 ∧ position = .nan := by
  unfold selectIndex at selected
  cases position with
  | nan =>
      cases selected
      rcases Nat.eq_zero_or_pos length with empty | some
      · exact .inr ⟨empty, rfl⟩
      · exact .inl some
  | infinite negative => cases selected
  | whole negative magnitude =>
      dsimp only at selected
      split at selected
      · cases selected
      · next inside =>
          cases selected
          simp only [Bool.or_eq_true, decide_eq_true_eq, not_or, Nat.not_le] at inside
          exact .inl inside.2

namespace Evaluation

open EvalM

def argumentAt (arguments : List Value) (place : Nat) : EvalM Value :=
  match arguments[place]? with
  | some argument => pure argument
  | none => throw .crash

def importByPlaces (deeper : Deeper) (arguments : List Value) : EvalM Value := do
  if arguments.length ≠ 2 then
    fail (.incorrectArity Builtin.importUnit.name arguments.length 2)
  else
    let spelling ← textArgument .importUnit (← argumentAt arguments 0)
    match Source.ImportKind.ofText? spelling with
    | some kind =>
        importUnit deeper kind (← textArgument .importUnit (← argumentAt arguments 1))
    | none => fail (.unknownImportKind spelling)

/-- Both arguments are there once their number has been checked. -/
theorem applyBuiltin_importUnit_eq (deeper : Deeper) (arguments : List Value) :
    applyBuiltin deeper .importUnit arguments =
      (do observe (.applying .importUnit arguments); importByPlaces deeper arguments) := by
  match arguments with
  | [] => rfl
  | [argument] => rfl
  | [kind, name] => rfl
  | first :: second :: third :: rest =>
      have many : (first :: second :: third :: rest).length ≠ 2 := by simp
      rw [importByPlaces, if_pos many]
      rfl

end Evaluation

/-- Every part that is asked for is there, items of lists and texts apart. -/
structure PartsAreThere : Prop where
  /-- The lexer cuts a text where characters meet. -/
  lexemes : ∀ source, Token.tokenizeBytes? source = some (Token.tokenize source)
  /-- So does whoever takes the quotes off a text, -/
  contents : ∀ text, Text.unquote? text = some (Text.unquote text)
  /-- and whoever takes the line ends off a line. -/
  lines : ∀ line, ∃ ends, Text.splitAt? line.toList (Text.size (Input.withoutEnd line).toList) =
    some ((Input.withoutEnd line).toList, ends)
  /-- The parser never moves behind the last token. -/
  tokens : ∀ rounds room, Parser.Advances (Parser.statementWithin rounds room) ∧
    (∀ precedence, Parser.Advances (Parser.expressionWithin rounds room precedence)) ∧
    Parser.Advances (Parser.statementsUntilEnd (Parser.statementWithin rounds room) rounds [])
  /-- The stack of frames has a last one. -/
  frames : ∀ scopes : Scopes, 0 < scopes.depth ∧
    scopes.frames.reverse[scopes.depth - 1]? = some scopes.current
  /-- An import has both of its arguments. -/
  arguments : ∀ deeper arguments, Evaluation.applyBuiltin deeper .importUnit arguments = (do
    EvalM.observe (.applying .importUnit arguments)
    Evaluation.importByPlaces deeper arguments)
  /-- A template has a segment more than it has holes, and hence one. -/
  segments : ∀ template, 0 < (Text.Template.segments template).length
  /-- An index that passes the check is in bounds, if it comes from a number. -/
  items : ∀ position length index, position ≠ .nan →
    Value.selectIndex position length = .ok index → index < length

theorem partsAreThere : PartsAreThere where
  lexemes := Token.tokenizeBytes?_eq
  contents := Text.unquote?_eq
  lines := Input.splitAt?_withoutEnd
  tokens rounds room := ⟨(Parser.advances_within rounds room).1,
    (Parser.advances_within rounds room).2, Parser.advances_program rounds room⟩
  frames := Scopes.getElem?_stack
  arguments := Evaluation.applyBuiltin_importUnit_eq
  segments := Text.Template.segments_ne_nil
  items _ _ _ number selected :=
    (Value.selectIndex_in_bounds selected).resolve_right fun empty => number empty.2

namespace Interpreter

open Evaluation

theorem passes_of_occurs (interpreter : Interpreter) {source : String} {tree : Program}
    (parsed : Program.parse source = .ok tree) {machine : Machine} {moment : Moment}
    (occurs : Occurs (program tree) interpreter.context machine moment) :
    interpreter.Passes source machine moment := by
  obtain ⟨watch, after, paused⟩ := occurs
  refine ⟨watch, ?_⟩
  have evaluated : program tree ({ interpreter with watch := some watch } : Interpreter).context
      machine = .error (.paused moment) after := paused
  rw [run, parsed]
  dsimp only
  rw [runProgram, evaluated]
  dsimp only [flushAfter]

theorem exists_crashes_of_run_crash (interpreter : Interpreter)
    (unwatched : interpreter.watch = none) {source : String} {machine : Machine}
    (crashed : (interpreter.run source machine).1 = .error .crash) :
    ∃ moment, interpreter.Passes source machine moment ∧ Crashes moment := by
  rw [run] at crashed
  cases parsed : Program.parse source with
  | error error =>
      rw [parsed] at crashed
      cases crashed
  | ok tree =>
      rw [parsed] at crashed
      dsimp only at crashed
      rcases interpreter.runProgram_cases tree machine with same | ⟨fault, failed⟩
      · rw [same] at crashed
        cases evaluated : program tree interpreter.context machine with
        | ok value after =>
            rw [evaluated] at crashed
            cases crashed
        | error stop after =>
            rw [evaluated] at crashed
            cases crashed
            obtain ⟨moment, occurs, crashes⟩ := exists_crashes_of_crash unwatched evaluated
            exact ⟨moment, interpreter.passes_of_occurs parsed occurs, crashes⟩
      · rw [failed] at crashed
        cases crashed

theorem crashes_only_where_item_is_missing :
    (∀ (interpreter : Interpreter) source machine, interpreter.watch = none →
      (interpreter.run source machine).1 = .error .crash →
        ∃ moment, interpreter.Passes source machine moment ∧ Crashes moment) ∧
    (∀ operator left right, Value.binary operator left right = .error .crash ↔
      operator = .index ∧ left.MissesItem right) ∧
    PartsAreThere ∧
    ∃ source after, ({} : Interpreter).run source {} = (.error .crash, after) := by
  refine ⟨?_, fun _ _ _ => Value.binary_eq_crash_iff, partsAreThere, "\"\"[0 / 0];", ?_⟩
  · intro interpreter source machine unwatched crashed
    exact interpreter.exists_crashes_of_run_crash unwatched crashed
  · decide +kernel

theorem crashes_only_where_item_is_missing_import :
    let loader : Source.Loader := fun _ _ => .ok "x = 1 / 0; [][x - x];"
    let interpreter : Interpreter := { loader }
    let source := "import(\"LIB\", \"unit\");"
    let machine : Machine := {}
    interpreter.watch = none ∧ (∃ after, interpreter.run source machine = (.error .crash, after)) ∧
      ∃ moment, interpreter.Passes source machine moment ∧ Crashes moment := by
  intro loader interpreter source machine
  have crashes : ∃ after, interpreter.run source machine = (.error .crash, after) := by
    decide +kernel
  obtain ⟨after, crashed⟩ := crashes
  have occurs := crashes_only_where_item_is_missing.1 interpreter source machine rfl
    (congrArg Prod.fst crashed)
  exact ⟨rfl, ⟨after, crashed⟩, occurs⟩

end Interpreter

end Easel
