import Easel.Proofs.Interpreter.Pieces

/-!
Running a text with a sink that holds only so much. A write that does not fit is kept as far as it
fits, and fails; nothing catches the failure, and nothing is written on its way out. The run is
therefore, step by step, the run with an unlimited sink up to the write that does not fit, and
what it has written then is the beginning of what the unlimited run goes on to write.
-/

namespace Easel

namespace Sink

def upTo (sink : Sink) (size : Nat) : Sink :=
  { sink with capacity := some size }

/-- The first sink is full, and the second one was given more. -/
structure Truncates (size : Nat) (kept whole : Sink) : Prop where
  full : kept.written.size = size
  lost : ∃ lost : ByteArray, 0 < lost.size ∧ whole.written = kept.written ++ lost

theorem Truncates.extend {size : Nat} {kept whole later : Sink}
    (truncates : Truncates size kept whole) (extended : whole.Extends later) :
    Truncates size kept later := by
  rcases truncates.lost with ⟨lost, some, parts⟩
  rcases extended with ⟨more, same⟩
  refine ⟨truncates.full, lost ++ more, ?_, ?_⟩
  · rw [ByteArray.size_append]
    exact Nat.add_pos_left some _
  · rw [same, parts, ByteArray.append_assoc]

theorem Truncates.size_lt {size : Nat} {kept whole : Sink} (truncates : Truncates size kept whole) :
    size < whole.written.size := by
  rcases truncates with ⟨full, lost, some, parts⟩
  rw [parts, ByteArray.size_append, full]
  exact Nat.lt_add_of_pos_right some

theorem Truncates.written_eq {size : Nat} {kept whole : Sink}
    (truncates : Truncates size kept whole) : kept.written = whole.written.extract 0 size := by
  rcases truncates with ⟨full, lost, some, parts⟩
  rw [parts, ByteArray.extract_append_eq_left full.symm]

theorem extract_append_room (written added : ByteArray) (room : Nat) :
    (written ++ added).extract 0 (written.size + room) = written ++ added.extract 0 room := by
  have whole : written.extract 0 (written.size + room) = written := by
    rw [← Nat.max_eq_left (Nat.le_add_right written.size room), ByteArray.extract_zero_max_size]
  rw [ByteArray.extract_append, whole, Nat.zero_sub, Nat.add_sub_cancel_left]

theorem write_upTo {sink : Sink} (unlimited : sink.capacity = none) {size : Nat}
    (fits : sink.written.size ≤ size) (text : String) :
    let whole := (sink.write text).1
    whole.written.size ≤ size ∧ (sink.upTo size).write text = (whole.upTo size, none) ∨
      ∃ kept, (sink.upTo size).write text = (kept, some .sinkFull) ∧ Truncates size kept whole := by
  intro whole
  let bytes := text.toUTF8
  have given : whole = { sink with written := sink.written ++ bytes } := by
    rw [show whole = (sink.write text).1 from rfl, write_of_unlimited sink text unlimited]
  have accepted : (sink.upTo size).accepts bytes.size =
      min bytes.size (size - sink.written.size) := rfl
  by_cases room : sink.written.size + bytes.size ≤ size
  · left
    have all : (sink.upTo size).accepts bytes.size = bytes.size := by
      rw [accepted]
      omega
    refine ⟨?_, ?_⟩
    · rw [given, ByteArray.size_append]
      exact room
    · rw [given]
      exact if_pos all
  · right
    let taken := size - sink.written.size
    have part : (sink.upTo size).accepts bytes.size = taken := by
      rw [accepted]
      omega
    have short : taken < bytes.size := by omega
    have cut : bytes = bytes.extract 0 taken ++ bytes.extract taken bytes.size := by
      rw [← ByteArray.extract_eq_extract_append_extract taken (Nat.zero_le _) (Nat.le_of_lt short),
        ByteArray.extract_zero_size]
    refine ⟨{ sink.upTo size with written := sink.written ++ bytes.extract 0 taken }, ?_, ?_, ?_⟩
    · rw [← part]
      apply if_neg
      rw [part]
      exact Nat.ne_of_lt short
    · rw [ByteArray.size_append, ByteArray.size_extract]
      omega
    · refine ⟨bytes.extract taken bytes.size, ?_, ?_⟩
      · rw [ByteArray.size_extract]
        omega
      · rw [given, ByteArray.append_assoc, ← cut]

end Sink

def Machine.upTo (machine : Machine) (size : Nat) : Machine :=
  { machine with output := machine.output.upTo size }

namespace Evaluation

open EvalM

variable {α β : Type} {size : Nat}

abbrev full : Stop :=
  .failure (.runtime (.channel .sinkFull))

/-- The second run has ended like the first one, or by the first write that does not fit. -/
inductive EndsTruncated (size : Nat) :
    EStateM.Result Stop Machine α → EStateM.Result Stop Machine α → Prop where
  | returned (value : α) {after : Machine} (fits : after.output.written.size ≤ size) :
      EndsTruncated size (.ok value after) (.ok value (after.upTo size))
  | stopped (stop : Stop) {after : Machine} (fits : after.output.written.size ≤ size) :
      EndsTruncated size (.error stop after) (.error stop (after.upTo size))
  | cut {result : EStateM.Result Stop Machine α} {kept : Machine}
      (truncates : Sink.Truncates size kept.output (final result).output) :
      EndsTruncated size result (.error full kept)

/-- The second action does with the sink that ends what the first one does with the sink that does
not, up to the first write that does not fit. Nobody watches: a watched run could pause on the way
out of a run that was cut. -/
structure Truncated (size : Nat) (action action' : EvalM α) : Prop where
  appends : Appends action
  ends : ∀ (context : Context) (machine : Machine), context.watch = none →
    machine.output.capacity = none → machine.output.written.size ≤ size →
      EndsTruncated size (action context machine) (action' context (machine.upTo size))

structure Indistinct (machine other : Machine) : Prop where
  scopes : other.scopes = machine.scopes
  flush : other.output.flush = machine.output.flush

theorem Quiet.truncated {action : EvalM α} (quiet : Quiet action) :
    Truncated size action action := by
  refine ⟨quiet.appends, ?_⟩
  intro context machine _ _ fits
  have same := quiet context machine (machine.output.upTo size)
  have kept := quiet.output_final context machine
  rw [show machine.upTo size = { machine with output := machine.output.upTo size } from rfl, same]
  cases ended : action context machine with
  | ok value after =>
      rw [ended] at kept
      rw [← kept] at fits ⊢
      exact .returned value fits
  | error stop after =>
      rw [ended] at kept
      rw [← kept] at fits ⊢
      exact .stopped stop fits

theorem Truncated.bind {action action' : EvalM α} {next next' : α → EvalM β}
    (first : Truncated size action action')
    (second : ∀ value, Truncated size (next value) (next' value)) :
    Truncated size (action >>= next) (action' >>= next') := by
  refine ⟨first.appends.bind fun value => (second value).appends, ?_⟩
  intro context machine unwatched unlimited fits
  have added := first.appends context machine
  have ended := first.ends context machine unwatched unlimited fits
  rw [bind_run, bind_run]
  generalize action context machine = result, action' context (machine.upTo size) = cutResult
    at added ended
  cases ended with
  | returned value fitsAfter =>
      have unlimitedAfter := added.capacity_eq.trans unlimited
      exact (second value).ends context _ unwatched unlimitedAfter fitsAfter
  | stopped stop fitsAfter => exact .stopped stop fitsAfter
  | cut truncates =>
      cases result with
      | ok value middle => exact .cut (truncates.extend ((second value).appends context middle))
      | error stop middle => exact .cut truncates

theorem truncated_writeText (text : String) :
    Truncated size (writeText text) (writeText text) := by
  refine ⟨appends_writeText text, ?_⟩
  intro context machine _ unlimited fits
  have whole : (machine.output.write text).2 = none := by
    rw [Sink.write_of_unlimited _ text unlimited]
  have written := Sink.write_upTo unlimited fits text
  rw [writeText, get_bind_run, get_bind_run]
  generalize machine.output.write text = outcome at whole written
  rcases outcome with ⟨output, fault⟩
  subst whole
  rcases written with ⟨fitsAfter, same⟩ | ⟨kept, failed, truncates⟩
  · rw [show (machine.upTo size).output = machine.output.upTo size from rfl, same]
    exact .returned () fitsAfter
  · rw [show (machine.upTo size).output = machine.output.upTo size from rfl, failed]
    exact .cut truncates

theorem Truncated.bracket {action action' : EvalM α} (truncated : Truncated size action action')
    {inside : Context → Context} {enter leave : Scopes → Scopes}
    (quiet : ∀ context, (inside context).watch = context.watch) :
    Truncated size (bracket inside enter leave action) (bracket inside enter leave action') := by
  refine ⟨truncated.appends.bracket inside enter leave, ?_⟩
  intro context machine unwatched unlimited fits
  have unwatchedInside : (inside context).watch = none := (quiet context).trans unwatched
  have ended := truncated.ends (inside context) { machine with scopes := enter machine.scopes }
    unwatchedInside unlimited fits
  rw [bracket_of_unwatched unwatched unwatchedInside,
    bracket_of_unwatched unwatched unwatchedInside]
  have entered : Machine.upTo { machine with scopes := enter machine.scopes } size =
      { machine.upTo size with scopes := enter (machine.upTo size).scopes } := rfl
  rw [entered] at ended
  generalize action (inside context) { machine with scopes := enter machine.scopes } = result,
    action' (inside context) { machine.upTo size with scopes := enter (machine.upTo size).scopes } =
      cutResult
    at ended
  cases ended with
  | returned value fitsAfter => exact .returned value fitsAfter
  | stopped stop fitsAfter => cases stop <;> exact .stopped _ fitsAfter
  | cut truncates =>
      match result with
      | .ok _ _ => exact .cut truncates
      | .error (.failure _) _ => exact .cut truncates
      | .error .crash _ => exact .cut truncates
      | .error .exhausted _ => exact .cut truncates
      | .error (.paused _) _ => exact .cut truncates

theorem Truncated.importingOnce {action action' : EvalM Unit} (name : String)
    (truncated : Truncated size action action') :
    Truncated size (importingOnce name action) (importingOnce name action') := by
  refine ⟨truncated.appends.importingOnce name, ?_⟩
  intro context machine unwatched unlimited fits
  have marked : Truncated size (importing name action) (importing name action') :=
    truncated.bracket fun _ => rfl
  rw [EvalM.importingOnce, EvalM.importingOnce, get_bind_run, get_bind_run,
    show (machine.upTo size).scopes = machine.scopes from rfl]
  split
  · exact .stopped _ fits
  · exact marked.ends context machine unwatched unlimited fits

theorem carries_truncated (size : Nat) :
    Carries .any Indistinct (fun {_} [_] => Truncated size) where
  coherent := Trait.coherent_any
  value indistinct _ := by
    rw [indistinct.scopes]
    exact ⟨rfl, fun value _ => value.every_any⟩
  output indistinct := indistinct.flush
  pure _ := (quiet_pure _).truncated
  bind first second := first.bind fun value => second value (HoldsTrees.every_any value)
  get next :=
    { appends := fun context machine => (next machine machine ⟨rfl, rfl⟩).appends context machine
      ends := fun context machine => (next machine (machine.upTo size) ⟨rfl, rfl⟩).ends context
        machine }
  failure _ := (quiet_throw _).truncated
  exhausted _ := (quiet_throw _).truncated
  applying _ _ _ := (quiet_observe _).truncated
  operate operator left right _ _ := by
    apply Truncated.bind (quiet_observe _).truncated
    intro _
    cases Value.binary operator left right with
    | ok value => exact (quiet_pure value).truncated
    | error mishap =>
        cases mishap with
        | error cause => exact (quiet_throw _).truncated
        | crash => exact (quiet_throw _).truncated
  patience := quiet_patience.truncated
  load kind name next := Truncated.bind (quiet_load kind name).truncated fun source =>
    next source fun program _ => Statement.everyEach_any program
  assign _ _ := (quiet_modifyScopes _).truncated
  define _ _ := (quiet_modifyScopes _).truncated
  declareEach _ := (quiet_modifyScopes _).truncated
  writeText := truncated_writeText
  readText := quiet_readText.truncated
  checkCalls := quiet_checkCalls.truncated
  nested truncated := truncated.bracket fun _ => rfl
  called truncated := truncated.bracket fun _ => rfl
  framed truncated := truncated.bracket fun _ => rfl
  importingOnce := Truncated.importingOnce

theorem endsTruncated_program (tree : Program) (context : Context) (machine : Machine)
    (unwatched : context.watch = none) (unlimited : machine.output.capacity = none)
    (fits : machine.output.written.size ≤ size) :
    EndsTruncated size (program tree context machine)
      (program tree context (machine.upTo size)) :=
  ((carries_truncated size).evaluated quiet_tooDeep.truncated context.limits.evaluation
    (Statement.everyEach_any tree)).ends context machine unwatched unlimited fits

end Evaluation

namespace Interpreter

open Evaluation

theorem run_upTo (interpreter : Interpreter) (unwatched : interpreter.watch = none)
    (source : String) (machine : Machine) (flushes : machine.output.flushFails = false)
    (unlimited : machine.output.capacity = none) {size : Nat}
    (fits : machine.output.written.size ≤ size) :
    let whole := interpreter.run source machine
    let cut := interpreter.run source (machine.upTo size)
    machine.output.Extends whole.2.output ∧
      (whole.2.output.written.size ≤ size ∧ cut = (whole.1, whole.2.upTo size) ∨
        cut.1 = .error full ∧ Sink.Truncates size cut.2.output whole.2.output) := by
  intro whole cut
  cases parsed : Program.parse source with
  | error error =>
      have wholeEnds : whole = (.error (.failure (.misread error)), machine) := by
        simp only [whole, run, parsed]
      have cutEnds : cut = (.error (.failure (.misread error)), machine.upTo size) := by
        simp only [cut, run, parsed]
      rw [wholeEnds, cutEnds]
      exact ⟨.refl machine.output, .inl ⟨fits, rfl⟩⟩
  | ok tree =>
      have wholeEnds : whole = outcome (program tree interpreter.context machine) :=
        interpreter.run_of_parse parsed flushes
      have cutEnds : cut = outcome (program tree interpreter.context (machine.upTo size)) :=
        interpreter.run_of_parse parsed flushes
      have added := appends_program tree interpreter.context machine
      have ended := endsTruncated_program tree interpreter.context machine unwatched unlimited fits
      rw [wholeEnds, cutEnds]
      generalize program tree interpreter.context machine = result,
        program tree interpreter.context (machine.upTo size) = cutResult at added ended
      cases ended with
      | returned value fitsAfter => exact ⟨added, .inl ⟨fitsAfter, rfl⟩⟩
      | stopped stop fitsAfter => exact ⟨added, .inl ⟨fitsAfter, rfl⟩⟩
      | cut truncates =>
          cases result with
          | ok value after | error stop after => exact ⟨added, .inr ⟨rfl, truncates⟩⟩

/-- A run with a sink that has room for so many bytes more writes that many of the bytes that the
unlimited run writes, and all of them if they fit. If they do, it ends as the unlimited run does,
whichever way that is; if they do not, it ends by the failure of a write. -/
theorem full_sink_keeps_first_bytes_and_stops_run (limits : Limits) (loader : Source.Loader)
    (patience : Nat) (source : String) (scopes : Scopes) (input : Input) (written : ByteArray)
    (room : Nat) :
    let run (output : Sink) :=
      ({ limits, loader, patience } : Interpreter).run source { scopes, input, output }
    let unlimited := run { written }
    let limited := run { written, capacity := some (written.size + room) }
    ∃ added, unlimited.2.output.written = written ++ added ∧
      limited.2.output.written = written ++ added.extract 0 (min room added.size) ∧
      (added.size ≤ room → limited.1 = unlimited.1 ∧ limited.2.input = unlimited.2.input ∧
        limited.2.scopes = unlimited.2.scopes) ∧
      (room < added.size →
        limited.1 = .error (.failure (.runtime (.channel .sinkFull)))) := by
  intro run unlimited limited
  have ran := run_upTo { limits, loader, patience } rfl source
    { scopes, input, output := { written } } rfl rfl (Nat.le_add_right written.size room)
  change Sink.Extends { written } unlimited.2.output ∧
    (unlimited.2.output.written.size ≤ written.size + room ∧
        limited = (unlimited.1, unlimited.2.upTo (written.size + room)) ∨
      limited.1 = .error full ∧
        Sink.Truncates (written.size + room) limited.2.output unlimited.2.output) at ran
  rcases ran with ⟨⟨added, extended⟩, ended⟩
  have all : unlimited.2.output.written = written ++ added := by
    rw [extended]
  have size : unlimited.2.output.written.size = written.size + added.size := by
    rw [all, ByteArray.size_append]
  refine ⟨added, all, ?_⟩
  rcases ended with ⟨fits, same⟩ | ⟨failed, truncates⟩
  · have within : added.size ≤ room := by omega
    rw [same, Nat.min_eq_right within, ByteArray.extract_zero_size]
    exact ⟨all, fun _ => ⟨rfl, rfl, rfl⟩, fun beyond => absurd within (Nat.not_le_of_lt beyond)⟩
  · have beyond : room < added.size := by
      have larger := truncates.size_lt
      omega
    rw [truncates.written_eq, all, Sink.extract_append_room, Nat.min_eq_left (Nat.le_of_lt beyond)]
    exact ⟨rfl, fun fits => absurd fits (Nat.not_le_of_lt beyond), fun _ => failed⟩

end Interpreter

end Easel
