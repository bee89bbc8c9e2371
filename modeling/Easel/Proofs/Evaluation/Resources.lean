import Easel.Proofs.Evaluation.Hygiene

/-!
What a run uses at every moment of it. Each level of evaluation pays for one frame, one call and
one import at most, so the frames, the calls and the imports in course never outnumber the levels,
and the levels never exceed their limit. Loops share a frame between their rounds and units run in
the frame of their import, so neither costs more.

A rule runs one level further in than it was asked for, with one of each to spare. What it does
inside a frame, a call or an import has nothing to spare until it goes one level further in itself.
-/

namespace Easel

namespace Scopes

structure SameSize (before after : Scopes) : Prop where
  depth : after.depth = before.depth
  imports : after.importing.length = before.importing.length

theorem SameSize.refl (scopes : Scopes) : SameSize scopes scopes := ⟨rfl, rfl⟩

theorem SameSize.trans {before middle after : Scopes} (first : SameSize before middle)
    (second : SameSize middle after) : SameSize before after :=
  ⟨second.depth.trans first.depth, second.imports.trans first.imports⟩

theorem Keeps.sameSize {before after : Scopes} (kept : Keeps before after) :
    SameSize before after := by
  have frames := kept.outer.length_eq
  constructor
  · simp [depth, Scopes.frames, frames]
  · rw [kept.importing]

theorem depth_pop (scopes : Scopes) : scopes.pop.depth = max 1 (scopes.depth - 1) := by
  rw [pop]
  cases outer : scopes.outer with
  | nil => simp [depth, frames, outer]
  | cons frame rest => simp [depth, frames, outer]

theorem SameSize.pop {before after : Scopes} (same : SameSize before.push after) :
    SameSize before after.pop := by
  have frames := same.depth
  rw [depth_push] at frames
  constructor
  · rw [depth_pop, frames, Nat.add_sub_cancel]
    exact Nat.max_eq_right (Nat.succ_pos _)
  · rw [← show before.push.importing = before.importing from rfl, ← same.imports, Scopes.pop]
    cases after.outer <;> rfl

theorem SameSize.endImport {before after : Scopes} {name : String}
    (same : SameSize (before.beginImport name) after) : SameSize before after.endImport := by
  constructor
  · exact same.depth
  · change (after.importing.drop 1).length = before.importing.length
    rw [List.length_drop, same.imports]
    exact Nat.add_sub_cancel _ 1

end Scopes

/-- What a moment may use, if the run began with the scopes `start`. -/
structure Moment.Affordable (limits : Limits) (start : Scopes) (moment : Moment) : Prop where
  nesting : moment.nesting ≤ limits.evaluation
  calls : moment.calls ≤ limits.calls
  callsNested : moment.calls ≤ moment.nesting
  framesLeast : start.depth ≤ moment.scopes.depth
  framesMost : moment.scopes.depth ≤ start.depth + moment.nesting
  importsLeast : start.importing.length ≤ moment.scopes.importing.length
  importsMost : moment.scopes.importing.length ≤ start.importing.length + moment.nesting

namespace Evaluation

open EvalM

variable {α β : Type}

/-- The levels that have been entered pay for what is in use, for `call` more calls, and for `frame`
more frames and imports; `room` levels are left. -/
structure Pays (start : Scopes) (room call frame : Nat) (context : Context) (scopes : Scopes) :
    Prop where
  level : context.nesting + room ≤ context.limits.evaluation
  limit : context.calls ≤ context.limits.calls
  calls : context.calls + call ≤ context.nesting
  framesLeast : start.depth ≤ scopes.depth
  framesMost : scopes.depth + frame ≤ start.depth + context.nesting
  importsLeast : start.importing.length ≤ scopes.importing.length
  importsMost : scopes.importing.length + frame ≤ start.importing.length + context.nesting

namespace Pays

variable {start scopes : Scopes} {room call frame : Nat} {context : Context}

theorem affordable (pays : Pays start room call frame context scopes) (activity : Activity) :
    Moment.Affordable context.limits start ⟨context.nesting, context.calls, scopes, activity⟩ where
  nesting := Nat.le_of_add_right_le pays.level
  calls := pays.limit
  callsNested := Nat.le_of_add_right_le pays.calls
  framesLeast := pays.framesLeast
  framesMost := Nat.le_of_add_right_le pays.framesMost
  importsLeast := pays.importsLeast
  importsMost := Nat.le_of_add_right_le pays.importsMost

theorem of_sameSize (pays : Pays start room call frame context scopes) {after : Scopes}
    (same : Scopes.SameSize scopes after) : Pays start room call frame context after := by
  obtain ⟨level, limit, calls, framesLeast, framesMost, importsLeast, importsMost⟩ := pays
  rw [← same.depth] at framesLeast framesMost
  rw [← same.imports] at importsLeast importsMost
  exact ⟨level, limit, calls, framesLeast, framesMost, importsLeast, importsMost⟩

theorem spend {callLeft frameLeft : Nat} (pays : Pays start room call frame context scopes)
    (calls : callLeft ≤ call) (frames : frameLeft ≤ frame) :
    Pays start room callLeft frameLeft context scopes := by
  obtain ⟨level, limit, calls, framesLeast, framesMost, importsLeast, importsMost⟩ := pays
  constructor <;> omega

theorem nested (pays : Pays start (room + 1) 0 0 context scopes) :
    Pays start room 1 1 { context with nesting := context.nesting + 1 } scopes := by
  obtain ⟨level, limit, calls, framesLeast, framesMost, importsLeast, importsMost⟩ := pays
  have entered : context.nesting + 1 + room ≤ context.limits.evaluation := by omega
  exact ⟨entered, limit, Nat.succ_le_succ calls, framesLeast, Nat.succ_le_succ framesMost,
    importsLeast, Nat.succ_le_succ importsMost⟩

theorem called (pays : Pays start room 1 frame context scopes)
    (allowed : ¬context.limits.calls ≤ context.calls) :
    Pays start room 0 frame { context with calls := context.calls + 1 } scopes := by
  obtain ⟨level, limit, calls, framesLeast, framesMost, importsLeast, importsMost⟩ := pays
  refine ⟨level, ?_, calls, framesLeast, framesMost, importsLeast, importsMost⟩
  exact Nat.lt_of_not_le allowed

theorem push (pays : Pays start room call 1 context scopes) :
    Pays start room call 0 context scopes.push := by
  obtain ⟨level, limit, calls, framesLeast, framesMost, importsLeast, importsMost⟩ := pays
  have frames := scopes.depth_push
  have imports : scopes.push.importing = scopes.importing := rfl
  rw [← imports] at importsLeast importsMost
  constructor <;> omega

theorem beginImport (pays : Pays start room call 1 context scopes) (name : String) :
    Pays start room call 0 context (scopes.beginImport name) := by
  obtain ⟨level, limit, calls, framesLeast, framesMost, importsLeast, importsMost⟩ := pays
  have frames : (scopes.beginImport name).depth = scopes.depth := rfl
  have imports : (scopes.beginImport name).importing.length = scopes.importing.length + 1 := rfl
  constructor <;> omega

end Pays

/-- The end of a run: the scopes have the size they had, and a moment where it paused is one that
the run could afford. -/
def Accounts (limits : Limits) (start before : Scopes) : EStateM.Result Stop Machine α → Prop
  | .ok _ after => Scopes.SameSize before after.scopes
  | .error (.failure _) after => Scopes.SameSize before after.scopes
  | .error (.paused moment) _ => moment.Affordable limits start
  | .error _ _ => True

theorem Accounts.after {limits : Limits} {start before middle : Scopes}
    {result : EStateM.Result Stop Machine α} (same : Scopes.SameSize before middle)
    (accounts : Accounts limits start middle result) : Accounts limits start before result := by
  match result with
  | .ok _ _ => exact same.trans accounts
  | .error (.failure _) _ => exact same.trans accounts
  | .error (.paused _) _ => exact accounts
  | .error .crash _ => trivial
  | .error .exhausted _ => trivial

def Thrifty (room call frame : Nat) (action : EvalM α) : Prop :=
  ∀ start context machine, Pays start room call frame context machine.scopes →
    Accounts context.limits start machine.scopes (action context machine)

section Blocks

variable {room call frame : Nat} {action : EvalM α}

theorem Thrifty.loosen (thrifty : Thrifty room call frame action) {moreCalls moreFrames : Nat}
    (calls : call ≤ moreCalls) (frames : frame ≤ moreFrames) :
    Thrifty room moreCalls moreFrames action := by
  intro start context machine pays
  exact thrifty start context machine (pays.spend calls frames)

theorem Thrifty.bind {next : α → EvalM β} (first : Thrifty room call frame action)
    (second : ∀ value, Thrifty room call frame (next value)) :
    Thrifty room call frame (action >>= next) := by
  intro start context machine pays
  have accounts := first start context machine pays
  rw [bind_run]
  cases ended : action context machine with
  | ok value middle =>
      rw [ended] at accounts
      exact .after accounts (second value start context middle (pays.of_sameSize accounts))
  | error stop middle =>
      rw [ended] at accounts
      cases stop <;> exact accounts

theorem thrifty_observe (activity : Activity) : Thrifty room call frame (observe activity) := by
  intro start context machine pays
  cases watched : context.watch with
  | none =>
      rw [observe_of_unwatched watched]
      exact .refl machine.scopes
  | some pausesAt =>
      rw [observe_of_watched watched]
      dsimp only
      split
      · exact pays.affordable activity
      · exact Scopes.SameSize.refl machine.scopes

theorem sequential_thrifty (room call frame : Nat) :
    Sequential (fun action _ => Thrifty room call frame action) where
  pure _ _ _ machine _ := Scopes.SameSize.refl machine.scopes
  bind := Thrifty.bind
  failure _ _ _ machine _ := Scopes.SameSize.refl machine.scopes
  crash _ _ _ _ := trivial
  exhausted _ _ _ _ := trivial
  observe := thrifty_observe
  get second start context machine pays := second machine start context machine pays
  patience _ _ machine _ := Scopes.SameSize.refl machine.scopes
  load kind name _ context machine _ := by
    rw [load_run]
    split
    · exact Scopes.SameSize.refl machine.scopes
    · exact Scopes.SameSize.refl machine.scopes
  modifyScopes keeps _ _ machine _ := (keeps machine.scopes).sameSize
  writeText text _ context machine _ := by
    rw [writeText, get_bind_run]
    rcases machine.output.write text with ⟨output, _ | fault⟩
    · exact Scopes.SameSize.refl machine.scopes
    · exact Scopes.SameSize.refl machine.scopes
  readText _ context machine _ := by
    rw [readText, get_bind_run]
    rcases machine.input.readLine with ⟨fault | line, input⟩
    · exact Scopes.SameSize.refl machine.scopes
    · exact Scopes.SameSize.refl machine.scopes

/-- What is taken on the way into a bracket has been paid for, and is given back on the way out. -/
theorem Thrifty.bracket {roomInside callInside frameInside : Nat}
    (thrifty : Thrifty roomInside callInside frameInside action) {inside : Context → Context}
    {enter leave : Scopes → Scopes} {start : Scopes} {context : Context} {machine : Machine}
    (pays : Pays start room call frame context machine.scopes)
    (limits : (inside context).limits = context.limits)
    (entered : Pays start roomInside callInside frameInside (inside context)
      (enter machine.scopes))
    (left : ∀ {after}, Scopes.SameSize (enter machine.scopes) after →
      Scopes.SameSize machine.scopes (leave after)) :
    Accounts context.limits start machine.scopes
      (bracket inside enter leave action context machine) := by
  have sequential := sequential_thrifty room call frame
  have acted := (thrifty_observe .passing).bind (fun _ => thrifty) start (inside context)
    { machine with scopes := enter machine.scopes } entered
  have ending : ∀ {after : Machine} {last : EvalM α}, Thrifty room call frame last →
      Scopes.SameSize (enter machine.scopes) after.scopes →
      Accounts context.limits start machine.scopes
        ((do observe .passing; last) context { after with scopes := leave after.scopes }) := by
    intro after last ends same
    have returned := left same
    have observed := (thrifty_observe .passing).bind fun _ => ends
    exact .after returned (observed start context { after with scopes := leave after.scopes }
      (pays.of_sameSize returned))
  rw [EvalM.bracket]
  cases run : (do observe .passing; action) (inside context)
      { machine with scopes := enter machine.scopes } with
  | ok value after =>
      rw [run] at acted
      exact ending (sequential.pure value) acted
  | error stop after =>
      rw [run] at acted
      cases stop with
      | failure cause => exact ending (sequential.failure cause) acted
      | crash => trivial
      | exhausted => trivial
      | paused moment => exact limits ▸ acted

theorem Thrifty.nested (thrifty : Thrifty room 1 1 action) :
    Thrifty (room + 1) 0 0 (nested action) := by
  intro start context machine pays
  exact thrifty.bracket pays rfl pays.nested id

theorem Thrifty.framed (thrifty : Thrifty room call 0 action) :
    Thrifty room call 1 (framed action) := by
  intro start context machine pays
  exact thrifty.bracket pays rfl pays.push Scopes.SameSize.pop

/-- The check before a call is what keeps the calls within their limit. -/
theorem Thrifty.called (thrifty : Thrifty room 0 frame action) :
    Thrifty room 1 frame (do checkCalls; called action) := by
  intro start context machine pays
  rw [bind_run, checkCalls, read_bind_run]
  by_cases reached : context.limits.calls ≤ context.calls
  · rw [if_pos reached]
    exact Scopes.SameSize.refl machine.scopes
  · rw [if_neg reached]
    exact thrifty.bracket pays rfl (pays.called reached) id

end Blocks

theorem Thrifty.importingOnce {room call : Nat} {action : EvalM Unit}
    (thrifty : Thrifty room call 0 action) (name : String) :
    Thrifty room call 1 (importingOnce name action) := by
  intro start context machine pays
  rw [EvalM.importingOnce, get_bind_run]
  split
  · exact Scopes.SameSize.refl machine.scopes
  · exact thrifty.bracket pays rfl (pays.beginImport name) Scopes.SameSize.endImport

theorem layered_thrifty (room : Nat) :
    Layered .any (Value.Every .any) Eq (fun {_} [_] action _ => Thrifty room 0 0 action)
      (fun {_} [_] action _ => Thrifty room 1 1 action) where
  inner := (sequential_thrifty room 0 0).respects
  outer := (sequential_thrifty room 1 1).respects
  loosen thrifty := thrifty.loosen (Nat.zero_le 1) (Nat.zero_le 1)
  framed thrifty := thrifty.framed.loosen (Nat.zero_le 1) (Nat.le_refl 1)
  called thrifty := thrifty.framed.called
  importingOnce name thrifty := (thrifty.importingOnce name).loosen (Nat.zero_le 1) (Nat.le_refl 1)

theorem thrifty_within (room : Nat) :
    Deeper.Carried .any (fun {_} [_] action _ => Thrifty room 0 0 action) (within room)
      (within room) := by
  induction room with
  | zero =>
      constructor
      · intro node _ start context machine _
        exact Scopes.SameSize.refl machine.scopes
      · intro node _ start context machine _
        exact Scopes.SameSize.refl machine.scopes
  | succ room induction =>
      constructor
      · exact fun every => ((layered_thrifty room).statement induction every).nested
      · exact fun every => ((layered_thrifty room).expression induction every).nested

theorem thrifty_program (limits : Limits) (tree : Program) :
    Thrifty limits.evaluation 0 0
      (do finish (← statements (within limits.evaluation) .none tree)) := by
  have inner := (layered_thrifty limits.evaluation).inner
  apply Thrifty.bind
  · exact inner.body (thrifty_within limits.evaluation) (Statement.everyEach_any tree)
  · exact fun flow => inner.finish (flow.holds_any Value.every_any)

theorem resources_stay_bounded_at_every_moment (limits : Limits) (loader : Source.Loader)
    (patience : Nat) (tree : Program) (machine : Machine) (moment : Moment)
    (occurs : Occurs (program tree) { limits, loader, patience } machine moment) :
    moment.Affordable limits machine.scopes ∧
      moment.scopes.depth ≤ machine.scopes.depth + limits.evaluation := by
  obtain ⟨watch, after, paused⟩ := occurs
  have pays : Pays machine.scopes limits.evaluation 0 0
      { limits, loader, patience, watch := some watch } machine.scopes := by
    constructor <;> simp
  have accounts := thrifty_program limits tree machine.scopes _ machine pays
  change Accounts limits machine.scopes machine.scopes
    (program tree { limits, loader, patience, watch := some watch } machine) at accounts
  rw [paused] at accounts
  have affordable : moment.Affordable limits machine.scopes := accounts
  refine ⟨affordable, ?_⟩
  calc moment.scopes.depth ≤ machine.scopes.depth + moment.nesting := affordable.framesMost
    _ ≤ machine.scopes.depth + limits.evaluation := Nat.add_le_add_left affordable.nesting _

/-- A unit calls a function whose body is a block, all inside a loop. The frames are those of the
loop, the call and the block, six levels further in. -/
theorem resources_stay_bounded_at_every_moment_call :
    let limits : Limits := { calls := 1, evaluation := 7 }
    let loader : Source.Loader := fun _ _ => .ok "f();"
    let tree : Program :=
      [.definition (.mk (some "f") [] [.block [.empty]]),
        .repeatLoop (.literal (.number 1)) [.expression (.call "import"
          [.literal (.text "\"LIB\""), .literal (.text "\"unit\"")])]]
    let machine : Machine := {}
    ∃ moment, Occurs (program tree) { limits, loader, patience := 0 } machine moment ∧
      (moment.nesting = 6 ∧ moment.calls = 1 ∧ moment.scopes.depth = 4 ∧
        moment.scopes.importing = ["unit"]) ∧
      moment.Affordable limits machine.scopes ∧
      moment.scopes.depth ≤ machine.scopes.depth + limits.evaluation := by
  intro limits loader tree machine
  let watch (moment : Moment) : Bool := moment.scopes.depth = 4
  have paused : ∃ moment after,
      program tree { limits, loader, patience := 0, watch := some watch } machine =
        .error (.paused moment) after ∧ moment.nesting = 6 ∧ moment.calls = 1 ∧
          moment.scopes.depth = 4 ∧ moment.scopes.importing = ["unit"] := by
    decide +kernel
  obtain ⟨moment, after, paused, shown⟩ := paused
  have occurs : Occurs (program tree) { limits, loader, patience := 0 } machine moment :=
    ⟨watch, after, paused⟩
  exact ⟨moment, occurs, shown,
    resources_stay_bounded_at_every_moment limits loader 0 tree machine moment occurs⟩

end Evaluation

end Easel
