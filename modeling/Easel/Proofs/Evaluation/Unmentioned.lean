import Easel.Proofs.Evaluation.Carrying

/-!
A name that no code mentions is neither observed nor touched. Frames are dynamic, so a look-up
may go through the frames of all callers and an assignment may land in any of them; still, two
runs from scopes that differ in the bindings of such a name only make the same steps, and both
leave these bindings as they were. The code is that of the program, of the units that can be
imported and of the functions that other names are bound to. What the name itself is bound to
is of no concern, since nobody asks for it.
-/

namespace Easel

/-- The tree does not mention the name. -/
def Trait.avoids (hidden : String) : Trait where
  onExpression
    | .identifier name | .assign _ name _ | .call name _ => name ≠ hidden
    | .function definition => definition.name ≠ some hidden ∧ hidden ∉ definition.parameters
    | _ => True
  onStatement
    | .foreachLoop item _ _ => item ≠ hidden
    | .definition definition => definition.name ≠ some hidden ∧ hidden ∉ definition.parameters
    | _ => True

variable {hidden : String}

theorem Trait.coherent_avoids : (Trait.avoids hidden).Coherent where
  assign avoided := avoided
  call avoided := avoided
  definition avoided := avoided
  name avoided named := by
    rintro rfl
    exact avoided.1 named
  parameter avoided listed := by
    rintro rfl
    exact avoided.2 listed

instance : DecidablePred (Trait.avoids hidden).onExpression
  | .identifier name | .assign _ name _ | .call name _ =>
      inferInstanceAs (Decidable (name ≠ hidden))
  | .function definition => inferInstanceAs
      (Decidable (definition.name ≠ some hidden ∧ hidden ∉ definition.parameters))
  | .literal _ | .unary .. | .binary .. | .list _ => isTrue trivial

instance : DecidablePred (Trait.avoids hidden).onStatement
  | .foreachLoop item _ _ => inferInstanceAs (Decidable (item ≠ hidden))
  | .definition definition => inferInstanceAs
      (Decidable (definition.name ≠ some hidden ∧ hidden ∉ definition.parameters))
  | .block _ | .conditional .. | .whileLoop .. | .forLoop .. | .repeatLoop .. | .ret _ | .breakLoop
  | .continueLoop | .expression _ | .empty => isTrue trivial

namespace Evaluation

open EvalM

variable {α β : Type} [HoldsTrees α] [HoldsTrees β]

/-- The machines differ in the bindings of the name at most, and no function that another name
is bound to mentions it. -/
structure Alike (hidden : String) (machine other : Machine) : Prop where
  scopes : machine.scopes.Same (· ≠ hidden) other.scopes
  holds : machine.scopes.Holds (.avoids hidden)
  output : other.output = machine.output
  input : other.input = machine.input

/-- Two runs have come from machines that were alike to machines that are, and the bindings of
the name are on either side those of the start. -/
structure Settled (hidden : String) (before otherBefore after otherAfter : Machine) : Prop where
  alike : Alike hidden after otherAfter
  untouched : before.scopes.Same (· = hidden) after.scopes
  otherUntouched : otherBefore.scopes.Same (· = hidden) otherAfter.scopes

/-- Two runs end alike. What a crash or a want of patience leaves of the scopes is not said. -/
inductive EndAlike (hidden : String) (before otherBefore : Machine) :
    EStateM.Result Stop Machine α → EStateM.Result Stop Machine α → Prop
  | returned {after otherAfter} (result : α) (avoided : HoldsTrees.Every (.avoids hidden) result)
      (settled : Settled hidden before otherBefore after otherAfter) :
      EndAlike hidden before otherBefore (.ok result after) (.ok result otherAfter)
  | failed {after otherAfter} (cause : Failure)
      (settled : Settled hidden before otherBefore after otherAfter) :
      EndAlike hidden before otherBefore (.error (.failure cause) after)
        (.error (.failure cause) otherAfter)
  | crashed {after otherAfter} (output : otherAfter.output = after.output)
      (input : otherAfter.input = after.input) :
      EndAlike hidden before otherBefore (.error .crash after) (.error .crash otherAfter)
  | exhausted {after otherAfter} :
      EndAlike hidden before otherBefore (.error .exhausted after) (.error .exhausted otherAfter)

def Unaware (hidden : String) (action action' : EvalM α) : Prop :=
  ∀ context machine other, context.watch = none → context.loader.Every (.avoids hidden) →
    Alike hidden machine other →
    EndAlike hidden machine other (action context machine) (action' context other)

theorem Settled.refl {machine other : Machine} (alike : Alike hidden machine other) :
    Settled hidden machine other machine other :=
  ⟨alike, .refl machine.scopes, .refl other.scopes⟩

theorem Settled.trans {before otherBefore middle otherMiddle after otherAfter : Machine}
    (first : Settled hidden before otherBefore middle otherMiddle)
    (second : Settled hidden middle otherMiddle after otherAfter) :
    Settled hidden before otherBefore after otherAfter :=
  ⟨second.alike, first.untouched.trans second.untouched,
    first.otherUntouched.trans second.otherUntouched⟩

theorem EndAlike.after {before otherBefore middle otherMiddle : Machine}
    {result other : EStateM.Result Stop Machine α}
    (settled : Settled hidden before otherBefore middle otherMiddle)
    (alike : EndAlike hidden middle otherMiddle result other) :
    EndAlike hidden before otherBefore result other := by
  cases alike with
  | returned result avoided next => exact .returned result avoided (settled.trans next)
  | failed cause next => exact .failed cause (settled.trans next)
  | crashed output input => exact .crashed output input
  | exhausted => exact .exhausted

theorem Unaware.bind {action action' : EvalM α} {next next' : α → EvalM β}
    (first : Unaware hidden action action')
    (second : ∀ result, HoldsTrees.Every (.avoids hidden) result →
      Unaware hidden (next result) (next' result)) :
    Unaware hidden (action >>= next) (action' >>= next') := by
  intro context machine other unwatched loads alike
  rw [bind_run, bind_run]
  have acted := first context machine other unwatched loads alike
  generalize action context machine = ended, action' context other = otherEnded at acted
  cases acted with
  | returned result avoided settled =>
      exact .after settled (second result avoided context _ _ unwatched loads settled.alike)
  | failed cause settled => exact .failed cause settled
  | crashed output input => exact .crashed output input
  | exhausted => exact .exhausted

theorem unaware_pure {result : α} (avoided : HoldsTrees.Every (.avoids hidden) result) :
    Unaware hidden (pure result) (pure result) := by
  intro context machine other _ _ alike
  exact .returned result avoided (.refl alike)

theorem unaware_failure (cause : Failure) :
    Unaware hidden (throw (.failure cause) : EvalM α) (throw (.failure cause)) := by
  intro context machine other _ _ alike
  exact .failed cause (.refl alike)

theorem unaware_observe (activity : Activity) :
    Unaware hidden (observe activity) (observe activity) := by
  intro context machine other unwatched _ alike
  rw [observe_of_unwatched unwatched, observe_of_unwatched unwatched]
  exact .returned () trivial (.refl alike)

theorem unaware_operate (operator : BinaryOperator) {left right : Value}
    (avoided : left.Every (.avoids hidden)) :
    Unaware hidden (operate operator left right) (operate operator left right) := by
  apply Unaware.bind (unaware_observe _)
  intro _ _
  cases made : Value.binary operator left right with
  | ok value => exact unaware_pure (Value.every_binary avoided made)
  | error mishap =>
      cases mishap with
      | error cause => exact unaware_failure _
      | crash =>
          intro context machine other _ _ alike
          exact .crashed alike.output alike.input

theorem unaware_modifyScopes {change : Scopes → Scopes}
    (same : ∀ {scopes other}, scopes.Same (· ≠ hidden) other →
      (change scopes).Same (· ≠ hidden) (change other))
    (holds : ∀ {scopes}, scopes.Holds (.avoids hidden) → (change scopes).Holds (.avoids hidden))
    (untouched : ∀ scopes : Scopes, scopes.Same (· = hidden) (change scopes)) :
    Unaware hidden (modifyScopes change) (modifyScopes change) := by
  intro context machine other _ _ alike
  exact .returned () trivial ⟨⟨same alike.scopes, holds alike.holds, alike.output, alike.input⟩,
    untouched machine.scopes, untouched other.scopes⟩

theorem unaware_assign {name : String} {value : Value} (allowed : (Trait.avoids hidden).Allows name)
    (avoided : value.Every (.avoids hidden)) :
    Unaware hidden (modifyScopes (·.assign name value)) (modifyScopes (·.assign name value)) := by
  apply unaware_modifyScopes
  · exact fun same => same.assign allowed value
  · exact fun holds => holds.assign name avoided
  · intro scopes
    apply Scopes.same_assign
    exact allowed

theorem unaware_define {name : String} {value : Value} (allowed : (Trait.avoids hidden).Allows name)
    (avoided : value.Every (.avoids hidden)) :
    let declare : Scopes → Scopes := fun scopes =>
      if scopes.isLocal name then scopes else scopes.declare name value
    Unaware hidden (modifyScopes declare) (modifyScopes declare) := by
  apply unaware_modifyScopes
  · intro scopes other same
    rw [same.isLocal allowed]
    split
    · exact same
    · exact same.declare name value
  · intro scopes holds
    split
    · exact holds
    · exact holds.declare name avoided
  · intro scopes
    split
    · exact .refl scopes
    · apply Scopes.same_declare
      exact allowed

theorem unaware_declareEach {bindings : List (String × Value)}
    (each : ∀ binding ∈ bindings,
      (Trait.avoids hidden).Allows binding.1 ∧ binding.2.Every (.avoids hidden)) :
    Unaware hidden (modifyScopes (·.declareEach bindings))
      (modifyScopes (·.declareEach bindings)) := by
  apply unaware_modifyScopes
  · exact fun same => same.declareEach bindings
  · exact fun holds => holds.declareEach fun binding member => (each binding member).2
  · exact fun scopes => Scopes.same_declareEach scopes fun binding member => (each binding member).1

theorem unaware_writeText (text : String) : Unaware hidden (writeText text) (writeText text) := by
  intro context machine other _ _ alike
  rw [writeText, get_bind_run, get_bind_run, alike.output]
  rcases machine.output.write text with ⟨output, _ | fault⟩
  · exact .returned () trivial ⟨⟨alike.scopes, alike.holds, rfl, alike.input⟩, .refl _, .refl _⟩
  · exact .failed _ ⟨⟨alike.scopes, alike.holds, rfl, alike.input⟩, .refl _, .refl _⟩

theorem unaware_readText : Unaware hidden readText readText := by
  intro context machine other _ _ alike
  rw [readText, get_bind_run, get_bind_run, alike.input]
  rcases machine.input.readLine with ⟨fault | line, input⟩
  · exact .failed _ ⟨⟨alike.scopes, alike.holds, alike.output, rfl⟩, .refl _, .refl _⟩
  · exact .returned _ trivial ⟨⟨alike.scopes, alike.holds, alike.output, rfl⟩, .refl _, .refl _⟩

theorem unaware_load {next next' : String → EvalM α} (kind : Source.ImportKind) (name : String)
    (second : ∀ source, (∀ program, Program.parse source = .ok program →
      Statement.EveryEach (.avoids hidden) program) → Unaware hidden (next source) (next' source)) :
    Unaware hidden (load kind name >>= next) (load kind name >>= next') := by
  intro context machine other unwatched loads alike
  rw [load_bind_run, load_bind_run]
  cases found : context.loader kind name with
  | ok source =>
      have avoided := fun program => loads kind name source program found
      exact second source avoided context machine other unwatched loads alike
  | error error => exact .failed _ (.refl alike)

theorem unaware_checkCalls : Unaware hidden checkCalls checkCalls := by
  intro context machine other _ _ alike
  rw [checkCalls, read_bind_run, read_bind_run]
  split
  · exact .failed _ (.refl alike)
  · exact .returned () trivial (.refl alike)

/-- What is changed on the way in and out of a bracket is changed on both sides, and the way out
undoes the way in. -/
theorem Unaware.bracket {action action' : EvalM α} (unaware : Unaware hidden action action')
    {inside : Context → Context} {enter leave : Scopes → Scopes}
    (quiet : ∀ context, (inside context).watch = context.watch)
    (loader : ∀ context, (inside context).loader = context.loader)
    (entered : ∀ {names : String → Prop} {scopes other}, scopes.Same names other →
      (enter scopes).Same names (enter other))
    (left : ∀ {names : String → Prop} {scopes other}, scopes.Same names other →
      (leave scopes).Same names (leave other))
    (undone : ∀ scopes, leave (enter scopes) = scopes)
    (enteredHolds : ∀ {scopes}, scopes.Holds (.avoids hidden) →
      (enter scopes).Holds (.avoids hidden))
    (leftHolds : ∀ {scopes}, scopes.Holds (.avoids hidden) →
      (leave scopes).Holds (.avoids hidden)) :
    Unaware hidden (bracket inside enter leave action) (bracket inside enter leave action') := by
  intro context machine other unwatched loads alike
  have unwatchedInside : (inside context).watch = none := (quiet context).trans unwatched
  have settle : ∀ {after otherAfter : Machine},
      Settled hidden { machine with scopes := enter machine.scopes }
        { other with scopes := enter other.scopes } after otherAfter →
      Settled hidden machine other { after with scopes := leave after.scopes }
        { otherAfter with scopes := leave otherAfter.scopes } := by
    intro after otherAfter ⟨ended, untouched, otherUntouched⟩
    have restored := left untouched
    have otherRestored := left otherUntouched
    rw [undone] at restored otherRestored
    exact ⟨⟨left ended.scopes, leftHolds ended.holds, ended.output, ended.input⟩, restored,
      otherRestored⟩
  rw [bracket_of_unwatched unwatched unwatchedInside,
    bracket_of_unwatched unwatched unwatchedInside]
  have acted := unaware (inside context) { machine with scopes := enter machine.scopes }
    { other with scopes := enter other.scopes } unwatchedInside ((loader context).symm ▸ loads)
    ⟨entered alike.scopes, enteredHolds alike.holds, alike.output, alike.input⟩
  generalize action (inside context) { machine with scopes := enter machine.scopes } = ended,
    action' (inside context) { other with scopes := enter other.scopes } = otherEnded at acted
  cases acted with
  | returned result avoided settled => exact .returned result avoided (settle settled)
  | failed cause settled => exact .failed cause (settle settled)
  | crashed output input => exact .crashed output input
  | exhausted => exact .exhausted

theorem Unaware.framed {action action' : EvalM α} (unaware : Unaware hidden action action') :
    Unaware hidden (framed action) (framed action') :=
  unaware.bracket (fun _ => rfl) (fun _ => rfl) Scopes.Same.push Scopes.Same.pop Scopes.pop_push
    Scopes.Holds.push Scopes.Holds.pop

theorem Unaware.importingOnce {action action' : EvalM Unit} (name : String)
    (unaware : Unaware hidden action action') :
    Unaware hidden (importingOnce name action) (importingOnce name action') := by
  intro context machine other unwatched loads alike
  have importing : other.scopes.isImporting name = machine.scopes.isImporting name := by
    rw [Scopes.isImporting, Scopes.isImporting, alike.scopes.importing]
  rw [EvalM.importingOnce, EvalM.importingOnce, get_bind_run, get_bind_run, importing]
  split
  · exact .failed _ (.refl alike)
  · refine unaware.bracket (fun _ => rfl) (fun _ => rfl) (fun same => same.beginImport name)
      Scopes.Same.endImport (fun _ => rfl) id id context machine other unwatched loads alike

theorem carries_unaware (hidden : String) :
    Carries (.avoids hidden) (Alike hidden) (Unaware hidden) where
  coherent := Trait.coherent_avoids
  value alike allowed :=
    ⟨alike.scopes.get? allowed, fun _ found => alike.holds.of_get? allowed found⟩
  output alike := congrArg Sink.flush alike.output
  pure := unaware_pure
  bind := Unaware.bind
  get next context machine other unwatched loads alike :=
    next machine other alike context machine other unwatched loads alike
  failure _ := unaware_failure _
  exhausted _ _ _ _ _ _ _ := .exhausted
  applying _ _ _ := unaware_observe _
  operate operator _ _ avoided _ := unaware_operate operator avoided
  patience _ _ _ _ _ alike := .returned _ trivial (.refl alike)
  load := unaware_load
  assign := unaware_assign
  define := unaware_define
  declareEach := unaware_declareEach
  writeText := unaware_writeText
  readText := unaware_readText
  checkCalls := unaware_checkCalls
  nested unaware := unaware.bracket (fun _ => rfl) (fun _ => rfl) id id (fun _ => rfl) id id
  called unaware := unaware.bracket (fun _ => rfl) (fun _ => rfl) id id (fun _ => rfl) id id
  framed := Unaware.framed
  importingOnce := Unaware.importingOnce

theorem unaware_tooDeep : Unaware hidden (tooDeep : EvalM α) tooDeep := by
  intro context machine other _ _ alike
  exact .failed _ (.refl alike)

theorem unmentioned_name_is_neither_observed_nor_touched (hidden : String) (limits : Limits)
    (loader : Source.Loader) (patience : Nat) (tree : Program) (machine other : Machine)
    (avoided : Statement.EveryEach (.avoids hidden) tree) (loads : loader.Every (.avoids hidden))
    (alike : Alike hidden machine other) :
    EndAlike hidden machine other (program tree { limits, loader, patience } machine)
      (program tree { limits, loader, patience } other) := by
  have unaware := (carries_unaware hidden).evaluated unaware_tooDeep limits.evaluation avoided
  exact unaware { limits, loader, patience } machine other rfl loads alike

/-- A function and a unit assign to a variable of an outer frame, from a frame that binds the
name to code that mentions it and from one that does not bind it. -/
theorem unmentioned_name_is_neither_observed_nor_touched_import :
    let tree : Program :=
      [.definition (.mk (some "f") ["y"] [.ret (.assign .assign "z" (.identifier "y"))]),
        .expression (.call "import" [.literal (.text "\"LIB\""), .literal (.text "\"unit\"")])]
    let loader : Source.Loader := fun _ _ => .ok "f(\"a\");"
    let named : Value := .function (.mk none [] [.expression (.identifier "x")])
    let machine : Machine := { scopes := { current := [("x", named)], outer := [[("z", .none)]] } }
    let other : Machine := { scopes := { current := [], outer := [[("x", .none), ("z", .none)]] } }
    let run (machine : Machine) :=
      program tree { limits := { calls := 1, evaluation := 9 }, loader, patience := 1 } machine
    (∃ value after, run machine = .ok value after) ∧
      EndAlike "x" machine other (run machine) (run other) := by
  intro tree loader named machine other run
  have returns : ∃ value after, run machine = .ok value after := by decide +kernel
  have avoided : Statement.EveryEach (.avoids "x") tree := by decide +kernel
  have loads : loader.Every (.avoids "x") := by
    have read : ∀ program, Program.parse "f(\"a\");" = .ok program →
        Statement.EveryEach (.avoids "x") program := by decide +kernel
    rintro kind name source program ⟨⟩ parsed
    exact read program parsed
  have same : machine.scopes.Same (· ≠ "x") other.scopes := by
    refine ⟨rfl, .cons ?_ (.cons ?_ .nil)⟩
    · intro name different
      change none = if name = "x" then some named else none
      rw [if_neg different]
    · intro name different
      change (if name = "x" then some Value.none else Frame.find? [("z", .none)] name) = _
      rw [if_neg different]
  have holds : machine.scopes.Holds (.avoids "x") := by
    refine List.forall_mem_cons.mpr ⟨?_, List.forall_mem_singleton.mpr ?_⟩
    · intro name value different found
      change (if name = "x" then some named else none) = some value at found
      rw [if_neg different] at found
      cases found
    · intro name value _ found
      change (if name = "z" then some .none else none) = some value at found
      split at found <;> cases found
      trivial
  have alike : Alike "x" machine other := ⟨same, holds, rfl, rfl⟩
  exact ⟨returns, unmentioned_name_is_neither_observed_nor_touched "x" _ loader 1 tree machine other
    avoided loads alike⟩

end Evaluation

end Easel
