import Easel.Proofs.Evaluation.Carrying

/-!
Signals to loops stay inside loops. Whether every `break` and `continue` has a loop around it can be
seen from a tree, but a signal is something that happens in a run: it passes through branches and
blocks until a loop takes it, and a function or a unit that it leaves fails. A statement ends in a
signal only if one stands in it outside its loops. Functions are values and units are loaded in the
course of a run, so all that are in reach must be well placed; evaluation makes no others, and then
no signal is ever without a loop. Only a loader can fail as if one were, since a host may let it
fail as it likes.
-/

namespace Easel

mutual

/-- Every signal in the statement lies inside a loop of the statement. The functions in it are code
of their own. -/
def Statement.Contained : Statement → Prop
  | .breakLoop | .continueLoop => False
  | .block body => Statement.ContainedEach body
  | .conditional _ body alternatives => Statement.ContainedEach body ∧ alternatives.Contained
  | .whileLoop .. | .forLoop .. | .foreachLoop .. | .repeatLoop .. => True
  | .definition _ | .ret _ | .expression _ | .empty => True

def Statement.ContainedEach : List Statement → Prop
  | [] => True
  | node :: rest => node.Contained ∧ Statement.ContainedEach rest

def Alternatives.Contained : Alternatives → Prop
  | .none => True
  | .otherwise body => Statement.ContainedEach body
  | .branch _ body rest => Statement.ContainedEach body ∧ rest.Contained

end

section Decidable

mutual

def Statement.decideContained : (node : Statement) → Decidable node.Contained
  | .breakLoop | .continueLoop => isFalse id
  | .block body => Statement.decideContainedEach body
  | .conditional _ body alternatives =>
      have := Statement.decideContainedEach body
      have := alternatives.decideContained
      inferInstanceAs (Decidable (Statement.ContainedEach body ∧ alternatives.Contained))
  | .whileLoop .. | .forLoop .. | .foreachLoop .. | .repeatLoop .. => isTrue trivial
  | .definition _ | .ret _ | .expression _ | .empty => isTrue trivial

def Statement.decideContainedEach : (nodes : List Statement) →
    Decidable (Statement.ContainedEach nodes)
  | [] => isTrue trivial
  | node :: rest =>
      have := node.decideContained
      have := Statement.decideContainedEach rest
      inferInstanceAs (Decidable (node.Contained ∧ Statement.ContainedEach rest))

def Alternatives.decideContained : (alternatives : Alternatives) →
    Decidable alternatives.Contained
  | .none => isTrue trivial
  | .otherwise body => Statement.decideContainedEach body
  | .branch _ body rest =>
      have := Statement.decideContainedEach body
      have := rest.decideContained
      inferInstanceAs (Decidable (Statement.ContainedEach body ∧ rest.Contained))

end

instance (nodes : List Statement) : Decidable (Statement.ContainedEach nodes) :=
  Statement.decideContainedEach nodes

end Decidable

/-- The signals in the body of a function lie inside loops of that body. -/
def Trait.placed : Trait where
  onExpression
    | .function definition => Statement.ContainedEach definition.body
    | _ => True
  onStatement
    | .definition definition => Statement.ContainedEach definition.body
    | _ => True

theorem Trait.coherent_placed : Trait.placed.Coherent :=
  ⟨fun _ => trivial, fun _ => trivial, fun contained => contained, fun _ _ => trivial,
    fun _ _ => trivial⟩

instance : DecidablePred Trait.placed.onExpression
  | .function definition => inferInstanceAs (Decidable (Statement.ContainedEach definition.body))
  | .identifier _ | .literal _ | .unary .. | .binary .. | .assign .. | .call .. | .list _ =>
      isTrue trivial

instance : DecidablePred Trait.placed.onStatement
  | .definition definition => inferInstanceAs (Decidable (Statement.ContainedEach definition.body))
  | .block _ | .conditional .. | .whileLoop .. | .forLoop .. | .foreachLoop .. | .repeatLoop ..
  | .ret _ | .breakLoop | .continueLoop | .expression _ | .empty => isTrue trivial

/-- Every signal in the program lies inside a loop of the same function body, or of the program
itself if it is in none. -/
structure Program.WellPlaced (program : Program) : Prop where
  contained : Statement.ContainedEach program
  functions : Statement.EveryEach .placed program

instance (program : Program) : Decidable program.WellPlaced :=
  decidable_of_iff (Statement.ContainedEach program ∧ Statement.EveryEach .placed program)
    ⟨fun ⟨contained, functions⟩ => ⟨contained, functions⟩,
      fun ⟨contained, functions⟩ => ⟨contained, functions⟩⟩

/-- Every unit that can be loaded and read is well placed. -/
def Source.Loader.WellPlaced (loader : Source.Loader) : Prop :=
  ∀ kind name source program, loader kind name = .ok source →
    Program.parse source = .ok program → program.WellPlaced

def Flow.IsSignal : Flow → Prop
  | .breakLoop | .continueLoop => True
  | .normal _ | .ret _ => False

def Statement.IsLoop : Statement → Prop
  | .whileLoop .. | .forLoop .. | .repeatLoop .. => True
  | _ => False

theorem Statement.IsLoop.contained {node : Statement} (loop : node.IsLoop) : node.Contained := by
  cases node with
  | whileLoop | forLoop | repeatLoop => trivial
  | _ => exact loop.elim

namespace Evaluation

open EvalM

section Settling

variable {α β : Type}

/-- Every result of the action is of a kind, whatever the action is run on. -/
structure Returns (kind : α → Prop) (action : EvalM α) : Prop where
  result : ∀ context machine value after, action context machine = .ok value after → kind value

theorem Returns.bind {kind : α → Prop} {kindNext : β → Prop} {action : EvalM α}
    {next : α → EvalM β} (first : Returns kind action)
    (second : ∀ value, kind value → Returns kindNext (next value)) :
    Returns kindNext (action >>= next) := by
  constructor
  intro context machine value after returned
  rw [bind_run] at returned
  cases ended : action context machine with
  | ok early middle =>
      rw [ended] at returned
      have here := first.result context machine early middle ended
      exact (second early here).result context middle value after returned
  | error stop middle =>
      rw [ended] at returned
      cases returned

theorem returns_any (action : EvalM α) : Returns (fun _ => True) action :=
  ⟨fun _ _ _ _ _ => trivial⟩

theorem Returns.after {kind : β → Prop} {next : α → EvalM β}
    (returns : ∀ value, Returns kind (next value)) (action : EvalM α) : Returns kind (action >>= next) :=
  (returns_any action).bind fun value _ => returns value

theorem returns_pure {kind : α → Prop} {value : α} (here : kind value) :
    Returns kind (pure value) := by
  constructor
  intro context machine other after returned
  cases returned
  exact here

theorem returns_throw (kind : α → Prop) (stop : Stop) : Returns kind (throw stop) := by
  constructor
  intro context machine value after returned
  cases returned

theorem Returns.bracket {kind : α → Prop} {action : EvalM α} (returns : Returns kind action)
    (inside : Context → Context) (enter leave : Scopes → Scopes) :
    Returns kind (bracket inside enter leave action) := by
  have watched : ∀ {last : EvalM α}, Returns kind last →
      Returns kind (do observe .passing; last) := fun last => .after (fun _ => last) _
  constructor
  intro context machine value after returned
  rw [EvalM.bracket] at returned
  cases ended : (do observe .passing; action) (inside context)
      { machine with scopes := enter machine.scopes } with
  | ok early middle =>
      rw [ended] at returned
      have here := (watched returns).result _ _ early middle ended
      exact (watched (returns_pure here)).result _ _ value after returned
  | error stop middle =>
      rw [ended] at returned
      cases stop with
      | failure cause =>
          exact (watched (returns_throw kind _)).result _ _ value after returned
      | crash | exhausted | paused moment => cases returned

abbrev Settles (action : EvalM Flow) : Prop :=
  Returns (fun flow => ¬flow.IsSignal) action

/-- A statement ends in a signal only if it does not contain all of its signals. -/
def Deeper.Settled (deeper : Deeper) : Prop :=
  ∀ node : Statement, node.Contained → Settles (deeper.statement node)

section Loops

variable (deeper : Deeper)

theorem returns_round (body : List Statement) :
    Returns (fun ended => ∀ flow, ended = some flow → ¬flow.IsSignal) (round deeper body) := by
  apply Returns.after
  intro flow
  cases flow with
  | normal | continueLoop => exact returns_pure nofun
  | breakLoop | ret value =>
      apply returns_pure
      intro _ same
      cases same
      exact id

theorem settles_roundsWhile (condition : Expression) (body : List Statement)
    (step : Option Expression) (patience : Nat) :
    Settles (roundsWhile deeper condition body step patience) := by
  induction patience with
  | zero => exact returns_throw _ .exhausted
  | succ patience induction =>
      rw [roundsWhile]
      apply Returns.after
      intro value
      split
      · apply (returns_round deeper body).bind
        intro ended settled
        cases ended with
        | some flow => exact returns_pure (settled flow rfl)
        | none =>
            cases step with
            | some step => exact .after (fun _ => induction) _
            | none => exact induction
      · exact returns_pure id

theorem settles_roundsCounted (body : List Statement) (count : Nat) :
    Settles (roundsCounted deeper body count) := by
  induction count with
  | zero => exact returns_pure id
  | succ count induction =>
      rw [roundsCounted]
      apply (returns_round deeper body).bind
      intro ended settled
      cases ended with
      | some flow => exact returns_pure (settled flow rfl)
      | none => exact induction

theorem settles_repeatLoop (count : Expression) (body : List Statement) :
    Settles (repeatLoop deeper count body) := by
  apply Returns.after
  intro value
  dsimp only
  split
  · exact (settles_roundsCounted deeper body _).bracket _ _ _
  · exact returns_throw _ _

end Loops

section Rules

variable {deeper : Deeper} (settled : deeper.Settled)
include settled

theorem settles_statements (last : Value) {nodes : List Statement}
    (contained : Statement.ContainedEach nodes) : Settles (statements deeper last nodes) := by
  induction nodes generalizing last with
  | nil => exact returns_pure id
  | cons node rest induction =>
      rw [statements]
      apply (settled node contained.1).bind
      intro flow kept
      cases flow with
      | normal value => exact induction value contained.2
      | breakLoop | continueLoop => exact absurd trivial kept
      | ret value => exact returns_pure id

theorem settles_branches {alternatives : Alternatives} (contained : alternatives.Contained) :
    Settles (branches deeper alternatives) := by
  match alternatives with
  | .none => exact returns_pure id
  | .otherwise body => exact settles_statements settled .none contained
  | .branch condition body rest =>
      rw [branches]
      apply Returns.after
      intro value
      split
      · exact settles_statements settled .none contained.1
      · exact settles_branches contained.2

theorem settles_statement {node : Statement} (contained : node.Contained) :
    Settles (statement deeper node) := by
  cases node with
  | block body => exact (settles_statements settled .none contained).bracket _ _ _
  | conditional condition body alternatives => exact settles_branches settled contained
  | whileLoop condition body =>
      apply Returns.after
      exact fun rounds => (settles_roundsWhile deeper condition body none rounds).bracket _ _ _
  | forLoop start condition step body =>
      apply Returns.after
      intro rounds
      apply Returns.bracket
      exact .after (fun _ => settles_roundsWhile deeper condition body (some step) rounds) _
  | foreachLoop item items body => exact returns_throw _ _
  | repeatLoop count body => exact settles_repeatLoop deeper count body
  | definition definition => exact .after (fun _ => returns_pure id) _
  | ret value => exact .after (fun _ => returns_pure id) _
  | breakLoop | continueLoop => exact contained.elim
  | expression value => exact .after (fun _ => returns_pure id) _
  | empty => exact returns_pure id

/-- A unit runs a block in its own frame, and the signals of the block are its own too. -/
theorem settles_unitStatement {node : Statement} (contained : node.Contained) :
    Settles (unitStatement deeper node) := by
  cases node with
  | block body => exact settles_statements settled .none contained
  | _ => exact settled _ contained

end Rules

theorem settled_within (room : Nat) : (within room).Settled := by
  induction room with
  | zero =>
      intro node _
      exact .after (fun _ => returns_throw _ _) _
  | succ room induction =>
      intro node contained
      exact (settles_statement induction contained).bracket _ _ _

end Settling

section Placing

variable {α β : Type} [HoldsTrees α] [HoldsTrees β]

/-- The failure for a signal that no loop takes. -/
def IsStray : Failure → Prop
  | .runtime (.signalOutsideLoop _) => True
  | _ => False

theorem IsStray.isReserved {cause : Failure} (stray : IsStray cause) : IsReserved cause := by
  unfold IsStray at stray
  split at stray
  · trivial
  · exact stray.elim

/-- A run has kept all functions well placed, and has not failed for a signal without a loop unless
the loader itself fails so. -/
inductive EndsPlaced (loader : Source.Loader) : EStateM.Result Stop Machine α → Prop
  | returned {value : α} {after : Machine} (every : HoldsTrees.Every .placed value)
      (holds : after.scopes.Holds .placed) : EndsPlaced loader (.ok value after)
  | failed {cause : Failure} {after : Machine} (excuse : IsStray cause → loader.Fails cause)
      (holds : after.scopes.Holds .placed) : EndsPlaced loader (.error (.failure cause) after)
  | stopped {stop : Stop} {after : Machine} (other : ∀ cause, stop ≠ .failure cause) :
      EndsPlaced loader (.error stop after)

def Placing (action : EvalM α) : Prop :=
  ∀ context machine, context.loader.WellPlaced → machine.scopes.Holds .placed →
    EndsPlaced context.loader (action context machine)

/-- What follows may rely on the kind of result that the action returns. -/
theorem Placing.bind_of_returns {action : EvalM α} {next : α → EvalM β} {kind : α → Prop}
    (first : Placing action) (returns : Returns kind action)
    (second : ∀ value, HoldsTrees.Every .placed value → kind value → Placing (next value)) :
    Placing (action >>= next) := by
  intro context machine loads holds
  have acted := first context machine loads holds
  rw [bind_run]
  cases ended : action context machine with
  | ok value middle =>
      rw [ended] at acted
      cases acted with
      | returned every holds =>
          have here := returns.result context machine value middle ended
          exact second value every here context middle loads holds
  | error stop middle =>
      rw [ended] at acted
      cases acted with
      | failed excuse holds => exact .failed excuse holds
      | stopped other => exact .stopped other

theorem Placing.bind {action : EvalM α} {next : α → EvalM β} (first : Placing action)
    (second : ∀ value, HoldsTrees.Every .placed value → Placing (next value)) :
    Placing (action >>= next) :=
  first.bind_of_returns (returns_any action) fun value every _ => second value every

theorem placing_pure {value : α} (every : HoldsTrees.Every .placed value) :
    Placing (pure value) := by
  intro context machine _ holds
  exact .returned every holds

theorem placing_refusal {cause : Failure} (plain : ¬IsStray cause) :
    Placing (throw (.failure cause) : EvalM α) := by
  intro context machine _ holds
  exact .failed (fun stray => absurd stray plain) holds

theorem placing_stop {stop : Stop} (other : ∀ cause, stop ≠ .failure cause) :
    Placing (throw stop : EvalM α) := by
  intro context machine _ _
  exact .stopped other

theorem placing_observe (activity : Activity) : Placing (observe activity) := by
  intro context machine _ holds
  rcases observe_cases activity context machine with passed | ⟨moment, _, paused⟩
  · rw [passed]
    exact .returned trivial holds
  · rw [paused]
    exact .stopped fun _ => nofun

theorem placing_operate (operator : BinaryOperator) {left right : Value}
    (every : left.Every .placed) : Placing (operate operator left right) := by
  apply (placing_observe _).bind
  intro _ _
  cases made : Value.binary operator left right with
  | ok value => exact placing_pure (Value.every_binary every made)
  | error mishap =>
      cases mishap with
      | error cause =>
          have refusal := Value.refuses_binary operator left right cause made
          apply placing_refusal
          intro stray
          cases cause with
          | signalOutsideLoop signal => exact refusal
          | _ => exact stray
      | crash => exact placing_stop fun _ => nofun

theorem placing_modifyScopes {change : Scopes → Scopes}
    (changed : ∀ {scopes : Scopes}, scopes.Holds .placed → (change scopes).Holds .placed) :
    Placing (modifyScopes change) := by
  intro context machine _ holds
  exact .returned trivial (changed holds)

theorem placing_writeText (text : String) : Placing (writeText text) := by
  intro context machine _ holds
  rw [writeText, get_bind_run]
  rcases machine.output.write text with ⟨output, _ | fault⟩
  · exact .returned trivial holds
  · exact .failed False.elim holds

theorem placing_readText : Placing readText := by
  intro context machine _ holds
  rw [readText, get_bind_run]
  rcases machine.input.readLine with ⟨fault | line, input⟩
  · exact .failed False.elim holds
  · exact .returned trivial holds

theorem placing_checkCalls : Placing checkCalls := by
  intro context machine _ holds
  rw [checkCalls, read_bind_run]
  split
  · exact .failed False.elim holds
  · exact .returned trivial holds

theorem Placing.bracket {action : EvalM α} (placing : Placing action) {inside : Context → Context}
    (loader : ∀ context, (inside context).loader = context.loader) {enter leave : Scopes → Scopes}
    (entered : ∀ {scopes : Scopes}, scopes.Holds .placed → (enter scopes).Holds .placed)
    (left : ∀ {scopes : Scopes}, scopes.Holds .placed → (leave scopes).Holds .placed) :
    Placing (bracket inside enter leave action) := by
  intro context machine loads holds
  have watched : ∀ {last : EvalM α}, Placing last → Placing (do observe .passing; last) :=
    fun last => (placing_observe .passing).bind fun _ _ => last
  have loadsInside : (inside context).loader.WellPlaced := by
    rw [loader]
    exact loads
  have acted := watched placing (inside context) { machine with scopes := enter machine.scopes }
    loadsInside (entered holds)
  rw [EvalM.bracket]
  generalize (do observe .passing; action) (inside context)
    { machine with scopes := enter machine.scopes } = ended at acted
  cases acted with
  | returned every holds => exact watched (placing_pure every) context _ loads (left holds)
  | @failed cause after excuse holds =>
      rw [loader] at excuse
      dsimp only
      rcases observe_throw_cases .passing (.failure cause) context
        { after with scopes := leave after.scopes } with passed | ⟨moment, paused⟩
      · rw [passed]
        exact .failed excuse (left holds)
      · rw [paused]
        apply EndsPlaced.stopped
        intro cause same
        cases same
  | @stopped stop after other =>
      cases stop with
      | failure cause => exact absurd rfl (other cause)
      | crash | exhausted | paused moment => exact .stopped other

theorem Placing.nested {action : EvalM α} (placing : Placing action) : Placing (nested action) := by
  apply placing.bracket
  · exact fun _ => rfl
  · exact id
  · exact id

theorem Placing.called {action : EvalM α} (placing : Placing action) : Placing (called action) := by
  apply placing.bracket
  · exact fun _ => rfl
  · exact id
  · exact id

theorem Placing.framed {action : EvalM α} (placing : Placing action) : Placing (framed action) :=
  placing.bracket (fun _ => rfl) Scopes.Holds.push Scopes.Holds.pop

theorem Placing.importingOnce {action : EvalM Unit} (placing : Placing action) (name : String) :
    Placing (importingOnce name action) := by
  have marked : Placing (importing name action) := placing.bracket (fun _ => rfl) id id
  intro context machine loads holds
  rw [EvalM.importingOnce, get_bind_run]
  split
  · exact .failed False.elim holds
  · exact marked context machine loads holds

theorem sustains_placing :
    Sustains .placed (Value.Every .placed)
      (fun machine other => other = machine ∧ machine.scopes.Holds .placed)
      (fun action _ => Placing action) where
  coherent := Trait.coherent_placed
  admits := Trait.admits_every
  value := by
    intro machine other name like allowed
    rcases like with ⟨rfl, holds⟩
    exact ⟨rfl, fun _ found => holds.of_get? allowed found⟩
  output := by
    intro machine other like
    rw [like.1]
  pure := placing_pure
  bind := Placing.bind
  get next context machine loads holds :=
    next machine machine ⟨rfl, holds⟩ context machine loads holds
  refusal plain := placing_refusal (mt IsStray.isReserved plain)
  exhausted _ := placing_stop fun _ => nofun
  applying _ _ _ := placing_observe _
  operate operator _ _ every _ := placing_operate operator every
  patience _ _ _ holds := .returned trivial holds
  assign _ every := placing_modifyScopes fun holds => holds.assign _ every
  define _ every := placing_modifyScopes fun holds => Scopes.Stores.define holds _ every
  declareEach each := placing_modifyScopes fun holds =>
    holds.declareEach fun binding member => (each binding member).2
  writeText := placing_writeText
  readText := placing_readText

theorem framing_placing :
    Framing .placed (Value.Every .placed)
      (fun machine other => other = machine ∧ machine.scopes.Holds .placed)
      (fun action _ => Placing action) (fun action _ => Placing action) :=
  ⟨sustains_placing, sustains_placing, fun placing => placing, Placing.framed⟩

theorem placing_finish {flow : Flow} (every : HoldsTrees.Every .placed flow)
    (settled : ¬flow.IsSignal) : Placing (finish flow) := by
  cases flow with
  | normal value | ret value => exact placing_pure every
  | breakLoop | continueLoop => exact absurd trivial settled

/-- The evaluators of one level further in keep well placed code so, and keep signals in loops. -/
structure Deeper.Placing (deeper : Deeper) : Prop where
  carried : Deeper.Carried .placed (fun action _ => Evaluation.Placing action) deeper deeper
  settled : deeper.Settled

section Rules

variable {deeper : Deeper} (placing : deeper.Placing)
include placing

theorem placing_callFunction (name : String) {definition : Definition}
    (called : (Value.function definition).Every .placed) {arguments : List Value}
    (each : ∀ argument ∈ arguments, argument.Every .placed) :
    Placing (callFunction deeper name definition arguments) := by
  rcases called with ⟨contained, every⟩
  have bound : ∀ binding ∈ definition.parameters.zip arguments,
      Trait.placed.Allows binding.1 ∧ binding.2.Every .placed :=
    fun binding member => ⟨trivial, each binding.2 (List.of_mem_zip member).2⟩
  have body : Placing (statements deeper .none definition.body) := by
    cases definition with
    | mk => exact sustains_placing.body placing.carried every
  have entered : Placing (do
      modifyScopes (·.declareEach (definition.parameters.zip arguments))
      statements deeper .none definition.body) :=
    (sustains_placing.declareEach bound).bind fun _ _ => body
  have settles : Settles (called (framed do
      modifyScopes (·.declareEach (definition.parameters.zip arguments))
      statements deeper .none definition.body)) := by
    apply Returns.bracket
    apply Returns.bracket
    exact .after (fun _ => settles_statements placing.settled .none contained) _
  rw [callFunction]
  split
  · exact placing_refusal id
  · apply placing_checkCalls.bind
    intro _ _
    apply entered.framed.called.bind_of_returns settles
    exact fun flow every settled => placing_finish every settled

theorem placing_unitStatements {nodes : List Statement} (wellPlaced : Program.WellPlaced nodes) :
    Placing (unitStatements deeper nodes) := by
  rcases wellPlaced with ⟨contained, every⟩
  induction nodes with
  | nil => exact placing_pure trivial
  | cons node rest induction =>
      apply Placing.bind_of_returns (sustains_placing.unitStatement placing.carried every.1)
        (settles_unitStatement placing.settled contained.1)
      intro flow everyFlow settled
      cases flow with
      | normal value => exact induction contained.2 every.2
      | breakLoop | continueLoop => exact absurd trivial settled
      | ret value => exact placing_pure trivial

theorem placing_importUnit (kind : Source.ImportKind) (name : String) :
    Placing (importUnit deeper kind name) := by
  rw [importUnit]
  apply Placing.bind
  · apply Placing.importingOnce
    intro context machine loads holds
    rw [load_bind_run]
    cases found : context.loader kind name with
    | error error => exact .failed (fun _ => ⟨kind, name, error, found, rfl⟩) holds
    | ok source =>
        cases parsed : Program.parse source with
        | error error =>
            simp only [parsed]
            exact .failed False.elim holds
        | ok program =>
            have wellPlaced := loads kind name source program found parsed
            simp only [parsed]
            exact placing_unitStatements placing wellPlaced context machine loads holds
  · exact fun _ _ => placing_pure trivial

end Rules

theorem placing_within (room : Nat) : (within room).Placing := by
  refine ⟨?_, settled_within room⟩
  induction room with
  | zero =>
      constructor
      · intro node _ context machine _ holds
        exact .failed False.elim holds
      · intro node _ context machine _ holds
        exact .failed False.elim holds
  | succ room induction =>
      have placing : (within room).Placing := ⟨induction, settled_within room⟩
      have entered : Deeper.Entered (Value.Every .placed) (fun action _ => Placing action)
          (within room) (within room) :=
        ⟨fun name _ _ called each => placing_callFunction placing name called each,
          placing_importUnit placing⟩
      constructor
      · intro node every
        exact Placing.nested (framing_placing.statement induction every)
      · intro node every
        exact Placing.nested (framing_placing.expression induction entered every)

theorem placing_program {tree : Program} (wellPlaced : tree.WellPlaced) :
    Placing (program tree) := by
  intro context machine loads holds
  have placing := placing_within context.limits.evaluation
  have body := sustains_placing.body placing.carried wellPlaced.functions
  have settles := settles_statements placing.settled .none wellPlaced.contained
  have finished := body.bind_of_returns settles fun flow every settled =>
    placing_finish every settled
  exact finished context machine loads holds

end Placing

theorem fails_of_stray {tree : Program} (wellPlaced : tree.WellPlaced) {context : Context}
    (loads : context.loader.WellPlaced) {machine : Machine} (holds : machine.scopes.Holds .placed)
    {signal : String} {after : Machine} (failed : program tree context machine =
      .error (.failure (.runtime (.signalOutsideLoop signal))) after) :
    context.loader.Fails (.runtime (.signalOutsideLoop signal)) := by
  have ended := placing_program wellPlaced context machine loads holds
  rw [failed] at ended
  cases ended with
  | failed excuse _ => exact excuse trivial
  | stopped other => exact absurd rfl (other _)

/-- In well placed code no signal turns out to be without a loop, whatever is called or imported,
unless the loader itself fails as if one were, which those of files and of lists of units do not.
Loops take the signals of their bodies in any code. -/
theorem well_placed_signals_never_escape :
    (∀ (tree : Program) (context : Context) (machine : Machine), tree.WellPlaced →
      context.loader.WellPlaced → context.loader.Spares IsStray → machine.scopes.Holds .placed →
        ∀ signal after, program tree context machine ≠
          .error (.failure (.runtime (.signalOutsideLoop signal))) after) ∧
      (∀ (tree : Program) (context : Context) (machine : Machine), tree.WellPlaced →
        context.loader.WellPlaced → machine.scopes.Holds .placed → ∀ signal after,
          program tree context machine =
              .error (.failure (.runtime (.signalOutsideLoop signal))) after →
            context.loader.Fails (.runtime (.signalOutsideLoop signal))) ∧
      ((∀ units, (Source.Loader.ofUnits units).Spares IsStray) ∧
        ∀ library read, (Source.Loader.ofFiles library read).Spares IsStray) ∧
      ∀ (room : Nat) (node : Statement) (context : Context) (machine : Machine) (flow : Flow)
        (after : Machine), node.IsLoop →
          statementWithin room node context machine = .ok flow after → ¬flow.IsSignal := by
  constructor
  · intro tree context machine wellPlaced loads spares holds signal after failed
    exact spares _ (fails_of_stray wellPlaced loads holds failed) trivial
  constructor
  · exact fun _ _ _ wellPlaced loads holds _ _ => fails_of_stray wellPlaced loads holds
  constructor
  · exact ⟨Source.Loader.spares_ofUnits fun _ _ => id, Source.Loader.spares_ofFiles fun _ _ => id⟩
  · intro room node context machine flow after loop returned
    exact (settled_within room node loop.contained).result context machine flow after returned

/-- A loop without end runs a function and a unit that have loops of their own to leave, and is left
by a signal in a branch. A loader that fails as if a signal were without a loop makes an import of
its units fail so. -/
theorem well_placed_signals_never_escape_loops :
    let skips : Definition := .mk (some "f") []
      [.repeatLoop (.literal (.number 2)) [.continueLoop]]
    let imports : Statement :=
      .expression (.call "import" [.literal (.text "\"LIB\""), .literal (.text "\"unit\"")])
    let tree : Program := [.whileLoop (.literal (.number 1))
      [.expression (.call "f" []), imports, .conditional (.literal (.number 1)) [.breakLoop] .none]]
    let limits : Limits := { calls := 3, evaluation := 12 }
    let context : Context :=
      { limits, loader := fun _ _ => .ok "while (1) \x7b break; \x7d", patience := 3 }
    let stray : Context :=
      { limits, loader := fun _ _ => .error (.signalOutsideLoop "break"), patience := 3 }
    let machine : Machine := { scopes := { current := [("f", .function skips)] } }
    (tree.WellPlaced ∧ context.loader.WellPlaced ∧ context.loader.Spares IsStray ∧
      machine.scopes.Holds .placed ∧ ∀ signal after, program tree context machine ≠
        .error (.failure (.runtime (.signalOutsideLoop signal))) after) ∧
      (stray.loader.WellPlaced ∧
        (∃ after, program tree stray machine =
          .error (.failure (.runtime (.signalOutsideLoop "break"))) after) ∧
        stray.loader.Fails (.runtime (.signalOutsideLoop "break"))) ∧
      ∃ flow after, statementWithin 12 (.whileLoop (.literal (.number 1)) [.breakLoop]) context
        machine = .ok flow after ∧ ¬flow.IsSignal := by
  intro skips imports tree limits context stray machine
  have wellPlaced : tree.WellPlaced := ⟨by decide +kernel, by decide +kernel⟩
  have loads : context.loader.WellPlaced := by
    have read : ∀ program, Program.parse "while (1) \x7b break; \x7d" = .ok program →
        program.WellPlaced := by decide +kernel
    intro kind name source program found parsed
    cases found
    exact read program parsed
  have spares : context.loader.Spares IsStray := by
    rintro cause ⟨kind, name, error, failed, same⟩
    cases failed
  have loadsNothing : stray.loader.WellPlaced := by
    intro kind name source program found
    cases found
  have holds : machine.scopes.Holds .placed := by
    have body : Statement.EveryEach .placed skips.body := by decide +kernel
    refine List.forall_mem_cons.mpr ⟨?_, nofun⟩
    intro name value _ found
    change (if name = "f" then some (.function skips) else none) = some value at found
    split at found <;> cases found
    exact ⟨⟨trivial, trivial⟩, body⟩
  have fails : ∃ after, program tree stray machine =
      .error (.failure (.runtime (.signalOutsideLoop "break"))) after := by
    decide +kernel
  have returned : ∃ flow after, statementWithin 12
      (.whileLoop (.literal (.number 1)) [.breakLoop]) context machine = .ok flow after := by
    decide +kernel
  rcases fails with ⟨left, failed⟩
  rcases returned with ⟨flow, after, returned⟩
  have never := well_placed_signals_never_escape.1 tree context machine wellPlaced loads spares holds
  have excused := well_placed_signals_never_escape.2.1 tree stray machine wellPlaced loadsNothing
    holds "break" left failed
  have taken := well_placed_signals_never_escape.2.2.2 12
    (.whileLoop (.literal (.number 1)) [.breakLoop]) context machine flow after trivial returned
  exact ⟨⟨wellPlaced, loads, spares, holds, never⟩, ⟨loadsNothing, ⟨left, failed⟩, excused⟩, flow,
    after, returned, taken⟩

end Evaluation

end Easel
