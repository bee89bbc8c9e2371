import Easel.Proofs.Parser.Steps
import Easel.Proofs.Parser.Walking

/-!
Walks that agree with readers. A reader takes tokens from the front of what is left, has a bound on
the rounds of its loops and another on how far in it may go. A walk has none of these, but with steps
enough it ends, from the same place on, as the reader does: with the same result, at the place behind
what the reader has taken, or with the same complaint. Sequences of walks agree if their parts do, and
so the rules agree that are put together from them, as long as the phrases inside agree. A loop has
rounds enough because each of its rounds moves on.
-/

open Easel.Parser (Inner)

namespace Easel.Walk

variable {α β : Type} {tokens : List Token} {depth position least middle : Nat}

/-- From this place on the walk comes to this end, with any number of steps from some number on. -/
def Settles (walk : Again → Walk α) (cursor : Cursor) (ended : Except SyntaxError α × Cursor) :
    Prop :=
  ∃ enough, ∀ steps, enough ≤ steps → walk (.upTo steps) cursor = some ended

/-- A walk has ended as the reader has: at the place behind what the reader has taken, which is not
in front of `least`, or with its complaint, and as many phrases are open as before. -/
inductive Ends (tokens : List Token) (depth least : Nat) :
    Except SyntaxError (α × List Token) → Except SyntaxError α × Cursor → Prop where
  | accepted {value : α} {position : Nat} (moved : least ≤ position)
      (inside : position ≤ tokens.length) :
      Ends tokens depth least (.ok (value, tokens.drop position))
        (.ok value, ⟨tokens, position, depth⟩)
  | refused {error : SyntaxError} {position : Nat} (inside : position ≤ tokens.length) :
      Ends tokens depth least (.error error) (.error error, ⟨tokens, position, depth⟩)

/-- From this place on the walk ends as the reader does. -/
def Agrees (tokens : List Token) (depth position least : Nat) (reader : Parser α)
    (walk : Again → Walk α) : Prop :=
  ∃ ended, Settles walk ⟨tokens, position, depth⟩ ended ∧
    Ends tokens depth least (reader (tokens.drop position)) ended

section Blocks

theorem bind_run (walk : Walk α) (next : α → Walk β) (cursor : Cursor) :
    (walk >>= next) cursor =
      match walk cursor with
      | none => none
      | some (.error error, after) => some (.error error, after)
      | some (.ok value, after) => next value after := by
  change (walk cursor >>= fun ended => ExceptT.bindCont next ended.1 ended.2) = _
  cases walk cursor with
  | none => rfl
  | some ended =>
      rcases ended with ⟨error | value, after⟩
      · rfl
      · rfl

theorem settles_const {walk : Walk α} {cursor : Cursor} {ended : Except SyntaxError α × Cursor}
    (same : walk cursor = some ended) : Settles (fun _ => walk) cursor ended :=
  ⟨0, fun _ _ => same⟩

theorem Settles.bind {walk : Again → Walk α} {next : Again → α → Walk β} {cursor after : Cursor}
    {value : α} {ended : Except SyntaxError β × Cursor}
    (first : Settles walk cursor (.ok value, after))
    (second : Settles (fun again => next again value) after ended) :
    Settles (fun again => walk again >>= next again) cursor ended := by
  obtain ⟨enough, first⟩ := first
  obtain ⟨others, second⟩ := second
  refine ⟨max enough others, fun steps many => ?_⟩
  dsimp only
  rw [bind_run, first steps (by omega)]
  exact second steps (by omega)

theorem Settles.failed {walk : Again → Walk α} {next : Again → α → Walk β} {cursor after : Cursor}
    {error : SyntaxError} (first : Settles walk cursor (.error error, after)) :
    Settles (fun again => walk again >>= next again) cursor (.error error, after) := by
  obtain ⟨enough, first⟩ := first
  refine ⟨enough, fun steps many => ?_⟩
  dsimp only
  rw [bind_run, first steps many]

theorem agrees_pure (value : α) (moved : least ≤ position) (inside : position ≤ tokens.length) :
    Agrees tokens depth position least (pure value) fun _ => pure value :=
  ⟨_, settles_const rfl, .accepted moved inside⟩

theorem agrees_throw (error : SyntaxError) (inside : position ≤ tokens.length) :
    Agrees (α := α) tokens depth position least (throw error) fun _ => throw error :=
  ⟨_, settles_const rfl, .refused inside⟩

theorem Agrees.bind {reader : Parser α} {walk : Again → Walk α} {next : α → Parser β}
    {nextWalk : Again → α → Walk β} (first : Agrees tokens depth position middle reader walk)
    (second : ∀ value place, middle ≤ place → place ≤ tokens.length →
      Agrees tokens depth place least (next value) fun again => nextWalk again value) :
    Agrees tokens depth position least (reader >>= next)
      fun again => walk again >>= nextWalk again := by
  obtain ⟨ended, settles, ends⟩ := first
  unfold Agrees
  rw [Parser.bind_apply]
  generalize reader (tokens.drop position) = outcome at ends ⊢
  cases ends with
  | accepted moved inside =>
      obtain ⟨last, settlesLast, endsLast⟩ := second _ _ moved inside
      exact ⟨last, settles.bind settlesLast, endsLast⟩
  | refused inside => exact ⟨_, settles.failed, .refused inside⟩

theorem Agrees.weaken {reader : Parser α} {walk : Again → Walk α}
    (agrees : Agrees tokens depth position middle reader walk) (further : least ≤ middle) :
    Agrees tokens depth position least reader walk := by
  obtain ⟨ended, settles, ends⟩ := agrees
  refine ⟨ended, settles, ?_⟩
  generalize reader (tokens.drop position) = outcome at ends ⊢
  cases ends with
  | accepted moved inside => exact .accepted (Nat.le_trans further moved) inside
  | refused inside => exact .refused inside

theorem Agrees.map {reader : Parser α} {walk : Again → Walk α} (change : α → β)
    (agrees : Agrees tokens depth position least reader walk) :
    Agrees tokens depth position least (change <$> reader) fun again => change <$> walk again := by
  simp only [map_eq_pure_bind]
  exact agrees.bind fun value place moved inside => agrees_pure _ moved inside

theorem Agrees.later {reader : Parser α} {walk : Again → Walk α}
    (agrees : Agrees tokens depth position least reader fun again => walk again.further) :
    Agrees tokens depth position least reader walk := by
  obtain ⟨ended, ⟨enough, settles⟩, ends⟩ := agrees
  refine ⟨ended, ⟨enough + 1, fun steps many => ?_⟩, ends⟩
  obtain ⟨fewer, rfl⟩ := Nat.exists_eq_add_of_le' (Nat.le_of_add_left_le many)
  exact settles fewer (by omega)

theorem agrees_current? {next : Option Token → Parser α} {nextWalk : Again → Option Token → Walk α}
    (agrees : Agrees tokens depth position least (next tokens[position]?)
      fun again => nextWalk again tokens[position]?) :
    Agrees tokens depth position least (Parser.current? >>= next)
      fun again => current? >>= nextWalk again := by
  unfold Agrees
  rw [Parser.current?_bind, List.head?_drop]
  exact agrees

theorem agrees_seen {reader : Parser α} {nextWalk : Again → Option Token → Walk α}
    {seen : Option Token} (known : tokens[position]? = seen)
    (agrees : Agrees tokens depth position least reader fun again => nextWalk again seen) :
    Agrees tokens depth position least reader fun again => current? >>= nextWalk again := by
  subst known
  exact agrees

theorem agrees_following? {next : Option Token → Parser α}
    {nextWalk : Again → Option Token → Walk α}
    (agrees : Agrees tokens depth position least (next tokens[position + 1]?)
      fun again => nextWalk again tokens[position + 1]?) :
    Agrees tokens depth position least (Parser.following? >>= next)
      fun again => following? >>= nextWalk again := by
  unfold Agrees
  rw [Parser.following?_bind, List.getElem?_drop]
  exact agrees

/-- A walk may move on from a token as the reader does. -/
theorem agrees_skip (present : position < tokens.length) :
    Agrees tokens depth position (position + 1) Parser.skip fun _ => advance := by
  refine ⟨_, settles_const rfl, ?_⟩
  change Ends tokens depth (position + 1) (.ok ((), (tokens.drop position).drop 1)) _
  rw [List.drop_drop]
  exact .accepted (Nat.le_refl _) present

theorem lt_length_of_getElem? {token : Token} (found : tokens[position]? = some token) :
    position < tokens.length :=
  (List.getElem?_eq_some_iff.mp found).1

theorem take_eq_current?_bind (expected : Expectation) :
    Parser.take expected = (do
      match ← Parser.current? with
      | none => throw (.unexpectedEnd expected)
      | some token => Parser.skip; return token) := by
  funext tokens
  cases tokens with
  | nil => rfl
  | cons token rest => rfl

theorem agrees_take {expected : Expectation} (inside : position ≤ tokens.length) :
    Agrees tokens depth position (position + 1) (Parser.take expected) fun _ => take expected := by
  rw [take_eq_current?_bind]
  apply agrees_current?
  cases found : tokens[position]? with
  | none => exact agrees_throw _ inside
  | some token =>
      apply (agrees_skip (lt_length_of_getElem? found)).bind
      exact fun _ place moved inside => agrees_pure token moved inside

theorem expect_eq_current?_bind (expected : Expectation) (test : Token → Bool) :
    Parser.expect expected test = (do
      match ← Parser.current? with
      | none => Parser.take expected
      | some token =>
          if test token then Parser.take expected
          else throw (SyntaxError.atToken token expected)) := by
  funext tokens
  cases tokens with
  | nil => rfl
  | cons token rest =>
      rw [Parser.expect_cons, Parser.current?_bind, List.head?_cons]
      dsimp only
      split <;> rfl

theorem agrees_expect {expected : Expectation} {test : Token → Bool}
    (inside : position ≤ tokens.length) :
    Agrees tokens depth position (position + 1) (Parser.expect expected test)
      fun _ => expect expected test := by
  rw [expect_eq_current?_bind]
  apply agrees_current?
  cases found : tokens[position]? with
  | none => exact agrees_take inside
  | some token =>
      dsimp only
      split
      · exact agrees_take inside
      · exact agrees_throw _ inside

theorem agrees_expectSymbol {lexeme : String} (inside : position ≤ tokens.length) :
    Agrees tokens depth position (position + 1) (Parser.expectSymbol lexeme)
      fun _ => expectSymbol lexeme :=
  (agrees_expect inside).map _

theorem agrees_expectIdentifier (inside : position ≤ tokens.length) :
    Agrees tokens depth position (position + 1) Parser.expectIdentifier fun _ => expectIdentifier :=
  (agrees_expect inside).map _

theorem agrees_expectSeparator {closing : String} (inside : position ≤ tokens.length) :
    Agrees tokens depth position (position + 1) (Parser.expectSeparator closing)
      fun _ => expectSeparator closing :=
  (agrees_expect inside).bind fun _ _ moved inside => agrees_pure _ moved inside

end Blocks

/-- The readers of the phrases inside agree with the walks that are begun again at this depth, and
their loops are allowed as many rounds as there are tokens. -/
structure Within (tokens : List Token) (depth : Nat) (inner : Inner) : Prop where
  rounds : tokens.length ≤ inner.rounds
  statement : ∀ {position}, position ≤ tokens.length →
    Agrees tokens depth position (position + 1) inner.statement Again.statement
  expression : ∀ precedence {position}, position ≤ tokens.length →
    Agrees tokens depth position (position + 1) (inner.expression precedence)
      (·.expression precedence)

/-- A loop over items takes an item and a separator in each round. -/
theorem agrees_itemsUntil {item : Parser α} {walk : Again → Walk α}
    {loop : Again → List α → Walk (List α)} {closing : String}
    (unfolds : ∀ again, loop again.further = itemsUntil (walk again) (loop again) closing)
    (agrees : ∀ {place}, place ≤ tokens.length →
      Agrees tokens depth place (place + 1) item walk)
    (rounds : Nat) (found : List α) (inside : position ≤ tokens.length)
    (enough : tokens.length < position + rounds) :
    Agrees tokens depth position (position + 1) (Parser.itemsUntil item closing rounds found)
      fun again => loop again found := by
  induction rounds generalizing position found with
  | zero => omega
  | succ rounds induction =>
      apply Agrees.later
      simp only [unfolds]
      apply (agrees inside).bind
      intro next first movedFirst insideFirst
      apply (agrees_expectSeparator insideFirst).bind
      intro closes second movedSecond insideSecond
      cases closes with
      | true => exact agrees_pure _ (by omega) insideSecond
      | false =>
          have rest := induction (next :: found) insideSecond (by omega)
          exact rest.weaken (by omega)

theorem lt_length_of_any {test : Token → Bool} (passed : tokens[position]?.any test = true) :
    position < tokens.length := by
  rw [Option.any_eq_true_iff_get] at passed
  obtain ⟨present, _⟩ := passed
  exact lt_length_of_getElem? (Option.eq_some_of_isSome present)

/-- A list whose opening symbol has been taken leaves a round to spare. -/
theorem agrees_listUntil {item : Parser α} {loop : Again → List α → Walk (List α)}
    {closing : String} {rounds : Nat}
    (agrees : Agrees tokens depth position (position + 1)
      (Parser.itemsUntil item closing rounds []) fun again => loop again []) :
    Agrees tokens depth position (position + 1) (Parser.listUntil item closing rounds)
      fun again => listUntil (loop again) closing := by
  apply agrees_current?
  split
  · next closes =>
      apply (agrees_skip (lt_length_of_any closes)).bind
      exact fun _ place moved inside => agrees_pure [] moved inside
  · exact agrees

theorem agrees_parametersUntil (rounds : Nat) (found : List String)
    (inside : position ≤ tokens.length) (enough : tokens.length < position + rounds) :
    Agrees tokens depth position (position + 1)
      (Parser.itemsUntil Parser.expectIdentifier ")" rounds found) (·.parametersUntil found) :=
  agrees_itemsUntil (fun _ => rfl) agrees_expectIdentifier rounds found inside enough

theorem agrees_signal (command : Statement) (present : position < tokens.length) :
    Agrees tokens depth position (position + 1) (Parser.signal command)
      fun _ => signal command := by
  apply (agrees_skip present).bind
  intro _ first movedFirst insideFirst
  apply (agrees_expectSymbol insideFirst).bind
  intro _ second movedSecond insideSecond
  exact agrees_pure command (by omega) insideSecond

theorem skip_eq_expectSymbol {token : Token} {lexeme : String} (reader : Parser α)
    (seen : tokens[position]? = some token) (closes : token.isSymbol lexeme = true) :
    (do Parser.skip; reader) (tokens.drop position) =
      (do Parser.expectSymbol lexeme; reader) (tokens.drop position) := by
  obtain ⟨present, same⟩ := List.getElem?_eq_some_iff.mp seen
  have spelled : token.word = .symbol lexeme := Token.isSymbol_iff.mp closes
  have taken : Parser.expectSymbol lexeme (token :: tokens.drop (position + 1)) =
      .ok ((), tokens.drop (position + 1)) :=
    Parser.expectSymbol_eq_ok_iff.mpr (spelled ▸ Token.Takes.single token _)
  rw [List.drop_eq_getElem_cons present, same, Parser.skip_bind, Parser.bind_apply, taken]

section Rules

variable {inner : Inner} (within : Within tokens depth inner)
include within

theorem agrees_expressionsUntil (closing : String) (rounds : Nat) (found : List Expression)
    (inside : position ≤ tokens.length) (enough : tokens.length < position + rounds) :
    Agrees tokens depth position (position + 1)
      (Parser.itemsUntil (inner.expression .lowest) closing rounds found)
      (·.expressionsUntil closing found) :=
  agrees_itemsUntil (fun _ => rfl) (within.expression .lowest) rounds found inside enough

theorem agrees_expressionList (closing : String) (begun : 0 < position)
    (inside : position ≤ tokens.length) :
    Agrees tokens depth position (position + 1) (Parser.expressionList inner closing)
      (expressionList · closing) := by
  have enough := within.rounds
  apply agrees_listUntil
  exact agrees_expressionsUntil within closing inner.rounds [] inside (by omega)

theorem agrees_parameters (inside : position ≤ tokens.length) :
    Agrees tokens depth position (position + 1) (Parser.parameters inner) parameters := by
  have enough := within.rounds
  apply (agrees_expectSymbol inside).bind
  intro _ place moved insideList
  apply Agrees.weaken
  · apply agrees_listUntil
    exact agrees_parametersUntil inner.rounds [] insideList (by omega)
  · exact Nat.le_succ_of_le moved

theorem agrees_statementsUntilBrace (rounds : Nat) (found : List Statement)
    (inside : position ≤ tokens.length) (enough : tokens.length ≤ position + rounds) :
    Agrees tokens depth position (position + 1)
      (Parser.statementsUntilBrace inner rounds found) (·.statementsUntilBrace found) := by
  induction rounds generalizing position found with
  | zero =>
      apply Agrees.later
      exact agrees_seen (List.getElem?_eq_none enough) (agrees_throw _ inside)
  | succ rounds induction =>
      apply Agrees.later
      apply agrees_current?
      cases seen : tokens[position]? with
      | none => exact agrees_throw _ inside
      | some token =>
          dsimp only
          split
          · next closes =>
              unfold Agrees
              rw [skip_eq_expectSymbol _ seen closes]
              exact (agrees_expectSymbol inside).bind fun _ _ moved insideRest =>
                agrees_pure _ moved insideRest
          · apply (within.statement inside).bind
            intro next place moved insideNext
            have rest := induction (next :: found) insideNext (by omega)
            exact rest.weaken (by omega)

theorem agrees_body (inside : position ≤ tokens.length) :
    Agrees tokens depth position (position + 1) (Parser.body inner) body := by
  have enough := within.rounds
  apply (agrees_expectSymbol inside).bind
  intro _ place moved insideList
  have list := agrees_statementsUntilBrace within inner.rounds [] insideList (by omega)
  exact list.weaken (by omega)

theorem agrees_condition (inside : position ≤ tokens.length) :
    Agrees tokens depth position (position + 1) (Parser.condition inner) condition := by
  apply (agrees_expectSymbol inside).bind
  intro _ first movedFirst insideFirst
  apply (within.expression .lowest insideFirst).bind
  intro tree second movedSecond insideSecond
  apply (agrees_expectSymbol insideSecond).bind
  intro _ third movedThird insideThird
  exact agrees_pure tree (by omega) insideThird

theorem agrees_alternatives (rounds : Nat) (inside : position ≤ tokens.length)
    (enough : tokens.length ≤ position + rounds) :
    Agrees tokens depth position position (Parser.alternatives inner rounds)
      Again.alternatives := by
  induction rounds generalizing position with
  | zero =>
      have ended : tokens[position]? = none := List.getElem?_eq_none enough
      apply Agrees.later
      apply agrees_seen ended
      exact agrees_seen ended (agrees_pure _ (Nat.le_refl _) inside)
  | succ rounds induction =>
      apply Agrees.later
      apply agrees_current?
      cases seen : tokens[position]? with
      | none => exact agrees_seen seen (agrees_pure _ (Nat.le_refl _) inside)
      | some token =>
          dsimp only [Option.any_some]
          have present := lt_length_of_getElem? seen
          split
          · apply (agrees_skip present).bind
            intro _ first movedFirst insideFirst
            apply (agrees_condition within insideFirst).bind
            intro test second movedSecond insideSecond
            apply (agrees_body within insideSecond).bind
            intro branch third movedThird insideThird
            apply (induction insideThird (by omega)).bind
            intro rest fourth movedFourth insideFourth
            exact agrees_pure _ (by omega) insideFourth
          · apply agrees_seen seen
            dsimp only [Option.any_some]
            split
            · apply (agrees_skip present).bind
              intro _ first movedFirst insideFirst
              apply (agrees_body within insideFirst).bind
              intro branch second movedSecond insideSecond
              exact agrees_pure _ (by omega) insideSecond
            · exact agrees_pure _ (Nat.le_refl _) inside

theorem agrees_conditional (present : position < tokens.length) :
    Agrees tokens depth position (position + 1) (Parser.conditional inner) conditional := by
  have enough := within.rounds
  apply (agrees_skip present).bind
  intro _ first movedFirst insideFirst
  apply (agrees_condition within insideFirst).bind
  intro test second movedSecond insideSecond
  apply (agrees_body within insideSecond).bind
  intro branch third movedThird insideThird
  apply (agrees_alternatives within inner.rounds insideThird (by omega)).bind
  intro others fourth movedFourth insideFourth
  exact agrees_pure _ (by omega) insideFourth

theorem agrees_whileLoop (present : position < tokens.length) :
    Agrees tokens depth position (position + 1) (Parser.whileLoop inner) whileLoop := by
  apply (agrees_skip present).bind
  intro _ first movedFirst insideFirst
  apply (agrees_condition within insideFirst).bind
  intro test second movedSecond insideSecond
  apply (agrees_body within insideSecond).bind
  intro round third movedThird insideThird
  exact agrees_pure _ (by omega) insideThird

theorem agrees_repeatLoop (present : position < tokens.length) :
    Agrees tokens depth position (position + 1) (Parser.repeatLoop inner) repeatLoop := by
  apply (agrees_skip present).bind
  intro _ first movedFirst insideFirst
  apply (agrees_condition within insideFirst).bind
  intro count second movedSecond insideSecond
  apply (agrees_body within insideSecond).bind
  intro round third movedThird insideThird
  exact agrees_pure _ (by omega) insideThird

theorem agrees_foreachLoop (inside : position ≤ tokens.length) :
    Agrees tokens depth position (position + 1) (Parser.foreachLoop inner) foreachLoop := by
  apply (agrees_expectIdentifier inside).bind
  intro item first movedFirst insideFirst
  apply (agrees_expectSymbol insideFirst).bind
  intro _ second movedSecond insideSecond
  apply (within.expression .lowest insideSecond).bind
  intro items third movedThird insideThird
  apply (agrees_expectSymbol insideThird).bind
  intro _ fourth movedFourth insideFourth
  apply (agrees_body within insideFourth).bind
  intro round fifth movedFifth insideFifth
  exact agrees_pure _ (by omega) insideFifth

theorem agrees_countingLoop (inside : position ≤ tokens.length) :
    Agrees tokens depth position (position + 1) (Parser.countingLoop inner) countingLoop := by
  apply (within.expression .lowest inside).bind
  intro start first movedFirst insideFirst
  apply (agrees_expectSymbol insideFirst).bind
  intro _ second movedSecond insideSecond
  apply (within.expression .lowest insideSecond).bind
  intro test third movedThird insideThird
  apply (agrees_expectSymbol insideThird).bind
  intro _ fourth movedFourth insideFourth
  apply (within.expression .lowest insideFourth).bind
  intro step fifth movedFifth insideFifth
  apply (agrees_expectSymbol insideFifth).bind
  intro _ sixth movedSixth insideSixth
  apply (agrees_body within insideSixth).bind
  intro round seventh movedSeventh insideSeventh
  exact agrees_pure _ (by omega) insideSeventh

theorem agrees_forLoop (present : position < tokens.length) :
    Agrees tokens depth position (position + 1) (Parser.forLoop inner) forLoop := by
  apply (agrees_skip present).bind
  intro _ first movedFirst insideFirst
  apply (agrees_expectSymbol insideFirst).bind
  intro _ second movedSecond insideSecond
  apply agrees_current?
  apply agrees_following?
  dsimp only
  split
  · exact (agrees_foreachLoop within insideSecond).weaken (by omega)
  · exact (agrees_countingLoop within insideSecond).weaken (by omega)

theorem agrees_definition (present : position < tokens.length) :
    Agrees tokens depth position (position + 1) (Parser.definition inner) definition := by
  apply (agrees_skip present).bind
  intro _ first movedFirst insideFirst
  have rest : ∀ (name : Option String) place, position + 1 ≤ place → place ≤ tokens.length →
      Agrees tokens depth place (position + 1)
        (do return Definition.mk name (← Parser.parameters inner) (← Parser.body inner))
        (fun again => do return Definition.mk name (← parameters again) (← body again)) := by
    intro name place moved inside
    apply (agrees_parameters within inside).bind
    intro names second movedSecond insideSecond
    apply (agrees_body within insideSecond).bind
    intro commands third movedThird insideThird
    exact agrees_pure _ (by omega) insideThird
  apply agrees_current?
  split
  · apply ((agrees_expectIdentifier insideFirst).map some).bind
    intro name place moved inside
    exact rest name place (by omega) inside
  · exact rest none first movedFirst insideFirst

theorem agrees_expressionStatement (inside : position ≤ tokens.length) :
    Agrees tokens depth position (position + 1) (Parser.expressionStatement inner)
      expressionStatement := by
  apply (within.expression .lowest inside).bind
  intro tree first movedFirst insideFirst
  apply (agrees_expectSymbol insideFirst).bind
  intro _ second movedSecond insideSecond
  exact agrees_pure _ (by omega) insideSecond

theorem agrees_statementBegunBy (kind : Token.Kind) (lexeme : String)
    (present : position < tokens.length) :
    Agrees tokens depth position (position + 1) (Parser.statementBegunBy inner kind lexeme)
      (statementBegunBy · kind lexeme) := by
  have inside := Nat.le_of_lt present
  unfold Parser.statementBegunBy
  split
  · simp only [statementBegunBy]
    exact (agrees_body within inside).bind fun _ _ moved inside => agrees_pure _ moved inside
  · simp only [statementBegunBy]
    exact (agrees_skip present).bind fun _ _ moved inside => agrees_pure _ moved inside
  · simp only [statementBegunBy]
    exact agrees_conditional within present
  · simp only [statementBegunBy]
    exact agrees_whileLoop within present
  · simp only [statementBegunBy]
    exact agrees_forLoop within present
  · simp only [statementBegunBy]
    exact agrees_repeatLoop within present
  · simp only [statementBegunBy]
    apply agrees_following?
    split
    · exact (agrees_definition within present).bind fun _ _ moved inside =>
        agrees_pure _ moved inside
    · exact agrees_expressionStatement within inside
  · simp only [statementBegunBy]
    apply (agrees_skip present).bind
    intro _ first movedFirst insideFirst
    apply (within.expression .lowest insideFirst).bind
    intro value second movedSecond insideSecond
    apply (agrees_expectSymbol insideSecond).bind
    intro _ third movedThird insideThird
    exact agrees_pure _ (by omega) insideThird
  · simp only [statementBegunBy]
    exact agrees_signal _ present
  · simp only [statementBegunBy]
    exact agrees_signal _ present
  · simp only [statementBegunBy]
    exact agrees_expressionStatement within inside

theorem agrees_statement (inside : position ≤ tokens.length) :
    Agrees tokens depth position (position + 1) (Parser.statement inner) statement := by
  apply agrees_current?
  cases seen : tokens[position]? with
  | none => exact agrees_throw _ inside
  | some token =>
      exact agrees_statementBegunBy within token.kind token.lexeme (lt_length_of_getElem? seen)

theorem agrees_afterIdentifier (name : String) (precedence : Precedence) (begun : 0 < position)
    (inside : position ≤ tokens.length) :
    Agrees tokens depth position position (Parser.afterIdentifier inner name precedence)
      (afterIdentifier · name precedence) := by
  have alone : Agrees tokens depth position position (pure (Expression.identifier name))
      fun _ => pure (Expression.identifier name) := agrees_pure _ (Nat.le_refl _) inside
  apply agrees_current?
  cases seen : tokens[position]? with
  | none => exact alone
  | some token =>
      have present := lt_length_of_getElem? seen
      dsimp only
      split
      · apply (agrees_skip present).bind
        intro _ first movedFirst insideFirst
        apply (agrees_expressionList within _ (by omega) insideFirst).bind
        intro arguments second movedSecond insideSecond
        exact agrees_pure _ (by omega) insideSecond
      · split
        · cases AssignOperator.ofLexeme? token.lexeme with
          | some operator =>
              dsimp only
              split
              · apply (agrees_skip present).bind
                intro _ first movedFirst insideFirst
                apply (within.expression _ insideFirst).bind
                intro value second movedSecond insideSecond
                exact agrees_pure _ (by omega) insideSecond
              · exact alone
          | none =>
              cases UnaryOperator.afterOperand? token.lexeme with
              | some operator =>
                  apply (agrees_skip present).bind
                  intro _ first movedFirst insideFirst
                  exact agrees_pure _ (by omega) insideFirst
              | none => exact alone
        · exact alone

theorem agrees_operand (precedence : Precedence) (inside : position ≤ tokens.length) :
    Agrees tokens depth position (position + 1) (Parser.operand inner precedence)
      (operand · precedence) := by
  apply agrees_current?
  cases seen : tokens[position]? with
  | none => exact agrees_throw _ inside
  | some token =>
      have present := lt_length_of_getElem? seen
      rcases token with ⟨kind, lexeme, origin⟩
      dsimp only
      split
      · simp only [operandBegunBy]
        apply (agrees_skip present).bind
        intro _ first movedFirst insideFirst
        cases Decimal.read? lexeme.toList with
        | some decimal => exact agrees_pure _ movedFirst insideFirst
        | none => exact agrees_throw _ insideFirst
      · simp only [operandBegunBy]
        exact (agrees_skip present).bind fun _ _ moved inside => agrees_pure _ moved inside
      · simp only [operandBegunBy]
        apply (agrees_skip present).bind
        intro _ first movedFirst insideFirst
        have rest := agrees_afterIdentifier within lexeme precedence (by omega) insideFirst
        exact rest.weaken movedFirst
      · simp only [operandBegunBy]
        cases UnaryOperator.beforeOperand? lexeme with
        | some operator =>
            apply (agrees_skip present).bind
            intro _ first movedFirst insideFirst
            apply (within.expression _ insideFirst).bind
            intro right second movedSecond insideSecond
            exact agrees_pure _ (by omega) insideSecond
        | none => exact agrees_throw _ inside
      · simp only [operandBegunBy]
        apply (agrees_skip present).bind
        intro _ first movedFirst insideFirst
        apply (within.expression _ insideFirst).bind
        intro tree second movedSecond insideSecond
        apply (agrees_expectSymbol insideSecond).bind
        intro _ third movedThird insideThird
        exact agrees_pure _ (by omega) insideThird
      · simp only [operandBegunBy]
        apply (agrees_skip present).bind
        intro _ first movedFirst insideFirst
        apply (agrees_expressionList within _ (by omega) insideFirst).bind
        intro items second movedSecond insideSecond
        exact agrees_pure _ (by omega) insideSecond
      · simp only [operandBegunBy]
        exact (agrees_definition within present).bind fun _ _ moved inside =>
          agrees_pure _ moved inside
      · simp only [operandBegunBy]
        exact agrees_throw _ inside

theorem agrees_application (left : Expression) (inside : position ≤ tokens.length) :
    Agrees tokens depth position (position + 1) (Parser.application inner left)
      (application · left) := by
  apply (agrees_take inside).bind
  intro token first movedFirst insideFirst
  split
  · apply (within.expression _ insideFirst).bind
    intro index second movedSecond insideSecond
    apply (agrees_expectSymbol insideSecond).bind
    intro _ third movedThird insideThird
    exact agrees_pure _ (by omega) insideThird
  · cases BinaryOperator.ofLexeme? token.lexeme with
    | some operator =>
        apply (within.expression _ insideFirst).bind
        intro right second movedSecond insideSecond
        exact agrees_pure _ (by omega) insideSecond
    | none => exact agrees_throw _ insideFirst

theorem agrees_applications (precedence : Precedence) (rounds : Nat) (left : Expression)
    (inside : position ≤ tokens.length) (enough : tokens.length ≤ position + rounds) :
    Agrees tokens depth position position (Parser.applications inner precedence rounds left)
      (·.applications precedence left) := by
  induction rounds generalizing position left with
  | zero =>
      apply Agrees.later
      exact agrees_seen (List.getElem?_eq_none enough) (agrees_pure left (Nat.le_refl _) inside)
  | succ rounds induction =>
      apply Agrees.later
      apply agrees_current?
      cases Parser.operatorPrecedence? tokens[position]? with
      | none => exact agrees_pure left (Nat.le_refl _) inside
      | some next =>
          dsimp only
          split
          · apply (agrees_application within left inside).bind
            intro extended place moved insideNext
            have rest := induction extended insideNext (by omega)
            exact rest.weaken (by omega)
          · exact agrees_pure left (Nat.le_refl _) inside

theorem agrees_expression (precedence : Precedence) (inside : position ≤ tokens.length) :
    Agrees tokens depth position (position + 1) (Parser.expression inner precedence)
      (expression · precedence) := by
  have enough := within.rounds
  apply (agrees_operand within precedence inside).bind
  intro left place moved insideRest
  have rest := agrees_applications within precedence inner.rounds left insideRest (by omega)
  exact rest.weaken moved

end Rules

theorem agrees_statementsUntilEnd {inner : Inner} (within : Within tokens depth inner)
    (rounds : Nat) (found : List Statement) (inside : position ≤ tokens.length)
    (enough : tokens.length ≤ position + rounds) :
    Agrees tokens depth position position
      (Parser.statementsUntilEnd inner.statement rounds found) (·.statementsUntilEnd found) := by
  induction rounds generalizing position found with
  | zero =>
      apply Agrees.later
      exact agrees_seen (List.getElem?_eq_none enough) (agrees_pure _ (Nat.le_refl _) inside)
  | succ rounds induction =>
      apply Agrees.later
      apply agrees_current?
      cases tokens[position]? with
      | none => exact agrees_pure _ (Nat.le_refl _) inside
      | some token =>
          apply (within.statement inside).bind
          intro next place moved insideNext
          have rest := induction (next :: found) insideNext (by omega)
          exact rest.weaken (by omega)

end Easel.Walk
