import Easel.Proofs.Parser.Agreement

/-!
Reading goes on and ends. How many phrases are open decides how far in a walk may still go, and this
is the room that the reader is given there. So the two agree at every depth, by induction on the room,
and a walk ends wherever it begins and whatever the tokens are.
-/

namespace Easel.Walk

variable {α : Type} {tokens : List Token} {depth position least : Nat}

theorem Agrees.nested {reader : Parser α} {walk : Again → Walk α}
    (shallow : ¬Parser.nestingLimit ≤ depth)
    (agrees : Agrees tokens (depth + 1) position least reader walk) :
    Agrees tokens depth position least reader fun again => nested (walk again) := by
  obtain ⟨⟨outcome, after⟩, ⟨enough, settles⟩, ends⟩ := agrees
  refine ⟨(outcome, { after with depth := after.depth - 1 }), ⟨enough, fun steps many => ?_⟩, ?_⟩
  · have counted : Walk.nested (walk (.upTo steps)) ⟨tokens, position, depth⟩ =
        (walk (.upTo steps) ⟨tokens, position, depth + 1⟩).bind fun ended =>
          some (ended.1, { ended.2 with depth := ended.2.depth - 1 }) := if_neg shallow
    refine counted.trans ?_
    rw [settles steps many]
    rfl
  · generalize reader (tokens.drop position) = taken at ends ⊢
    cases ends with
    | accepted moved inside => exact .accepted moved inside
    | refused inside => exact .refused inside

theorem agrees_tooDeep {walk : Again → Walk α} (deep : Parser.nestingLimit ≤ depth)
    (inside : position ≤ tokens.length) :
    Agrees tokens depth position least Parser.tooDeep fun again => nested (walk again) := by
  have same : Parser.tooDeep (α := α) (tokens.drop position) =
      .error (tooDeep ⟨tokens, position, depth⟩) := by
    change Except.error (SyntaxError.tooDeep
      (((tokens.drop position).head?.map Token.position).getD ⟨0, 0⟩) Parser.nestingLimit) = _
    rw [List.head?_drop]
    rfl
  refine ⟨_, ⟨0, fun _ _ => if_pos deep⟩, ?_⟩
  rw [same]
  exact .refused inside

theorem within_room {rounds : Nat} (enough : tokens.length ≤ rounds) (depth : Nat) :
    let room := Parser.nestingLimit - depth
    Within tokens depth
      ⟨Parser.statementWithin rounds room, Parser.expressionWithin rounds room, rounds⟩ := by
  intro room
  induction spare : room generalizing depth with
  | zero =>
      have full : Parser.nestingLimit ≤ depth := by omega
      exact ⟨enough, fun inside => (agrees_tooDeep full inside).later,
        fun _ _ inside => (agrees_tooDeep full inside).later⟩
  | succ room induction =>
      have further := induction (depth + 1) (by omega)
      have shallow : ¬Parser.nestingLimit ≤ depth := by omega
      exact ⟨enough, fun inside => ((agrees_statement further inside).nested shallow).later,
        fun precedence _ inside =>
          ((agrees_expression further precedence inside).nested shallow).later⟩

theorem program_eq_ofTokens (tokens : List Token) :
    ∃ enough, ∀ steps, enough ≤ steps → program steps tokens = some (Program.ofTokens tokens) := by
  have within := within_room (Nat.le_refl tokens.length) 0
  obtain ⟨ended, ⟨enough, settles⟩, ends⟩ :=
    agrees_statementsUntilEnd within tokens.length [] (Nat.zero_le _) (Nat.le_add_left _ _)
  refine ⟨enough, fun steps many => ?_⟩
  change Prod.fst <$> (Again.upTo steps).statementsUntilEnd [] ⟨tokens, 0, 0⟩ =
    some (Parser.statementsUntilEnd
      (Parser.statementWithin tokens.length Parser.nestingLimit) tokens.length [] tokens >>=
        fun taken => pure taken.1)
  have settled : (Again.upTo steps).statementsUntilEnd [] ⟨tokens, 0, 0⟩ = some ended :=
    settles steps many
  rw [settled]
  change Ends tokens 0 0 (Parser.statementsUntilEnd
    (Parser.statementWithin tokens.length Parser.nestingLimit) tokens.length [] tokens) ended at ends
  generalize Parser.statementsUntilEnd _ tokens.length [] tokens = outcome at ends ⊢
  cases ends with
  | accepted moved inside => rfl
  | refused inside => rfl

/-- The walk ends: at a place among the tokens or behind the last one, with as many phrases open as
before, and not in front of `least` if it succeeds. -/
def Returns (least : Nat) (walk : Again → Walk α) (cursor : Cursor) : Prop :=
  ∃ outcome place, Settles walk cursor (outcome, { cursor with position := place }) ∧
    place ≤ cursor.tokens.length ∧ ∀ value, outcome = .ok value → least ≤ place

theorem Agrees.returns {reader : Parser α} {walk : Again → Walk α}
    (agrees : Agrees tokens depth position least reader walk) :
    Returns least walk ⟨tokens, position, depth⟩ := by
  obtain ⟨ended, settles, ends⟩ := agrees
  generalize reader (tokens.drop position) = outcome at ends
  cases ends with
  | accepted moved inside => exact ⟨_, _, settles, inside, fun _ _ => moved⟩
  | refused inside => exact ⟨_, _, settles, inside, nofun⟩

/-- Wherever it begins and however many phrases are open, the walk over a statement or an expression
ends, further on if it succeeds. So does every loop, and the walk over all tokens ends as reading
them does. -/
theorem parsing_progresses_and_ends (tokens : List Token) (position depth : Nat)
    (inside : position ≤ tokens.length) :
    let cursor : Cursor := ⟨tokens, position, depth⟩
    let room := Parser.nestingLimit - depth
    (Returns (position + 1) Again.statement cursor ∧
      ∀ precedence, Returns (position + 1) (·.expression precedence) cursor) ∧
    ((∀ found, Returns position (·.statementsUntilEnd found) cursor) ∧
      (∀ found, Returns (position + 1) (·.statementsUntilBrace found) cursor) ∧
      Returns position Again.alternatives cursor ∧
      (∀ precedence left, Returns position (·.applications precedence left) cursor) ∧
      (∀ found, Returns (position + 1) (·.parametersUntil found) cursor) ∧
      ∀ closing found, Returns (position + 1) (·.expressionsUntil closing found) cursor) ∧
    (Agrees tokens depth position (position + 1) (Parser.statementWithin tokens.length room)
        Again.statement ∧
      ∀ precedence, Agrees tokens depth position (position + 1)
        (Parser.expressionWithin tokens.length room precedence) (·.expression precedence)) ∧
    ∃ enough, ∀ steps, enough ≤ steps →
      program steps tokens = some (Program.ofTokens tokens) := by
  intro cursor room
  have within := within_room (Nat.le_refl tokens.length) depth
  -- A loop that begins at the first token may need a round more than there are tokens.
  have roomy := within_room (Nat.le_succ tokens.length) depth
  have spare : tokens.length < position + (tokens.length + 1) := by omega
  have enough := Nat.le_of_lt spare
  refine ⟨⟨?_, ?_⟩, ⟨?_, ?_, ?_, ?_, ?_, ?_⟩, ⟨?_, ?_⟩, program_eq_ofTokens tokens⟩
  · exact (within.statement inside).returns
  · exact fun precedence => (within.expression precedence inside).returns
  · exact fun found => (agrees_statementsUntilEnd roomy _ found inside enough).returns
  · exact fun found => (agrees_statementsUntilBrace roomy _ found inside enough).returns
  · exact (agrees_alternatives roomy _ inside enough).returns
  · exact fun precedence left => (agrees_applications roomy precedence _ left inside enough).returns
  · exact fun found => (agrees_parametersUntil _ found inside spare).returns
  · exact fun closing found => (agrees_expressionsUntil roomy closing _ found inside spare).returns
  · exact within.statement inside
  · exact fun precedence => within.expression precedence inside

theorem parsing_progresses_and_ends_elif :
    let tokens : List Token := [⟨.symbol, "(", ⟨1, 1⟩⟩, ⟨.keyword, "elif", ⟨1, 2⟩⟩]
    1 ≤ tokens.length ∧ Returns 2 Again.statement ⟨tokens, 1, 3⟩ ∧
      Returns 1 Again.alternatives ⟨tokens, 1, 3⟩ ∧
      ∃ enough, ∀ steps, enough ≤ steps →
        program steps tokens = some (.error (.unexpected ⟨1, 2⟩ "elif" .expression)) := by
  intro tokens
  have inside : 1 ≤ tokens.length := by decide
  obtain ⟨⟨statements, _⟩, ⟨_, _, branches, _⟩, _, enough, read⟩ :=
    parsing_progresses_and_ends tokens 1 3 inside
  refine ⟨inside, statements, branches, enough, fun steps many => (read steps many).trans ?_⟩
  rfl

end Easel.Walk
