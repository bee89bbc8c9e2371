import Easel.Proofs.Parser.Steps

/-!
What holds of reading because it holds of its building blocks. A relation between readers is
compatible if looking at a token, skipping it, giving a result and refusing a token respect it,
and if one reader behind another carries it on. The tokens that two related readers look at
need not be the same, but they are the same words. All rules of the parser are put together
from these blocks, so a compatible relation between the readers of one nesting level further in
is one between the rules that use them.
-/

namespace Easel

/-- What a reader can miss. An operator is taken only where it has been seen, so that there is none
is not among it. -/
def Expectation.Arises : Expectation → Prop
  | .operator | .binaryOperator => False
  | _ => True

namespace Parser

/-- A relation between readers that the building blocks of the parser respect, on tokens that
are alike in some sense. A token is refused only for what a reader can miss, and a number only for
a spelling that cannot be read. -/
structure Compatible (Alike : Token → Token → Prop) (R : {α : Type} → Parser α → Parser α → Prop) :
    Prop where
  word : ∀ {token token' : Token}, Alike token token' → token.word = token'.word
  pure : ∀ {α : Type} (value : α), R (pure value) (pure value)
  bind : ∀ {α β : Type} {reader reader' : Parser α} {next next' : α → Parser β}, R reader reader' →
    (∀ value, R (next value) (next' value)) → R (reader >>= next) (reader' >>= next')
  unexpectedEnd : ∀ {α : Type} {expected : Expectation}, expected.Arises →
    R (throw (.unexpectedEnd expected) : Parser α) (throw (.unexpectedEnd expected))
  atToken : ∀ {α : Type} {token token' : Token} {expected : Expectation}, expected.Arises →
    Alike token token' →
      R (throw (.atToken token expected) : Parser α) (throw (.atToken token' expected))
  invalidNumber : ∀ {α : Type} {token token' : Token}, Alike token token' →
    token'.kind = .number → Decimal.read? token'.lexeme.toList = none →
      R (throw (.invalidNumber token.position token'.lexeme) : Parser α)
        (throw (.invalidNumber token'.position token'.lexeme))
  current? : ∀ {α : Type} {next next' : Option Token → Parser α}, R (next none) (next' none) →
    (∀ token token', Alike token token' → R (next (some token)) (next' (some token'))) →
      R (current? >>= next) (current? >>= next')
  following? : ∀ {α : Type} {next next' : Option Token → Parser α}, R (next none) (next' none) →
    (∀ token token', Alike token token' → R (next (some token)) (next' (some token'))) →
      R (following? >>= next) (following? >>= next')
  skip : R skip skip

/-- The readers of one level further in are related, and their loops have the same bound. -/
structure Inner.Related (R : {α : Type} → Parser α → Parser α → Prop) (inner inner' : Inner) :
    Prop where
  statement : R inner.statement inner'.statement
  expression : ∀ precedence, R (inner.expression precedence) (inner'.expression precedence)
  rounds : inner.rounds = inner'.rounds

theorem expect_bind {α : Type} (expected : Expectation) (test : Token → Bool)
    (next : Token → Parser α) :
    expect expected test >>= next = (do
      match ← current? with
      | none => throw (.unexpectedEnd expected)
      | some token =>
          if test token then skip; next token
          else throw (SyntaxError.atToken token expected)) := by
  funext tokens
  cases tokens with
  | nil => rfl
  | cons token rest =>
      rw [bind_apply, current?_bind, expect_cons, List.head?_cons]
      by_cases passed : test token = true
      · simp only [if_pos passed]
        rfl
      · simp only [if_neg passed]
        rfl

/-- An operator that has been taken, and its right operand. -/
def operation (inner : Inner) (left : Expression) (token : Token) : Parser Expression := do
  if token.isSymbol "[" then
    let index ← inner.expression .lowest
    expectSymbol "]"
    return .binary .index left index
  else
    match BinaryOperator.ofLexeme? token.lexeme with
    | some operator => return .binary operator left (← inner.expression operator.precedence)
    | none => throw (SyntaxError.atToken token .binaryOperator)

/-- Only a token that is an operator is taken for one. -/
theorem applications_succ (inner : Inner) (precedence : Precedence) (rounds : Nat)
    (left : Expression) :
    applications inner precedence (rounds + 1) left = (do
      match ← current? with
      | none => return left
      | some token =>
          match operatorPrecedence? (some token) with
          | none => return left
          | some next =>
              if precedence.rank < next.rank then
                let extended ← (do skip; operation inner left token)
                applications inner precedence rounds extended
              else return left) := by
  funext tokens
  cases tokens with
  | nil => rfl
  | cons token rest =>
      rw [applications, current?_bind, current?_bind, List.head?_cons]
      dsimp only
      cases operatorPrecedence? (some token) with
      | none => rfl
      | some next =>
          dsimp only
          split <;> rfl

theorem isSymbol_or_ofLexeme? {token : Token} {level : Precedence}
    (found : operatorPrecedence? (some token) = some level) :
    token.isSymbol "[" = true ∨ ¬token.isSymbol "[" = true ∧
      ∃ operator, BinaryOperator.ofLexeme? token.lexeme = some operator := by
  rw [Token.isSymbol_iff]
  rw [operatorPrecedence?] at found
  split at found
  · next isOperator =>
      obtain ⟨operator, read, -⟩ := Option.map_eq_some_iff.mp found
      refine .inr ⟨?_, operator, read⟩
      intro spelled
      cases isOperator.symm.trans (congrArg Word.kind spelled)
  · next isSymbol =>
      split at found
      · next bracket => exact .inl (by rw [Token.word, isSymbol, bracket]; rfl)
      · cases found
  · cases found

theorem related_ite {R : {α : Type} → Parser α → Parser α → Prop} {α : Type}
    {answer answer' : Bool} {reader reader' other other' : Parser α} (same : answer = answer')
    (first : R reader reader') (second : R other other') :
    R (if answer then reader else other) (if answer' then reader' else other') := by
  subst same
  split
  · exact first
  · exact second

namespace Compatible

variable {Alike : Token → Token → Prop} {R : {α : Type} → Parser α → Parser α → Prop}
  (compatible : Compatible Alike R)
include compatible

section Blocks

variable {α β : Type} {token token' : Token}

theorem isExactly (alike : Alike token token') (kind : Token.Kind) (lexeme : String) :
    token.isExactly kind lexeme = token'.isExactly kind lexeme := by
  rw [Bool.eq_iff_iff, Token.isExactly_iff, Token.isExactly_iff, compatible.word alike]

theorem kind (alike : Alike token token') : token.kind = token'.kind :=
  congrArg Word.kind (compatible.word alike)

theorem lexeme (alike : Alike token token') : token.lexeme = token'.lexeme :=
  congrArg Word.lexeme (compatible.word alike)

theorem isIdentifier (alike : Alike token token') : token.isIdentifier = token'.isIdentifier := by
  rw [Token.isIdentifier, Token.isIdentifier, compatible.kind alike]

theorem map {reader reader' : Parser α} (change : α → β) (related : R reader reader') :
    R (change <$> reader) (change <$> reader') := by
  rw [map_eq_pure_bind, map_eq_pure_bind]
  exact compatible.bind related fun value => compatible.pure (change value)

theorem expect {next next' : Token → Parser α} {expected : Expectation} {test : Token → Bool}
    (arises : expected.Arises) (fair : ∀ token token', Alike token token' → test token = test token')
    (continued : ∀ token token', Alike token token' → R (next token) (next' token')) :
    R (expect expected test >>= next) (expect expected test >>= next') := by
  rw [expect_bind, expect_bind]
  apply compatible.current?
  · exact compatible.unexpectedEnd arises
  · intro token token' alike
    apply related_ite (fair token token' alike)
    · exact compatible.bind compatible.skip fun _ => continued token token' alike
    · exact compatible.atToken arises alike

theorem expectSymbol (lexeme : String) : R (expectSymbol lexeme) (expectSymbol lexeme) := by
  change R (Function.const Token () <$> Parser.expect _ _) (Function.const Token () <$> Parser.expect _ _)
  rw [map_eq_pure_bind]
  apply compatible.expect
  · trivial
  · exact fun token token' alike => compatible.isExactly alike .symbol lexeme
  · exact fun _ _ _ => compatible.pure ()

theorem expectIdentifier : R expectIdentifier expectIdentifier := by
  rw [Parser.expectIdentifier, map_eq_pure_bind]
  apply compatible.expect
  · trivial
  · exact fun token token' alike => compatible.isIdentifier alike
  · intro token token' alike
    rw [compatible.lexeme alike]
    exact compatible.pure _

theorem expectSeparator (closing : String) :
    R (expectSeparator closing) (expectSeparator closing) := by
  rw [Parser.expectSeparator]
  apply compatible.expect
  · trivial
  · intro token token' alike
    rw [Token.isSymbol, Token.isSymbol, compatible.isExactly alike, compatible.isExactly alike]
    rfl
  · intro token token' alike
    rw [Token.isSymbol, compatible.isExactly alike]
    exact compatible.pure _

theorem itemsUntil {item item' : Parser α} (related : R item item') (closing : String)
    (rounds : Nat) (found : List α) :
    R (itemsUntil item closing rounds found) (itemsUntil item' closing rounds found) := by
  induction rounds generalizing found with
  | zero => exact compatible.unexpectedEnd trivial
  | succ rounds induction =>
      apply compatible.bind related
      intro next
      apply compatible.bind (compatible.expectSeparator closing)
      intro closes
      exact related_ite rfl (compatible.pure _) (induction _)

theorem listUntil {item item' : Parser α} (related : R item item') (closing : String)
    (rounds : Nat) : R (listUntil item closing rounds) (listUntil item' closing rounds) := by
  have found := compatible.itemsUntil related closing rounds []
  apply compatible.current?
  · exact found
  · intro token token' alike
    apply related_ite (compatible.isExactly alike .symbol closing)
    · exact compatible.bind compatible.skip fun _ => compatible.pure _
    · exact found

theorem signal (statement : Statement) : R (signal statement) (signal statement) := by
  apply compatible.bind compatible.skip
  exact fun _ => compatible.bind (compatible.expectSymbol _) fun _ => compatible.pure _

end Blocks

section Rules

variable {inner inner' : Inner} (related : inner.Related R inner')

include related

theorem statementsUntilBrace (rounds : Nat) (found : List Statement) :
    R (statementsUntilBrace inner rounds found) (statementsUntilBrace inner' rounds found) := by
  induction rounds generalizing found with
  | zero => exact compatible.unexpectedEnd trivial
  | succ rounds induction =>
      rw [Parser.statementsUntilBrace, Parser.statementsUntilBrace]
      apply compatible.current?
      · exact compatible.unexpectedEnd trivial
      · intro token token' alike
        apply related_ite (compatible.isExactly alike _ _)
        · exact compatible.bind compatible.skip fun _ => compatible.pure _
        · exact compatible.bind related.statement fun statement => induction _

theorem body : R (body inner) (body inner') := by
  rw [Parser.body, Parser.body, related.rounds]
  apply compatible.bind (compatible.expectSymbol _)
  exact fun _ => compatible.statementsUntilBrace related _ _

theorem condition : R (condition inner) (condition inner') := by
  apply compatible.bind (compatible.expectSymbol _)
  intro _
  apply compatible.bind (related.expression _)
  intro expression
  exact compatible.bind (compatible.expectSymbol _) fun _ => compatible.pure expression

theorem alternatives (rounds : Nat) : R (alternatives inner rounds) (alternatives inner' rounds) := by
  induction rounds with
  | zero => exact compatible.pure _
  | succ rounds induction =>
      apply compatible.current?
      · exact compatible.pure _
      · intro token token' alike
        apply related_ite (compatible.isExactly alike _ _)
        · apply compatible.bind compatible.skip
          intro _
          apply compatible.bind (compatible.condition related)
          intro condition
          apply compatible.bind (compatible.body related)
          intro body
          exact compatible.bind induction fun rest => compatible.pure _
        · apply related_ite (compatible.isExactly alike _ _)
          · apply compatible.bind compatible.skip
            exact fun _ => compatible.bind (compatible.body related) fun body => compatible.pure _
          · exact compatible.pure _

theorem conditional : R (conditional inner) (conditional inner') := by
  rw [Parser.conditional, Parser.conditional, related.rounds]
  apply compatible.bind compatible.skip
  intro _
  apply compatible.bind (compatible.condition related)
  intro condition
  apply compatible.bind (compatible.body related)
  intro body
  exact compatible.bind (compatible.alternatives related _) fun _ => compatible.pure _

theorem whileLoop : R (whileLoop inner) (whileLoop inner') := by
  apply compatible.bind compatible.skip
  intro _
  apply compatible.bind (compatible.condition related)
  intro condition
  exact compatible.bind (compatible.body related) fun body => compatible.pure _

theorem repeatLoop : R (repeatLoop inner) (repeatLoop inner') := by
  apply compatible.bind compatible.skip
  intro _
  apply compatible.bind (compatible.condition related)
  intro count
  exact compatible.bind (compatible.body related) fun body => compatible.pure _

theorem foreachLoop : R (foreachLoop inner) (foreachLoop inner') := by
  apply compatible.bind compatible.expectIdentifier
  intro item
  apply compatible.bind (compatible.expectSymbol _)
  intro _
  apply compatible.bind (related.expression _)
  intro items
  apply compatible.bind (compatible.expectSymbol _)
  intro _
  exact compatible.bind (compatible.body related) fun body => compatible.pure _

theorem countingLoop : R (countingLoop inner) (countingLoop inner') := by
  apply compatible.bind (related.expression _)
  intro start
  apply compatible.bind (compatible.expectSymbol _)
  intro _
  apply compatible.bind (related.expression _)
  intro condition
  apply compatible.bind (compatible.expectSymbol _)
  intro _
  apply compatible.bind (related.expression _)
  intro step
  apply compatible.bind (compatible.expectSymbol _)
  intro _
  exact compatible.bind (compatible.body related) fun body => compatible.pure _

theorem forLoop : R (forLoop inner) (forLoop inner') := by
  apply compatible.bind compatible.skip
  intro _
  apply compatible.bind (compatible.expectSymbol _)
  intro _
  have counting := compatible.countingLoop related
  apply compatible.current?
  · apply compatible.following?
    · exact counting
    · exact fun _ _ _ => counting
  · intro token token' alike
    have identified := compatible.isIdentifier alike
    apply compatible.following?
    · simp only [Option.any_none, Bool.and_false]
      exact counting
    · intro next next' alikeNext
      have coloned := compatible.isExactly alikeNext .symbol ":"
      simp only [Option.any_some, Token.isSymbol, identified, coloned]
      exact related_ite rfl (compatible.foreachLoop related) counting

theorem parameters : R (parameters inner) (parameters inner') := by
  rw [Parser.parameters, Parser.parameters, related.rounds]
  apply compatible.bind (compatible.expectSymbol _)
  exact fun _ => compatible.listUntil compatible.expectIdentifier _ _

theorem definition : R (definition inner) (definition inner') := by
  have rest : ∀ name : Option String,
      R (do return Definition.mk name (← Parser.parameters inner) (← Parser.body inner))
        (do return Definition.mk name (← Parser.parameters inner') (← Parser.body inner')) := by
    intro name
    apply compatible.bind (compatible.parameters related)
    intro parameters
    exact compatible.bind (compatible.body related) fun body => compatible.pure _
  have unnamed := rest none
  have named := compatible.bind (compatible.map some compatible.expectIdentifier) rest
  apply compatible.bind compatible.skip
  intro _
  apply compatible.current?
  · exact unnamed
  · intro token token' alike
    simp only [Option.any_some, compatible.isIdentifier alike]
    split
    · exact named
    · exact unnamed

theorem expressionStatement : R (expressionStatement inner) (expressionStatement inner') := by
  apply compatible.bind (related.expression _)
  intro expression
  exact compatible.bind (compatible.expectSymbol _) fun _ => compatible.pure _

theorem statementBegunBy (kind : Token.Kind) (lexeme : String) :
    R (statementBegunBy inner kind lexeme) (statementBegunBy inner' kind lexeme) := by
  unfold Parser.statementBegunBy
  split
  · exact compatible.bind (compatible.body related) fun body => compatible.pure _
  · exact compatible.bind compatible.skip fun _ => compatible.pure _
  · exact compatible.conditional related
  · exact compatible.whileLoop related
  · exact compatible.forLoop related
  · exact compatible.repeatLoop related
  · have literal := compatible.expressionStatement related
    apply compatible.following?
    · exact literal
    · intro token token' alike
      apply related_ite (compatible.isIdentifier alike)
      · exact compatible.bind (compatible.definition related) fun _ => compatible.pure _
      · exact literal
  · apply compatible.bind compatible.skip
    intro _
    apply compatible.bind (related.expression _)
    intro value
    exact compatible.bind (compatible.expectSymbol _) fun _ => compatible.pure _
  · exact compatible.signal _
  · exact compatible.signal _
  · exact compatible.expressionStatement related

theorem statement : R (statement inner) (statement inner') := by
  apply compatible.current?
  · exact compatible.unexpectedEnd trivial
  · intro token token' alike
    simp only [compatible.kind alike, compatible.lexeme alike]
    exact compatible.statementBegunBy related _ _

theorem expressionList (closing : String) :
    R (expressionList inner closing) (expressionList inner' closing) := by
  rw [Parser.expressionList, Parser.expressionList, related.rounds]
  exact compatible.listUntil (related.expression _) closing _

theorem afterIdentifier (name : String) (precedence : Precedence) :
    R (afterIdentifier inner name precedence) (afterIdentifier inner' name precedence) := by
  have alone : R (Pure.pure (.identifier name) : Parser Expression) (Pure.pure (.identifier name)) :=
    compatible.pure _
  apply compatible.current?
  · exact alone
  · intro token token' alike
    apply related_ite (compatible.isExactly alike _ _)
    · apply compatible.bind compatible.skip
      exact fun _ => compatible.bind (compatible.expressionList related _) fun _ => compatible.pure _
    · simp only [compatible.kind alike, compatible.lexeme alike]
      split
      · split
        · split
          · apply compatible.bind compatible.skip
            exact fun _ => compatible.bind (related.expression _) fun _ => compatible.pure _
          · exact alone
        · exact compatible.bind compatible.skip fun _ => compatible.pure _
        · exact alone
      · exact alone

theorem operand (precedence : Precedence) :
    R (operand inner precedence) (operand inner' precedence) := by
  apply compatible.current?
  · exact compatible.unexpectedEnd trivial
  · intro token token' alike
    simp only [compatible.kind alike, compatible.lexeme alike]
    split
    · apply compatible.bind compatible.skip
      intro _
      split
      · exact compatible.pure _
      · exact compatible.invalidNumber alike ‹_› ‹_›
    · exact compatible.bind compatible.skip fun _ => compatible.pure _
    · exact compatible.bind compatible.skip fun _ => compatible.afterIdentifier related _ _
    · split
      · apply compatible.bind compatible.skip
        exact fun _ => compatible.bind (related.expression _) fun _ => compatible.pure _
      · exact compatible.atToken trivial alike
    · apply compatible.bind compatible.skip
      intro _
      apply compatible.bind (related.expression _)
      intro expression
      exact compatible.bind (compatible.expectSymbol _) fun _ => compatible.pure _
    · apply compatible.bind compatible.skip
      exact fun _ => compatible.bind (compatible.expressionList related _) fun _ => compatible.pure _
    · exact compatible.bind (compatible.definition related) fun _ => compatible.pure _
    · exact compatible.atToken trivial alike

theorem operation {token token' : Token} (alike : Alike token token') {level : Precedence}
    (found : operatorPrecedence? (some token') = some level) (left : Expression) :
    R (operation inner left token) (operation inner' left token') := by
  have same : token.isSymbol "[" = token'.isSymbol "[" := compatible.isExactly alike _ _
  rw [Parser.operation, Parser.operation, same, compatible.lexeme alike]
  rcases isSymbol_or_ofLexeme? found with bracket | ⟨notBracket, operator, read⟩
  · rw [if_pos bracket, if_pos bracket]
    apply compatible.bind (related.expression _)
    intro index
    exact compatible.bind (compatible.expectSymbol _) fun _ => compatible.pure _
  · rw [if_neg notBracket, if_neg notBracket, read]
    exact compatible.bind (related.expression _) fun _ => compatible.pure _

theorem applications (precedence : Precedence) (rounds : Nat) (left : Expression) :
    R (applications inner precedence rounds left) (applications inner' precedence rounds left) := by
  induction rounds generalizing left with
  | zero => exact compatible.pure left
  | succ rounds induction =>
      rw [applications_succ, applications_succ]
      apply compatible.current?
      · exact compatible.pure left
      · intro token token' alike
        have same : operatorPrecedence? (some token) = operatorPrecedence? (some token') := by
          simp only [operatorPrecedence?, compatible.kind alike, compatible.lexeme alike]
        dsimp only
        rw [same]
        cases found : operatorPrecedence? (some token') with
        | none => exact compatible.pure left
        | some level =>
            dsimp only
            split
            · apply compatible.bind
              · exact compatible.bind compatible.skip fun _ =>
                  compatible.operation related alike found left
              · exact induction
            · exact compatible.pure left

theorem expression (precedence : Precedence) :
    R (expression inner precedence) (expression inner' precedence) := by
  rw [Parser.expression, Parser.expression, related.rounds]
  apply compatible.bind (compatible.operand related precedence)
  exact fun left => compatible.applications related precedence _ left

end Rules

theorem statementsUntilEnd {reader reader' : Parser Statement} (related : R reader reader')
    (rounds : Nat) (found : List Statement) :
    R (statementsUntilEnd reader rounds found) (statementsUntilEnd reader' rounds found) := by
  induction rounds generalizing found with
  | zero => exact compatible.pure _
  | succ rounds induction =>
      apply compatible.current?
      · exact compatible.pure _
      · intro _ _ _
        exact compatible.bind related fun _ => induction _

/-- Where nothing is left for the one reader the other may have some levels yet. -/
theorem within (rounds extra : Nat) (statement : R tooDeep (statementWithin rounds extra))
    (expression : ∀ precedence, R tooDeep (expressionWithin rounds extra precedence))
    (room : Nat) :
    R (statementWithin rounds room) (statementWithin rounds (room + extra)) ∧
      ∀ precedence, R (expressionWithin rounds room precedence)
        (expressionWithin rounds (room + extra) precedence) := by
  induction room with
  | zero =>
      rw [Nat.zero_add]
      exact ⟨statement, expression⟩
  | succ room induction =>
      have related : Inner.Related R
          ⟨statementWithin rounds room, expressionWithin rounds room, rounds⟩
          ⟨statementWithin rounds (room + extra), expressionWithin rounds (room + extra), rounds⟩ :=
        ⟨induction.1, induction.2, rfl⟩
      rw [Nat.add_right_comm]
      exact ⟨compatible.statement related, compatible.expression related⟩

end Compatible

end Parser

end Easel
