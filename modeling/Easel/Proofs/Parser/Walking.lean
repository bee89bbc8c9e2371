import Easel.Syntax.Parser

/-!
Reading with a place. The rules of the parser are followed here by one who has all tokens in front of
him and a place among them. The place is moved on by one whether or not there is a token at it. The
phrases that are open are counted on the way into each of them and on the way out, whatever has become
of it, and a loop goes round until something ends it. Nothing in the rules bounds how often they are
followed again. A walk that is given a number of steps has no outcome if they run out, and a walk that
would go on for ever has none with any number of them.
-/

namespace Easel

/-- A place among the tokens, and how many phrases are open there. -/
structure Cursor where
  tokens : List Token
  position : Nat
  depth : Nat

namespace Cursor

def current? (cursor : Cursor) : Option Token :=
  cursor.tokens[cursor.position]?

def following? (cursor : Cursor) : Option Token :=
  cursor.tokens[cursor.position + 1]?

end Cursor

/-- A walk ends at a place, with a result or a complaint, if it has steps enough to end. -/
abbrev Walk := ExceptT SyntaxError (StateT Cursor Option)

namespace Walk

variable {α : Type}

/-- There are no steps left. -/
def unfinished : Walk α := fun _ => none

def current? : Walk (Option Token) := do
  return (← get).current?

def following? : Walk (Option Token) := do
  return (← get).following?

def advance : Walk Unit :=
  modify fun cursor => { cursor with position := cursor.position + 1 }

def take (expected : Expectation) : Walk Token := do
  match ← current? with
  | none => throw (.unexpectedEnd expected)
  | some token => advance; return token

/-- Only a token that is there can fail the test. -/
def expect (expected : Expectation) (test : Token → Bool) : Walk Token := do
  match ← current? with
  | none => take expected
  | some token =>
      if test token then take expected else throw (SyntaxError.atToken token expected)

def expectSymbol (lexeme : String) : Walk Unit :=
  discard (expect (.symbol lexeme) (·.isSymbol lexeme))

def expectIdentifier : Walk String :=
  Token.lexeme <$> expect .identifier Token.isIdentifier

def expectSeparator (closing : String) : Walk Bool := do
  let token ← expect (.separatorOr closing) fun token =>
    token.isSymbol "," || token.isSymbol closing
  return token.isSymbol closing

def tooDeep (cursor : Cursor) : SyntaxError :=
  .tooDeep ((cursor.current?.map Token.position).getD ⟨0, 0⟩) Parser.nestingLimit

/-- Phrases are counted, and what lies too deep is not looked at. -/
def nested (walk : Walk α) : Walk α := fun cursor =>
  if Parser.nestingLimit ≤ cursor.depth then some (.error (tooDeep cursor), cursor)
  else do
    let (outcome, after) ← walk.run.run { cursor with depth := cursor.depth + 1 }
    return (outcome, { after with depth := after.depth - 1 })

/-- What the rules begin again: the phrases inside and the rounds of the loops. -/
structure Again where
  statement : Walk Statement
  expression : Precedence → Walk Expression
  parametersUntil : List String → Walk (List String)
  expressionsUntil : String → List Expression → Walk (List Expression)
  statementsUntilBrace : List Statement → Walk (List Statement)
  statementsUntilEnd : List Statement → Walk (List Statement)
  alternatives : Walk Alternatives
  applications : Precedence → Expression → Walk Expression

section Rules

variable (again : Again)

/-- A round of a loop over items. -/
def itemsUntil (item : Walk α) (further : List α → Walk (List α)) (closing : String)
    (found : List α) : Walk (List α) := do
  let next ← item
  if ← expectSeparator closing then return (next :: found).reverse
  else further (next :: found)

def listUntil (items : List α → Walk (List α)) (closing : String) : Walk (List α) := do
  if (← current?).any (·.isSymbol closing) then
    advance
    return []
  else items []

def parameters : Walk (List String) := do
  expectSymbol "("
  listUntil again.parametersUntil ")"

def expressionList (closing : String) : Walk (List Expression) :=
  listUntil (again.expressionsUntil closing) closing

def statementsUntilBrace (found : List Statement) : Walk (List Statement) := do
  match ← current? with
  | none => throw (.unexpectedEnd (.symbol "\x7d"))
  | some token =>
      if token.isSymbol "\x7d" then
        expectSymbol "\x7d"
        return found.reverse
      else
        let next ← again.statement
        again.statementsUntilBrace (next :: found)

def body : Walk (List Statement) := do
  expectSymbol "\x7b"
  again.statementsUntilBrace []

def condition : Walk Expression := do
  expectSymbol "("
  let expression ← again.expression .lowest
  expectSymbol ")"
  return expression

def alternatives : Walk Alternatives := do
  if (← current?).any (·.isKeyword "elif") then
    advance
    let condition ← condition again
    let body ← body again
    let rest ← again.alternatives
    return .branch condition body rest
  else if (← current?).any (·.isKeyword "else") then
    advance
    return .otherwise (← body again)
  else return .none

def conditional : Walk Statement := do
  advance
  let condition ← condition again
  let body ← body again
  let alternatives ← again.alternatives
  return .conditional condition body alternatives

def whileLoop : Walk Statement := do
  advance
  let condition ← condition again
  let body ← body again
  return .whileLoop condition body

def repeatLoop : Walk Statement := do
  advance
  let count ← condition again
  let body ← body again
  return .repeatLoop count body

def foreachLoop : Walk Statement := do
  let item ← expectIdentifier
  expectSymbol ":"
  let items ← again.expression .lowest
  expectSymbol ")"
  let body ← body again
  return .foreachLoop item items body

def countingLoop : Walk Statement := do
  let start ← again.expression .lowest
  expectSymbol ","
  let condition ← again.expression .lowest
  expectSymbol ","
  let step ← again.expression .lowest
  expectSymbol ")"
  let body ← body again
  return .forLoop start condition step body

def forLoop : Walk Statement := do
  advance
  expectSymbol "("
  let overItems := (← current?).any Token.isIdentifier && (← following?).any (·.isSymbol ":")
  if overItems then foreachLoop again else countingLoop again

def definition : Walk Definition := do
  advance
  let name ←
    if (← current?).any Token.isIdentifier then some <$> expectIdentifier else pure none
  let parameters ← parameters again
  let body ← body again
  return .mk name parameters body

def expressionStatement : Walk Statement := do
  let expression ← again.expression .lowest
  expectSymbol ";"
  return .expression expression

def signal (statement : Statement) : Walk Statement := do
  advance
  expectSymbol ";"
  return statement

def statementBegunBy (kind : Token.Kind) (lexeme : String) : Walk Statement := do
  match kind, lexeme with
  | .symbol, "\x7b" => return .block (← body again)
  | .symbol, ";" => advance; return .empty
  | .keyword, "if" => conditional again
  | .keyword, "while" => whileLoop again
  | .keyword, "for" => forLoop again
  | .keyword, "repeat" => repeatLoop again
  | .keyword, "def" =>
      if (← following?).any Token.isIdentifier then return .definition (← definition again)
      else expressionStatement again
  | .keyword, "ret" =>
      advance
      let value ← again.expression .lowest
      expectSymbol ";"
      return .ret value
  | .keyword, "break" => signal .breakLoop
  | .keyword, "continue" => signal .continueLoop
  | _, _ => expressionStatement again

def statement : Walk Statement := do
  match ← current? with
  | none => throw (.unexpectedEnd .statement)
  | some token => statementBegunBy again token.kind token.lexeme

def afterIdentifier (name : String) (precedence : Precedence) : Walk Expression := do
  match ← current? with
  | none => return .identifier name
  | some token =>
      if token.isSymbol "(" then
        advance
        return .call name (← expressionList again ")")
      else if token.kind = .operator then
        match AssignOperator.ofLexeme? token.lexeme, UnaryOperator.afterOperand? token.lexeme with
        | some operator, _ =>
            if precedence = .lowest then
              advance
              return .assign operator name (← again.expression .lowest)
            else return .identifier name
        | none, some operator =>
            advance
            return .unary operator (.identifier name)
        | none, none => return .identifier name
      else return .identifier name

def operandBegunBy (token : Token) (precedence : Precedence) (kind : Token.Kind)
    (lexeme : String) : Walk Expression := do
  match kind, lexeme with
  | .number, lexeme =>
      advance
      match Decimal.read? lexeme.toList with
      | some decimal => return .literal (.number (decimal.toNumber false))
      | none => throw (.invalidNumber token.position lexeme)
  | .text, lexeme => advance; return .literal (.text lexeme)
  | .identifier, lexeme => advance; afterIdentifier again lexeme precedence
  | .operator, lexeme =>
      match UnaryOperator.beforeOperand? lexeme with
      | some operator =>
          advance
          return .unary operator (← again.expression .unary)
      | none => throw (SyntaxError.atToken token .expression)
  | .symbol, "(" =>
      advance
      let expression ← again.expression .lowest
      expectSymbol ")"
      return expression
  | .symbol, "[" => advance; return .list (← expressionList again "]")
  | .keyword, "def" => return .function (← definition again)
  | _, _ => throw (SyntaxError.atToken token .expression)

def operand (precedence : Precedence) : Walk Expression := do
  match ← current? with
  | none => throw (.unexpectedEnd .expression)
  | some token => operandBegunBy again token precedence token.kind token.lexeme

def application (left : Expression) : Walk Expression := do
  let token ← take .operator
  if token.isSymbol "[" then
    let index ← again.expression .lowest
    expectSymbol "]"
    return .binary .index left index
  else
    match BinaryOperator.ofLexeme? token.lexeme with
    | some operator => return .binary operator left (← again.expression operator.precedence)
    | none => throw (SyntaxError.atToken token .binaryOperator)

def applications (precedence : Precedence) (left : Expression) : Walk Expression := do
  match Parser.operatorPrecedence? (← current?) with
  | none => return left
  | some next =>
      if precedence.rank < next.rank then
        let extended ← application again left
        again.applications precedence extended
      else return left

def expression (precedence : Precedence) : Walk Expression := do
  let left ← operand again precedence
  again.applications precedence left

def statementsUntilEnd (found : List Statement) : Walk (List Statement) := do
  match ← current? with
  | none => return found.reverse
  | some _ =>
      let next ← again.statement
      again.statementsUntilEnd (next :: found)

end Rules

namespace Again

def never : Again where
  statement := unfinished
  expression _ := unfinished
  parametersUntil _ := unfinished
  expressionsUntil _ _ := unfinished
  statementsUntilBrace _ := unfinished
  statementsUntilEnd _ := unfinished
  alternatives := unfinished
  applications _ _ := unfinished

/-- By the rules, once more than `again` does. -/
def further (again : Again) : Again where
  statement := nested (Walk.statement again)
  expression precedence := nested (Walk.expression again precedence)
  parametersUntil := itemsUntil expectIdentifier again.parametersUntil ")"
  expressionsUntil closing :=
    itemsUntil (again.expression .lowest) (again.expressionsUntil closing) closing
  statementsUntilBrace := Walk.statementsUntilBrace again
  statementsUntilEnd := Walk.statementsUntilEnd again
  alternatives := Walk.alternatives again
  applications := Walk.applications again

/-- What can be done in so many steps. -/
def upTo : Nat → Again
  | 0 => never
  | steps + 1 => (upTo steps).further

end Again

/-- The program that a list of tokens spells, if so many steps are enough to read it. -/
def program (steps : Nat) (tokens : List Token) : Option (Except SyntaxError Program) :=
  Prod.fst <$> ((Again.upTo steps).statementsUntilEnd []).run.run ⟨tokens, 0, 0⟩

end Walk

end Easel
