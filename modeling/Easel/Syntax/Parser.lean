import Easel.Syntax
import Easel.Syntax.Error
import Easel.Token.Lexer
import Easel.Number.Decimal

/-!
Reading tokens as a program. Statements and expressions contain one another only
through `Inner`, the pair of readers for one nesting level further in, and levels
are counted down from `nestingLimit`; at level zero reading stops with an error.
Every other loop takes at least one token per round, so the number of tokens of
the text bounds its rounds.

Binary operators are read by precedence: an operand extends over operators that
bind more tightly than the one before it, and operators of one level group to the
left. An assignment is read only where an expression may start at the lowest
precedence, so `a + b = 3` is refused and not taken for `a + (b = 3)`.
-/

namespace Easel

abbrev Parser := StateT (List Token) (Except SyntaxError)

namespace Parser

def nestingLimit : Nat := 512

def current? : Parser (Option Token) := do
  return (← get).head?

def following? : Parser (Option Token) := do
  return (← get)[1]?

def skip : Parser Unit :=
  modify (List.drop 1)

def take (expected : Expectation) : Parser Token := do
  match ← get with
  | [] => throw (.unexpectedEnd expected)
  | token :: rest => set rest; return token

def expect (expected : Expectation) (test : Token → Bool) : Parser Token := do
  match ← get with
  | [] => throw (.unexpectedEnd expected)
  | token :: rest =>
      if test token then set rest; return token
      else throw (SyntaxError.atToken token expected)

def expectSymbol (lexeme : String) : Parser Unit :=
  discard (expect (.symbol lexeme) (·.isSymbol lexeme))

def expectIdentifier : Parser String :=
  Token.lexeme <$> expect .identifier Token.isIdentifier

/-- A comma, or the symbol that closes the list. Tells whether it closes. -/
def expectSeparator (closing : String) : Parser Bool := do
  let token ← expect (.separatorOr closing) fun token =>
    token.isSymbol "," || token.isSymbol closing
  return token.isSymbol closing

/-- Refuses to go further in. At the end of the text there is no token to point
at, and the place is given as row and column zero. -/
def tooDeep {α : Type} : Parser α := do
  let position := ((← get).head?.map Token.position).getD ⟨0, 0⟩
  throw (.tooDeep position nestingLimit)

/-- The readers of one nesting level further in, and the number of rounds that no
loop over the tokens exceeds. -/
structure Inner where
  statement : Parser Statement
  expression : Precedence → Parser Expression
  rounds : Nat

def statementsUntilBrace (inner : Inner) : Nat → List Statement → Parser (List Statement)
  | 0, _ => throw (.unexpectedEnd (.symbol "\x7d"))
  | rounds + 1, found => do
      match ← current? with
      | none => throw (.unexpectedEnd (.symbol "\x7d"))
      | some token =>
          if token.isSymbol "\x7d" then
            skip
            return found.reverse
          else
            let statement ← inner.statement
            statementsUntilBrace inner rounds (statement :: found)

def body (inner : Inner) : Parser (List Statement) := do
  expectSymbol "\x7b"
  statementsUntilBrace inner inner.rounds []

def condition (inner : Inner) : Parser Expression := do
  expectSymbol "("
  let expression ← inner.expression .lowest
  expectSymbol ")"
  return expression

def alternatives (inner : Inner) : Nat → Parser Alternatives
  | 0 => return .none
  | rounds + 1 => do
      match ← current? with
      | none => return .none
      | some token =>
          if token.isKeyword "elif" then
            skip
            let condition ← condition inner
            let body ← body inner
            let rest ← alternatives inner rounds
            return .branch condition body rest
          else if token.isKeyword "else" then
            skip
            return .otherwise (← body inner)
          else return .none

def conditional (inner : Inner) : Parser Statement := do
  skip
  let condition ← condition inner
  let body ← body inner
  let alternatives ← alternatives inner inner.rounds
  return .conditional condition body alternatives

def whileLoop (inner : Inner) : Parser Statement := do
  skip
  let condition ← condition inner
  let body ← body inner
  return .whileLoop condition body

def repeatLoop (inner : Inner) : Parser Statement := do
  skip
  let count ← condition inner
  let body ← body inner
  return .repeatLoop count body

def foreachLoop (inner : Inner) : Parser Statement := do
  let item ← expectIdentifier
  expectSymbol ":"
  let items ← inner.expression .lowest
  expectSymbol ")"
  let body ← body inner
  return .foreachLoop item items body

def countingLoop (inner : Inner) : Parser Statement := do
  let start ← inner.expression .lowest
  expectSymbol ","
  let condition ← inner.expression .lowest
  expectSymbol ","
  let step ← inner.expression .lowest
  expectSymbol ")"
  let body ← body inner
  return .forLoop start condition step body

/-- Both loops begin with `for (`. An identifier with a colon behind it makes the
loop run over items. -/
def forLoop (inner : Inner) : Parser Statement := do
  skip
  expectSymbol "("
  let overItems := (← current?).any Token.isIdentifier && (← following?).any (·.isSymbol ":")
  if overItems then foreachLoop inner else countingLoop inner

def itemsUntil {α : Type} (item : Parser α) (closing : String) : Nat → List α → Parser (List α)
  | 0, _ => throw (.unexpectedEnd (.separatorOr closing))
  | rounds + 1, found => do
      let next ← item
      if ← expectSeparator closing then return (next :: found).reverse
      else itemsUntil item closing rounds (next :: found)

def listUntil {α : Type} (item : Parser α) (closing : String) (rounds : Nat) :
    Parser (List α) := do
  if (← current?).any (·.isSymbol closing) then
    skip
    return []
  else itemsUntil item closing rounds []

def parameters (inner : Inner) : Parser (List String) := do
  expectSymbol "("
  listUntil expectIdentifier ")" inner.rounds

def definition (inner : Inner) : Parser Definition := do
  skip
  let name ←
    if (← current?).any Token.isIdentifier then some <$> expectIdentifier else pure none
  let parameters ← parameters inner
  let body ← body inner
  return .mk name parameters body

def expressionStatement (inner : Inner) : Parser Statement := do
  let expression ← inner.expression .lowest
  expectSymbol ";"
  return .expression expression

def signal (statement : Statement) : Parser Statement := do
  skip
  expectSymbol ";"
  return statement

/-- The statement that a token of this class and spelling begins, which has not been
taken. The word `def` begins a definition only if a name follows it; else it begins
a function literal. -/
def statementBegunBy (inner : Inner) (kind : Token.Kind) (lexeme : String) : Parser Statement := do
  match kind, lexeme with
  | .symbol, "\x7b" => return .block (← body inner)
  | .symbol, ";" => skip; return .empty
  | .keyword, "if" => conditional inner
  | .keyword, "while" => whileLoop inner
  | .keyword, "for" => forLoop inner
  | .keyword, "repeat" => repeatLoop inner
  | .keyword, "def" =>
      if (← following?).any Token.isIdentifier then
        return .definition (← definition inner)
      else expressionStatement inner
  | .keyword, "ret" =>
      skip
      let value ← inner.expression .lowest
      expectSymbol ";"
      return .ret value
  | .keyword, "break" => signal .breakLoop
  | .keyword, "continue" => signal .continueLoop
  | _, _ => expressionStatement inner

def statement (inner : Inner) : Parser Statement := do
  match ← current? with
  | none => throw (.unexpectedEnd .statement)
  | some token => statementBegunBy inner token.kind token.lexeme

def expressionList (inner : Inner) (closing : String) : Parser (List Expression) :=
  listUntil (inner.expression .lowest) closing inner.rounds

/-- What an identifier that has just been taken begins: a call, an assignment, an
increment, or nothing more than itself. -/
def afterIdentifier (inner : Inner) (name : String) (precedence : Precedence) :
    Parser Expression := do
  match ← current? with
  | none => return .identifier name
  | some token =>
      if token.isSymbol "(" then
        skip
        return .call name (← expressionList inner ")")
      else if token.kind = .operator then
        match AssignOperator.ofLexeme? token.lexeme, UnaryOperator.afterOperand? token.lexeme with
        | some operator, _ =>
            if precedence = .lowest then
              skip
              return .assign operator name (← inner.expression .lowest)
            else return .identifier name
        | none, some operator =>
            skip
            return .unary operator (.identifier name)
        | none, none => return .identifier name
      else return .identifier name

def operand (inner : Inner) (precedence : Precedence) : Parser Expression := do
  match ← current? with
  | none => throw (.unexpectedEnd .expression)
  | some token =>
      match token.kind, token.lexeme with
      | .number, lexeme =>
          skip
          match Decimal.read? lexeme.toList with
          | some decimal => return .literal (.number (decimal.toNumber false))
          | none => throw (.invalidNumber token.position lexeme)
      | .text, lexeme => skip; return .literal (.text lexeme)
      | .identifier, lexeme => skip; afterIdentifier inner lexeme precedence
      | .operator, lexeme =>
          match UnaryOperator.beforeOperand? lexeme with
          | some operator =>
              skip
              return .unary operator (← inner.expression .unary)
          | none => throw (SyntaxError.atToken token .expression)
      | .symbol, "(" =>
          skip
          let expression ← inner.expression .lowest
          expectSymbol ")"
          return expression
      | .symbol, "[" => skip; return .list (← expressionList inner "]")
      | .keyword, "def" => return .function (← definition inner)
      | _, _ => throw (SyntaxError.atToken token .expression)

def operatorPrecedence? : Option Token → Option Precedence
  | none => none
  | some token =>
      match token.kind with
      | .operator => (BinaryOperator.ofLexeme? token.lexeme).map BinaryOperator.precedence
      | .symbol => if token.lexeme = "[" then some .index else none
      | _ => none

def application (inner : Inner) (left : Expression) : Parser Expression := do
  let token ← take .operator
  if token.isSymbol "[" then
    let index ← inner.expression .lowest
    expectSymbol "]"
    return .binary .index left index
  else
    match BinaryOperator.ofLexeme? token.lexeme with
    | some operator => return .binary operator left (← inner.expression operator.precedence)
    | none => throw (SyntaxError.atToken token .binaryOperator)

/-- Extends an operand over the operators that bind more tightly than
`precedence`. -/
def applications (inner : Inner) (precedence : Precedence) :
    Nat → Expression → Parser Expression
  | 0, left => return left
  | rounds + 1, left => do
      match operatorPrecedence? (← current?) with
      | none => return left
      | some next =>
          if precedence.rank < next.rank then
            let extended ← application inner left
            applications inner precedence rounds extended
          else return left

def expression (inner : Inner) (precedence : Precedence) : Parser Expression := do
  let left ← operand inner precedence
  applications inner precedence inner.rounds left

mutual

def statementWithin (rounds : Nat) : Nat → Parser Statement
  | 0 => tooDeep
  | room + 1 =>
      statement ⟨statementWithin rounds room, expressionWithin rounds room, rounds⟩

def expressionWithin (rounds : Nat) : Nat → Precedence → Parser Expression
  | 0, _ => tooDeep
  | room + 1, precedence =>
      expression ⟨statementWithin rounds room, expressionWithin rounds room, rounds⟩ precedence

end

def statementsUntilEnd (statement : Parser Statement) :
    Nat → List Statement → Parser (List Statement)
  | 0, found => return found.reverse
  | rounds + 1, found => do
      match ← current? with
      | none => return found.reverse
      | some _ =>
          let next ← statement
          statementsUntilEnd statement rounds (next :: found)

end Parser

/-- The program that a list of tokens spells, nested at most `room` levels deep. -/
def Program.ofTokensWithin (room : Nat) (tokens : List Token) : Except SyntaxError Program := do
  let rounds := tokens.length
  let statement := Parser.statementWithin rounds room
  let (program, _) ← (Parser.statementsUntilEnd statement rounds []).run tokens
  return program

def Program.ofTokens (tokens : List Token) : Except SyntaxError Program :=
  Program.ofTokensWithin Parser.nestingLimit tokens

def Program.parse (source : String) : Except SyntaxError Program :=
  Program.ofTokens (Token.tokenize source)

end Easel
