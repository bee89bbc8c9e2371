import Easel.Syntax
import Easel.Number.Shortest

/-!
Trees as text. Every operator expression is written in parentheses, so that the
text shows how it was grouped; an assignment is not. The text is one line,
however many lines the program had.
-/

namespace Easel

def Literal.render : Literal → String
  | .number value => value.render
  | .text quoted => quoted

def braced (statements : List String) : String :=
  "\x7b " ++ String.join (statements.map (· ++ " ")) ++ "\x7d"

mutual

def Expression.render : Expression → String
  | .identifier name => name
  | .literal value => value.render
  | .unary operator operand =>
      if operator.isAfterOperand then "(" ++ operand.render ++ operator.spelling ++ ")"
      else "(" ++ operator.spelling ++ operand.render ++ ")"
  | .binary .index left right => "(" ++ left.render ++ "[" ++ right.render ++ "])"
  | .binary .member left right => "(" ++ left.render ++ "." ++ right.render ++ ")"
  | .binary operator left right =>
      "(" ++ left.render ++ " " ++ operator.spelling ++ " " ++ right.render ++ ")"
  | .assign operator name value => name ++ " " ++ operator.spelling ++ " " ++ value.render
  | .call name arguments =>
      name ++ "(" ++ ", ".intercalate (Expression.renderEach arguments) ++ ")"
  | .list items => "[" ++ ", ".intercalate (Expression.renderEach items) ++ "]"
  | .function definition => definition.render

def Expression.renderEach : List Expression → List String
  | [] => []
  | expression :: rest => expression.render :: Expression.renderEach rest

def Statement.render : Statement → String
  | .block body => braced (Statement.renderEach body)
  | .conditional condition body alternatives =>
      "if (" ++ condition.render ++ ") " ++ braced (Statement.renderEach body) ++ alternatives.render
  | .whileLoop condition body =>
      "while (" ++ condition.render ++ ") " ++ braced (Statement.renderEach body)
  | .forLoop start condition step body =>
      "for (" ++ start.render ++ ", " ++ condition.render ++ ", " ++ step.render ++ ") " ++
        braced (Statement.renderEach body)
  | .foreachLoop item items body =>
      "for (" ++ item ++ " : " ++ items.render ++ ") " ++ braced (Statement.renderEach body)
  | .repeatLoop count body => "repeat (" ++ count.render ++ ") " ++ braced (Statement.renderEach body)
  | .definition definition => definition.render
  | .ret value => "ret " ++ value.render ++ ";"
  | .breakLoop => "break;"
  | .continueLoop => "continue;"
  | .expression expression => expression.render ++ ";"
  | .empty => ";"

def Statement.renderEach : List Statement → List String
  | [] => []
  | statement :: rest => statement.render :: Statement.renderEach rest

def Alternatives.render : Alternatives → String
  | .none => ""
  | .otherwise body => " else " ++ braced (Statement.renderEach body)
  | .branch condition body rest =>
      " elif (" ++ condition.render ++ ") " ++ braced (Statement.renderEach body) ++ rest.render

/-- Without a name the word `def` keeps its space. -/
def Definition.render : Definition → String
  | .mk name parameters body =>
      "def " ++ name.getD "" ++ "(" ++ ", ".intercalate parameters ++ ") " ++
        braced (Statement.renderEach body)

end

def Program.render (program : Program) : String :=
  " ".intercalate (program.map Statement.render)

end Easel
