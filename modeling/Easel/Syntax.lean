import Easel.Operator
import Easel.Number.Double

/-!
Trees of the language. Bodies are plain lists of statements. A block opens a
frame of its own when it runs; the bodies of branches and loops run in the frame
of the statement they belong to, which is why they are not blocks.
-/

namespace Easel

/-- A constant in the text of a program. A text keeps the quotes it was written
with. -/
inductive Literal where
  | number (value : Number)
  | text (quoted : String)

mutual

inductive Expression where
  | identifier (name : String)
  | literal (value : Literal)
  | unary (operator : UnaryOperator) (operand : Expression)
  | binary (operator : BinaryOperator) (left right : Expression)
  | assign (operator : AssignOperator) (name : String) (value : Expression)
  | call (name : String) (arguments : List Expression)
  | list (items : List Expression)
  | function (definition : Definition)

inductive Statement where
  | block (body : List Statement)
  | conditional (condition : Expression) (body : List Statement) (alternatives : Alternatives)
  | whileLoop (condition : Expression) (body : List Statement)
  | forLoop (start condition step : Expression) (body : List Statement)
  | foreachLoop (item : String) (items : Expression) (body : List Statement)
  | repeatLoop (count : Expression) (body : List Statement)
  | definition (definition : Definition)
  | ret (value : Expression)
  | breakLoop
  | continueLoop
  | expression (expression : Expression)
  | empty

inductive Alternatives where
  | none
  | otherwise (body : List Statement)
  | branch (condition : Expression) (body : List Statement) (rest : Alternatives)

/-- A function with its parameters in order. A function literal may have no
name. -/
inductive Definition where
  | mk (name : Option String) (parameters : List String) (body : List Statement)

end

instance : Inhabited Literal := ⟨.text ""⟩

instance : Inhabited Expression := ⟨.identifier ""⟩

instance : Inhabited Statement := ⟨.empty⟩

instance : Inhabited Definition := ⟨.mk none [] []⟩

namespace Definition

def name : Definition → Option String
  | .mk name _ _ => name

def parameters : Definition → List String
  | .mk _ parameters _ => parameters

def body : Definition → List Statement
  | .mk _ _ body => body

end Definition

abbrev Program := List Statement

end Easel
