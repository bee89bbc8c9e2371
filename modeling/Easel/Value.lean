import Easel.Syntax
import Easel.Number.Shortest
import Easel.Text.Quoted

/-!
Values of running programs. A text is stored with its quotes; its content is what
is left without them. Truth values are the numbers one and zero.
-/

namespace Easel

inductive Value where
  | number (value : Number)
  | text (quoted : String)
  | function (definition : Definition)
  | list (items : List Value)
  | none

namespace Value

instance : Inhabited Value := ⟨.none⟩

inductive Kind where
  | number
  | text
  | function
  | list
  | none
deriving DecidableEq, Repr, Inhabited

def Kind.name : Kind → String
  | .number => "Number"
  | .text => "Text"
  | .function => "Function"
  | .list => "List"
  | .none => "None"

def kind : Value → Kind
  | .number _ => .number
  | .text _ => .text
  | .function _ => .function
  | .list _ => .list
  | .none => .none

def ofBool (condition : Bool) : Value :=
  .number (if condition then 1 else 0)

def ofLiteral : Literal → Value
  | .number value => .number value
  | .text quoted => .text quoted

def ofContent (content : String) : Value :=
  .text (Text.quote content)

def content? : Value → Option String
  | .text quoted => some (Text.unquote quoted)
  | _ => Option.none

/-- Zero, either sign of it, is false, and so are `none` and what is empty. What is
no number at all is true, since it differs from zero. -/
def isTruthy : Value → Bool
  | .number value => value != 0
  | .text quoted => Text.unquote quoted != ""
  | .function _ => true
  | .list items => !items.isEmpty
  | .none => false

mutual

/-- A value as programs print it: texts appear without quotes, also in lists. -/
def render : Value → String
  | .number value => value.render
  | .text quoted => Text.unquote quoted
  | .function definition =>
      match definition.name with
      | some name => "<def " ++ name ++ ">"
      | Option.none => "<def>"
  | .list items => "[" ++ ", ".intercalate (renderEach items) ++ "]"
  | .none => "none"

def renderEach : List Value → List String
  | [] => []
  | value :: rest => value.render :: renderEach rest

end

end Value

end Easel
