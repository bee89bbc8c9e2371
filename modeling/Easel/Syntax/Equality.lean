import Easel.Syntax

/-!
Structural equality of trees. Numbers are compared as doubles are: both zeros are
equal, and what is no number differs from itself, so a tree that holds one differs
from itself too.
-/

namespace Easel

def Literal.same : Literal → Literal → Bool
  | .number left, .number right => left == right
  | .text left, .text right => left == right
  | _, _ => false

mutual

def Expression.same : Expression → Expression → Bool
  | .identifier left, .identifier right => left == right
  | .literal left, .literal right => left.same right
  | .unary operator left, .unary operator' right => operator == operator' && left.same right
  | .binary operator left right, .binary operator' left' right' =>
      operator == operator' && left.same left' && right.same right'
  | .assign operator name value, .assign operator' name' value' =>
      operator == operator' && name == name' && value.same value'
  | .call name arguments, .call name' arguments' =>
      name == name' && Expression.sameEach arguments arguments'
  | .list items, .list items' => Expression.sameEach items items'
  | .function definition, .function definition' => definition.same definition'
  | _, _ => false

def Expression.sameEach : List Expression → List Expression → Bool
  | [], [] => true
  | left :: lefts, right :: rights => left.same right && Expression.sameEach lefts rights
  | _, _ => false

def Statement.same : Statement → Statement → Bool
  | .block body, .block body' => Statement.sameEach body body'
  | .conditional condition body rest, .conditional condition' body' rest' =>
      condition.same condition' && Statement.sameEach body body' && rest.same rest'
  | .whileLoop condition body, .whileLoop condition' body' =>
      condition.same condition' && Statement.sameEach body body'
  | .forLoop start condition step body, .forLoop start' condition' step' body' =>
      start.same start' && condition.same condition' && step.same step' &&
        Statement.sameEach body body'
  | .foreachLoop item items body, .foreachLoop item' items' body' =>
      item == item' && items.same items' && Statement.sameEach body body'
  | .repeatLoop count body, .repeatLoop count' body' =>
      count.same count' && Statement.sameEach body body'
  | .definition definition, .definition definition' => definition.same definition'
  | .ret value, .ret value' => value.same value'
  | .breakLoop, .breakLoop => true
  | .continueLoop, .continueLoop => true
  | .expression expression, .expression expression' => expression.same expression'
  | .empty, .empty => true
  | _, _ => false

def Statement.sameEach : List Statement → List Statement → Bool
  | [], [] => true
  | left :: lefts, right :: rights => left.same right && Statement.sameEach lefts rights
  | _, _ => false

def Alternatives.same : Alternatives → Alternatives → Bool
  | .none, .none => true
  | .otherwise body, .otherwise body' => Statement.sameEach body body'
  | .branch condition body rest, .branch condition' body' rest' =>
      condition.same condition' && Statement.sameEach body body' && rest.same rest'
  | _, _ => false

def Definition.same : Definition → Definition → Bool
  | .mk name parameters body, .mk name' parameters' body' =>
      name == name' && parameters == parameters' && Statement.sameEach body body'

end

end Easel
