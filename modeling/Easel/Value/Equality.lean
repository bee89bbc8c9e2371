import Easel.Syntax.Equality
import Easel.Value

/-!
Equality of values as the host sees it. It differs from the language's own `==`:
texts are compared with their quotes, and lists and functions are comparable.
-/

namespace Easel.Value

mutual

def same : Value → Value → Bool
  | .number left, .number right => left == right
  | .text left, .text right => left == right
  | .function left, .function right => left.same right
  | .list left, .list right => sameEach left right
  | .none, .none => true
  | _, _ => false

def sameEach : List Value → List Value → Bool
  | [], [] => true
  | left :: lefts, right :: rights => left.same right && sameEach lefts rights
  | _, _ => false

end

end Easel.Value
