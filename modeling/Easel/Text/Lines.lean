/-!
The lines of a text. A line ends at a newline, and a carriage return just before
the newline belongs to the line's end. A carriage return anywhere else stays. Text
after the last newline is a line only if there is any.
-/

namespace Easel.Text

def withoutReturn : List Char → List Char
  | '\r' :: reversed => reversed.reverse
  | reversed => reversed.reverse

/-- The lines of a text, behind the characters already read of the first one,
newest first. -/
def linesFrom : List Char → List Char → List (List Char)
  | [], [] => []
  | line, [] => [line.reverse]
  | line, c :: rest =>
      if c = '\n' then withoutReturn line :: linesFrom [] rest else linesFrom (c :: line) rest

def lines (text : String) : List String :=
  (linesFrom [] text.toList).map String.ofList

end Easel.Text
