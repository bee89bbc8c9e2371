import Easel.Text.Lines

/-!
Files as source units. The text of a file is wrapped in one block. A line that
begins with `#` is a comment; it is blanked and not removed, so that the rows in
diagnostics are those of the file.
-/

namespace Easel.Source

def uncomment (line : String) : String :=
  if line.startsWith "#" then "" else line

/-- The block that stands for a file's text. The closing brace has a row of its own,
so that a comment or a text in the last line cannot swallow it. -/
def wrap (text : String) : String :=
  "\x7b" ++ "\n".intercalate ((Text.lines text).map uncomment) ++ "\n\x7d"

end Easel.Source
