/-!
Templates for formatted output. The mark `%s` is a hole to be filled with a value.
Between the holes `\n` stands for a newline and `\\` for a backslash; a backslash
before anything else stands for itself. Holes are found before escapes are decoded,
and what fills a hole is never looked into.
-/

namespace Easel.Text.Template

/-- The segments around the holes of a template, behind the characters already read
of the first one, newest first. There is always one more segment than holes. -/
def segmentsFrom : List Char → List Char → List (List Char)
  | segment, [] => [segment.reverse]
  | segment, '%' :: 's' :: rest => segment.reverse :: segmentsFrom [] rest
  | segment, c :: rest => segmentsFrom (c :: segment) rest

def segments (template : String) : List (List Char) :=
  segmentsFrom [] template.toList

def decode : List Char → List Char
  | '\\' :: 'n' :: rest => '\n' :: decode rest
  | '\\' :: '\\' :: rest => '\\' :: decode rest
  | '\\' :: c :: rest => '\\' :: c :: decode rest
  | c :: rest => c :: decode rest
  | [] => []

def fill : List (List Char) → List String → String
  | segment :: segments, filling :: fillings =>
      String.ofList (decode segment) ++ filling ++ fill segments fillings
  | segment :: segments, [] => String.ofList (decode segment) ++ fill segments []
  | [], _ => ""

end Easel.Text.Template
