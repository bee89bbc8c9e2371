/-!
Quoted texts. A text literal is kept with the quotes it was written with, and a
text made at run time is given quotes of its own. Reading takes off one pair of
quotes, and only a pair: a text with a quote at one end alone has no quotes in this
sense, and all of it is content.
-/

namespace Easel.Text

def quote (content : String) : String :=
  "\"" ++ content ++ "\""

/-- The content of a text. A lone quote character is its own content. -/
def unquote (text : String) : String :=
  match text.toList with
  | '"' :: rest =>
      if rest.getLast? = some '"' then String.ofList rest.dropLast else text
  | _ => text

theorem unquote_quote (content : String) : unquote (quote content) = content := by
  have spelled : (quote content).toList = '"' :: (content.toList ++ ['"']) := by
    simp [quote, String.toList_append]
  unfold unquote
  rw [spelled]
  simp [String.ofList_toList]

end Easel.Text
