/-!
Text from bytes that were cut off. A sink that is full keeps the first bytes of what was
written, and the last character of them may be incomplete. It is shown as one
replacement mark.
-/

namespace Easel.Text

/-- The text of the bytes without the last `dropped`, for the least number of dropped
bytes that leaves a text, with a mark if any was dropped. A character has at most four
bytes, so no more than three of them can belong to an incomplete one. -/
def decodeCutFrom (bytes : ByteArray) (dropped : Nat) : Nat → String
  | 0 => "\ufffd"
  | attempts + 1 =>
      match String.fromUTF8? (bytes.extract 0 (bytes.size - dropped)) with
      | some text => if dropped = 0 then text else text ++ "\ufffd"
      | none => decodeCutFrom bytes (dropped + 1) attempts

def decodeCut (bytes : ByteArray) : String :=
  decodeCutFrom bytes 0 4

end Easel.Text
