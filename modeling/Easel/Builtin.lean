/-!
The functions that every program can call. A program may bind one of these names to
a value of its own, which then hides the function.
-/

namespace Easel

inductive Builtin where
  | print
  | printf
  | input
  | toNum
  | toStr
  | error
  | importUnit
deriving DecidableEq, Repr, Inhabited

namespace Builtin

def name : Builtin → String
  | .print => "print"
  | .printf => "printf"
  | .input => "input"
  | .toNum => "to_num"
  | .toStr => "to_str"
  | .error => "error"
  | .importUnit => "import"

def ofName? (name : String) : Option Builtin :=
  match name with
  | "print" => some .print
  | "printf" => some .printf
  | "input" => some .input
  | "to_num" => some .toNum
  | "to_str" => some .toStr
  | "error" => some .error
  | "import" => some .importUnit
  | _ => none

theorem ofName?_name (builtin : Builtin) : ofName? builtin.name = some builtin := by
  cases builtin <;> rfl

theorem name_of_ofName? {name : String} {builtin : Builtin}
    (found : ofName? name = some builtin) : builtin.name = name := by
  unfold ofName? at found
  split at found <;> cases found <;> rfl

end Builtin

end Easel
