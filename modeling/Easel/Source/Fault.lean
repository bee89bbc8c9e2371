/-!
Why there is no unit where one is named. A file may be unreadable, and a unit that nobody has
fetched yet is told apart from one that cannot be read. Whoever serves units otherwise words a
reason of his own.
-/

namespace Easel.Source

/-- Why a file cannot be read as text. -/
inductive ReadFault where
  | notFound
  | notDirectory
  | isDirectory
  | nameTooLong
  | nulInName
  | invalidText
  | other (description : String)
deriving DecidableEq, Repr

def ReadFault.message : ReadFault → String
  | .notFound => "No such file or directory (os error 2)"
  | .notDirectory => "Not a directory (os error 20)"
  | .isDirectory => "Is a directory (os error 21)"
  | .nameTooLong => "File name too long (os error 36)"
  | .nulInName => "file name contained an unexpected NUL byte"
  | .invalidText => "stream did not contain valid UTF-8"
  | .other description => description

inductive LoadFault where
  | noSuchUnit
  | unreadable (path : String) (fault : ReadFault)
  | unfetched (path : String)
  | other (reason : String)
deriving DecidableEq, Repr

def LoadFault.message : LoadFault → String
  | .noSuchUnit => "no such unit"
  | .unreadable path fault => path ++ ": " ++ fault.message
  | .unfetched path => path ++ ": not fetched"
  | .other reason => reason

end Easel.Source
