import Lox.Text.Quoted

/-!
# Files that were read

What came of opening and reading a file, and what is said about a file that is of no use.
-/

namespace Lox

/-- Why a path leads to no text. -/
inductive PathError where
  | notFound
  | notDirectory
  | isDirectory
  | nameTooLong
  deriving DecidableEq

namespace PathError

/-- The reason in words, with its number. -/
def reason : PathError → String
  | notFound => "No such file or directory (os error 2)"
  | notDirectory => "Not a directory (os error 20)"
  | isDirectory => "Is a directory (os error 21)"
  | nameTooLong => "File name too long (os error 36)"

end PathError

/-- What came of reading a file; a failure has its reason. -/
inductive Loaded where
  | bytes (contents : ByteArray)
  | notOpened (reason : String)
  | notRead (reason : String)

namespace Loaded

/-- What is said about a file that is of no use. -/
def complaint (doing file reason : String) : String :=
  "Error: Failed to " ++ doing ++ " file " ++ quoted file ++ ": " ++ reason ++ "\n"

/-- The text of a file, or what is said about it. -/
def text (file : String) : Loaded → Except String String
  | bytes contents =>
    match String.fromUTF8? contents with
    | some source => .ok source
    | none => .error (complaint "read" file "stream did not contain valid UTF-8")
  | notOpened reason => .error (complaint "open" file reason)
  | notRead reason => .error (complaint "read" file reason)

end Loaded

end Lox
