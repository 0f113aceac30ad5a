/-!
# Failures of reading and writing files

Why a file could not be read or written, with the wording of each reason.
-/

namespace UcdTables

/-- Why a file could not be read or written. -/
inductive FileFailure where
  /-- The file, or a directory on the way to it, does not exist. -/
  | notFound
  /-- A file stands where the path needs a directory. -/
  | notADirectory
  /-- The path names a directory. -/
  | isADirectory
  /-- The path, or a name in it, is too long. -/
  | nameTooLong
  /-- The path holds the character U+0000. -/
  | nulInPath
  /-- The file was read, and its bytes are not a text. -/
  | notText
  /-- Any other reason, in the words of the system. -/
  | other (reason : String)
  deriving DecidableEq, Repr

namespace FileFailure

/-- The wording of a reason. -/
def message : FileFailure → String
  | notFound => "No such file or directory (os error 2)"
  | notADirectory => "Not a directory (os error 20)"
  | isADirectory => "Is a directory (os error 21)"
  | nameTooLong => "File name too long (os error 36)"
  | nulInPath => "file name contained an unexpected NUL byte"
  | notText => "stream did not contain valid UTF-8"
  | other reason => reason

end FileFailure

end UcdTables
