import UcdTables.Code.Range
import UcdTables.Files.Failure
import UcdTables.Property.Kind

/-!
# Errors

What can go wrong while the tables are made, by cause. The wording is that of
`Malformation.message` and `BuildError.message`.
-/

namespace UcdTables

/-- Why a line of a database is refused. -/
inductive Malformation where
  /-- A text stands where a code is expected. -/
  | badCode (text : String)
  /-- A code lies beyond the code space. -/
  | outOfRange (code : Code)
  /-- A record has fewer than three fields. -/
  | tooFewFields (found : Nat)
  /-- A text stands where a category of two letters is expected. -/
  | badCategory (text : String)
  /-- A record ends a block that no record before it began. -/
  | notOpened (name : String)
  /-- A record begins a block that the next record does not end. -/
  | notClosed (name : String)
  /-- The two records of a block have different categories. -/
  | changesCategory (block : CodeRange) (opened closed : String)
  /-- A line has no semicolon. -/
  | noSemicolon (text : String)
  /-- A range ends below its start. -/
  | reversed (range : CodeRange)
  /-- A line names no script. -/
  | noScript
  deriving DecidableEq, Repr

/-- A range in messages. -/
def CodeRange.label (r : CodeRange) : String := r.first.label ++ ".." ++ r.last.label

namespace Malformation

/-- The wording of a reason. -/
def message : Malformation → String
  | badCode text => "bad codepoint '" ++ text ++ "'"
  | outOfRange code => "codepoint " ++ code.label ++ " is out of range"
  | tooFewFields found => "expected at least 3 fields, found " ++ toString found
  | badCategory text => "bad general category '" ++ text ++ "'"
  | notOpened name => "'" ++ name ++ "' closes a range that was not opened"
  | notClosed name => "range opened by '" ++ name ++ "' is not closed"
  | changesCategory block opened closed =>
    "range " ++ block.label ++ " changes category from " ++ opened ++ " to " ++ closed
  | noSemicolon text => "missing ';' in '" ++ text ++ "'"
  | reversed range => "range " ++ range.label ++ " is reversed"
  | noScript => "missing script name"

end Malformation

/-- What can go wrong while the tables are made. -/
inductive BuildError where
  /-- A line of a database is refused. -/
  | malformedRecord (line : Nat) (reason : Malformation)
  /-- The code of a record is not above that of the record before it. -/
  | ordering (line : Nat) (previous current : Code)
  /-- A property holds no code. -/
  | emptyProperty (name : String)
  /-- A class reads another class that is not there. -/
  | unresolvedClass (name term : String)
  /-- A name stands for two different properties. -/
  | duplicateProperty (name : String)
  /-- A code lies in none or in several categories of one kind. -/
  | partition (code : Code) (count : Nat)
  /-- A category holds a code beyond the code space. -/
  | outsideCodeSpace (kind : PropertyKind)
  /-- A file could not be read or written. -/
  | file (path : String) (reason : FileFailure)
  deriving DecidableEq, Repr

namespace BuildError

/-- The wording of an error. -/
def message : BuildError → String
  | malformedRecord line reason =>
    "line " ++ toString line ++ ": malformed record: " ++ reason.message
  | ordering line previous current =>
    "line " ++ toString line ++ ": codepoint " ++ current.label ++ " does not follow " ++
      previous.label
  | emptyProperty name => "property '" ++ name ++ "' has no codepoints"
  | unresolvedClass name term =>
    "class '" ++ name ++ "' reads '" ++ term ++ "' before it is built"
  | duplicateProperty name => "property '" ++ name ++ "' is already defined"
  | partition code count =>
    "codepoint " ++ code.label ++ " belongs to " ++ toString count ++ " categories of one kind"
  | outsideCodeSpace kind => kind.label ++ " holds a code outside the code space"
  | file path reason => path ++ ": " ++ reason.message

end BuildError

end UcdTables
