import UcdTables.Database.Numeral
import UcdTables.Property.Draft
import UcdTables.Text.Fields

/-!
# Records of the script database

A line holds a code or a range of codes, a semicolon and the name of a script. What follows a `#`
is a comment, what follows a second semicolon does not count, and a line without more than a
comment holds no record.

Codes that no record mentions belong to no script.
-/

namespace UcdTables

/-- A record of the script database. -/
structure ScriptRange where
  line : Nat
  first : CodePoint
  last : CodePoint
  script : String
  first_le_last : first.val ≤ last.val
  deriving DecidableEq

namespace ScriptRange

/-- The codes of a record. -/
def range (r : ScriptRange) : CodeRange := ⟨r.first, r.last⟩

/-- The two bounds of the codes that a text writes: two codes with two dots between them, or one
code. -/
def readBounds (source : List Char) (line : Nat) : Except BuildError (CodePoint × CodePoint) :=
  match Text.cutDots source with
  | some (first, last) => do
    let first ← Database.readCode first line
    let last ← Database.readCode last line
    pure (first, last)
  | none => do
    let code ← Database.readCode source line
    pure (code, code)

/-- Reads the data of a line, of which the comment is gone, as a record. -/
def ofData (line : Nat) (data : List Char) : Except BuildError ScriptRange :=
  match Text.cut ';' data with
  | (_, none) => throw (.malformedRecord line (.noSemicolon (String.ofList data)))
  | (codes, some rest) => do
    let (first, last) ← readBounds codes line
    if h : first.val ≤ last.val then
      let script := Text.trim (Text.cut ';' rest).1
      if script = [] then throw (.malformedRecord line .noScript)
      else pure ⟨line, first, last, String.ofList script, h⟩
    else throw (.malformedRecord line (.reversed ⟨first, last⟩))

/-- What a line holds before its comment. -/
def dataOf (line : List Char) : List Char := Text.trim (Text.cut '#' line).1

/-- The data of a text, each with the number of its line. -/
def dataLines (source : List Char) : List (List Char × Nat) :=
  ((Text.numberedLines source).map fun (text, line) => (dataOf text, line)).filter (·.1 ≠ [])

/-- Reads the records of a text, up to the first that is refused. -/
def ofText (source : String) : Except BuildError (List ScriptRange) :=
  (dataLines source.toList).mapM fun (data, line) => ofData line data

end ScriptRange

/-- The codes of each script. -/
def scriptDraft (ranges : List ScriptRange) : Draft :=
  ranges.foldl (fun d r => d.extend .script r.script [r.range]) .empty

end UcdTables
