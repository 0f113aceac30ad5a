import UcdTables.Database.Category
import UcdTables.Database.Numeral
import UcdTables.Text.Fields

/-!
# Records of the character database

Each line that is not blank is a record. Its fields are separated by semicolons: the code, the name
and the category come first, and nothing after them counts.

A block of codes is written as two records, whose names say so: `<…, First>` and `<…, Last>`.
-/

namespace UcdTables

/-- A record of the character database. -/
structure CharacterRecord where
  line : Nat
  code : CodePoint
  name : String
  category : Category
  deriving DecidableEq

/-- The two records that write a block. -/
inductive BlockBound where
  | first
  | last
  deriving DecidableEq, Repr

namespace CharacterRecord

/-- Which bound of a block a record is, by its name. -/
def bound? (r : CharacterRecord) : Option BlockBound :=
  let name := r.name.toList
  if "<".toList.isPrefixOf name then
    if ", First>".toList.isSuffixOf name then some .first
    else if ", Last>".toList.isSuffixOf name then some .last
    else none
  else none

/-- Reads a line as a record. -/
def ofLine (line : Nat) (source : List Char) : Except BuildError CharacterRecord :=
  match Text.fields ';' source with
  | codeField :: nameField :: categoryField :: _ => do
    let code ← Database.readCode codeField line
    let written := Text.trim categoryField
    match Category.ofChars? written with
    | some category => pure ⟨line, code, String.ofList (Text.trim nameField), category⟩
    | none => throw (.malformedRecord line (.badCategory (String.ofList written)))
  | short => throw (.malformedRecord line (.tooFewFields short.length))

/-- The lines of a text that hold a record, each with its number. -/
def recordLines (source : List Char) : List (List Char × Nat) :=
  (Text.numberedLines source).filter fun l => !l.1.all Text.isBlank

/-- Reads the records of a text, up to the first that is refused. -/
def ofText (source : String) : Except BuildError (List CharacterRecord) :=
  (recordLines source.toList).mapM fun (text, line) => ofLine line text

end CharacterRecord

end UcdTables
