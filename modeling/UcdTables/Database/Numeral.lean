import UcdTables.Error
import UcdTables.Text.Blank

/-!
# Codes in the databases

The databases write a code as a hexadecimal numeral. Blanks around it do not count, and it has to
lie in the code space.
-/

namespace UcdTables.Database

/-- Reads the code on a line of a database. -/
def readCode (source : List Char) (line : Nat) : Except BuildError CodePoint :=
  let numeral := Text.trim source
  match Text.readHex numeral with
  | none => .error (.malformedRecord line (.badCode (String.ofList numeral)))
  | some code =>
    if h : code ≤ lastCode then .ok ⟨code, h⟩
    else .error (.malformedRecord line (.outOfRange code))

end UcdTables.Database
