import UcdTables.Table.Ranges

/-!
# The text of the tables

A table is an array in C syntax, under a comment that gives its name and kind: the number of its
ranges, and then a row for each range.
-/

namespace UcdTables

/-- A code in a table: `0x` and at least four lower-case digits. -/
def Code.literal (code : Code) : String := "0x" ++ String.ofList (Text.hexWord .lower code.toNat)

/-- The row of a range. -/
def CodeRange.row (r : CodeRange) : String :=
  "\t" ++ r.first.literal ++ ", " ++ r.last.literal ++ ",\n"

/-- The rows of a list of ranges. -/
def CodeRange.rows (rs : List CodeRange) : String := String.join (rs.map row)

namespace RangeTable

/-- The array of a table. -/
def array (t : RangeTable) : String :=
  "\n/* '" ++ t.name ++ "': " ++ t.kind.label ++ " */\n" ++
  "static const OnigCodePoint CR_" ++ t.name ++ "[] = \x7b\n" ++
  "\t" ++ toString t.ranges.length ++ ",\n" ++
  CodeRange.rows t.ranges ++
  "\x7d; /* CR_" ++ t.name ++ " */\n"

/-- The arrays of a list of tables, one after the other. -/
def arrays (ts : List RangeTable) : String := String.join (ts.map array)

end RangeTable

end UcdTables
