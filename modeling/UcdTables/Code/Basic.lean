import UcdTables.Text.Hex

/-!
# Codes

A code is a 32-bit word that stands for a character. The codes up to `lastCode` form the code
space, and a code of the code space is a `CodePoint`: what the databases may mention. Sets of codes
may hold any word.
-/

namespace UcdTables

/-- A 32-bit word that stands for a character. -/
abbrev Code := UInt32

/-- The last code of the code space. -/
def lastCode : Code := 0x10FFFF

/-- A code of the code space. -/
abbrev CodePoint := { code : Code // code ≤ lastCode }

namespace Code

/-- The name of a code in messages: `U+` and at least four upper-case digits. -/
def label (code : Code) : String := "U+" ++ String.ofList (Text.hexWord .upper code.toNat)

end Code

end UcdTables
