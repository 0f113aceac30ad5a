import UcdTables.Text.Hex
import UcdTables.Text.Printable

/-!
# Quoted text

Two ways to write a text between double quotes on one line: the one of the readable log, and the
one of JSON.
-/

namespace UcdTables.Text

/-- A character in the readable log, between quotes. -/
def escapeReadable (c : Char) : List Char :=
  match c with
  | '"' => ['\\', '"']
  | '\\' => ['\\', '\\']
  | '\t' => ['\\', 't']
  | '\r' => ['\\', 'r']
  | '\n' => ['\\', 'n']
  | '\x00' => ['\\', '0']
  | c => if isPrintable c then [c] else ['\\', 'u', '\x7b'] ++ hexDigits .lower c.toNat ++ ['\x7d']

/-- A character in JSON, between quotes. -/
def escapeJson (c : Char) : List Char :=
  match c with
  | '"' => ['\\', '"']
  | '\\' => ['\\', '\\']
  | '\x08' => ['\\', 'b']
  | '\t' => ['\\', 't']
  | '\n' => ['\\', 'n']
  | '\x0c' => ['\\', 'f']
  | '\r' => ['\\', 'r']
  | c => if c.toNat < 0x20 then ['\\', 'u'] ++ hexWord .lower c.toNat else [c]

/-- A text between quotes, each of its characters escaped. -/
def quote (escape : Char → List Char) (text : String) : String :=
  "\"" ++ String.ofList (text.toList.flatMap escape) ++ "\""

end UcdTables.Text
