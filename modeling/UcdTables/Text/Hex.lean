/-!
# Hexadecimal numerals

Reading takes digits of either case, after one optional plus sign, whose value fits in 32 bits.
Writing gives the digits without leading zeros, most significant first.

* `readHex`: the digits are gathered from the left; a value of 2³² or more is refused as soon as it
  is reached, so that what is kept stays small however long the numeral is.
-/

namespace UcdTables.Text

/-- The value of a hexadecimal digit of either case. -/
def hexDigit? (c : Char) : Option Nat :=
  if '0' ≤ c ∧ c ≤ '9' then some (c.toNat - '0'.toNat)
  else if 'a' ≤ c ∧ c ≤ 'f' then some (c.toNat - 'a'.toNat + 10)
  else if 'A' ≤ c ∧ c ≤ 'F' then some (c.toNat - 'A'.toNat + 10)
  else none

/-- Reads on from the value `acc` of the digits already passed. -/
def gatherHex (acc : Nat) : List Char → Option Nat
  | [] => some acc
  | c :: cs => do
    let next := 16 * acc + (← hexDigit? c)
    if next < UInt32.size then gatherHex next cs else none

/-- The digits of a numeral, without its optional plus sign. -/
def unsigned : List Char → List Char
  | '+' :: digits => digits
  | digits => digits

/-- The value of a hexadecimal numeral of at most 32 bits. -/
def readHex (s : List Char) : Option UInt32 :=
  match unsigned s with
  | [] => none
  | digits => (gatherHex 0 digits).map UInt32.ofNat

/-- The two alphabets of hexadecimal digits. -/
inductive LetterCase where
  | lower
  | upper
  deriving DecidableEq, Repr

/-- The character of a digit below 16. -/
def hexChar (case : LetterCase) (digit : Nat) : Char :=
  if digit < 10 then Char.ofNat ('0'.toNat + digit)
  else match case with
    | .lower => Char.ofNat ('a'.toNat + (digit - 10))
    | .upper => Char.ofNat ('A'.toNat + (digit - 10))

/-- The digits of a number, without leading zeros. -/
def hexDigits (case : LetterCase) (n : Nat) : List Char :=
  if n < 16 then [hexChar case n] else hexDigits case (n / 16) ++ [hexChar case (n % 16)]

/-- The digits of a number with zeros in front up to a width of four. -/
def hexWord (case : LetterCase) (n : Nat) : List Char := (hexDigits case n).leftpad 4 '0'

end UcdTables.Text
