/-!
# Numbers and bytes as text

Every report, log record and listing line writes its numbers through the few
functions of this module, and hexadecimal digits are read by `hexValue?`:

* `hex` and `decimal` use the fewest digits, with `0` for zero;
* `hexPadded` fills up with zeros on the left to a least width;
* `signed` puts a minus sign before the magnitude of a negative number;
* `bytes` writes two lower-case hexadecimal digits for each byte;
* `positions` writes a list of numbers between square brackets;
* `record` writes a name and, between braces, fields with their values.
-/

namespace EvmCheck
namespace Text

/-- Lower-case hexadecimal digits of `n`, without leading zeros. -/
def hex (n : Nat) : String :=
  String.ofList (Nat.toDigits 16 n)

/-- Hexadecimal digits of `n`, with zeros on the left up to `width` digits. -/
def hexPadded (width n : Nat) : String :=
  String.ofList ((Nat.toDigits 16 n).leftpad width '0')

/-- Decimal digits of `n`, without leading zeros. -/
def decimal (n : Nat) : String :=
  String.ofList (Nat.toDigits 10 n)

/-- Decimal digits of an integer, after a minus sign when it is negative. -/
def signed : Int → String
  | .ofNat n => decimal n
  | .negSucc n => "-" ++ decimal (n + 1)

/-- The two hexadecimal digits of a byte, the higher one first. -/
def byteDigits (b : UInt8) : List Char :=
  [Nat.digitChar (b.toNat / 16), Nat.digitChar (b.toNat % 16)]

/-- Two hexadecimal digits for each byte, in order. -/
def bytes (bs : List UInt8) : String :=
  String.ofList (bs.flatMap byteDigits)

/-- The value of a hexadecimal digit in either case. -/
def hexValue? (c : Char) : Option Nat :=
  if '0' ≤ c ∧ c ≤ '9' then some (c.toNat - '0'.toNat)
  else if 'a' ≤ c ∧ c ≤ 'f' then some (c.toNat - 'a'.toNat + 10)
  else if 'A' ≤ c ∧ c ≤ 'F' then some (c.toNat - 'A'.toNat + 10)
  else none

/-- Lines of text, each with a line feed after it. -/
def lines (ls : List String) : String :=
  String.join (ls.map fun l => l ++ "\n")

/-- Numbers in decimal between square brackets, separated by a comma and a blank. -/
def positions (ps : List Nat) : String :=
  "[" ++ ", ".intercalate (ps.map decimal) ++ "]"

/-- A name followed by its fields between braces; without fields, the name. -/
def record (name : String) (fields : List (String × String)) : String :=
  if fields.isEmpty then name
  else
    name ++ " \x7b " ++
      ", ".intercalate (fields.map fun field => field.1 ++ ": " ++ field.2) ++
      " \x7d"

/-- The word for a truth value. -/
def boolean : Bool → String
  | true => "true"
  | false => "false"

end Text
end EvmCheck
