import EvmCheck.Code

/-!
# Code written in hexadecimal

Code is given as text: any number of marks `0x`, then two hexadecimal digits in
either case for each byte.  The text is read as UTF-8 bytes, so that an odd
number of bytes is noticed first, and otherwise the first byte that is no digit.
-/

namespace EvmCheck
namespace Hex

/-- Why a text is not code in hexadecimal. -/
inductive Fault
  /-- The number of bytes after the marks is odd. -/
  | oddLength
  /-- The byte at an index after the marks is not a hexadecimal digit. -/
  | invalidByte (byte : UInt8) (index : Nat)
  deriving DecidableEq

/-- Takes away every leading mark `0x`. -/
def strip : List Char → List Char
  | '0' :: 'x' :: rest => strip rest
  | cs => cs

/-- The UTF-8 bytes after the leading marks. -/
def digitBytes (text : String) : Array UInt8 :=
  ((strip text.toList).flatMap String.utf8EncodeChar).toArray

/-- The character with the number of a byte. -/
def charOf (b : UInt8) : Char :=
  Char.ofNat b.toNat

/-- Whether a byte is a hexadecimal digit. -/
def isDigit (b : UInt8) : Bool :=
  (Text.hexValue? (charOf b)).isSome

/-- The value of a byte that is a hexadecimal digit. -/
def digitValue (b : UInt8) : Nat :=
  (Text.hexValue? (charOf b)).getD 0

/-- Joins digits in pairs, the higher digit first. -/
def pack (digits : Array UInt8) : Code :=
  Array.ofFn fun i : Fin (digits.size / 2) =>
    UInt8.ofNat
      (16 * digitValue (digits.getD (2 * i.val) 0) +
        digitValue (digits.getD (2 * i.val + 1) 0))

/-- Reads code in hexadecimal. -/
def decode (text : String) : Except Fault Code :=
  let digits := digitBytes text
  if digits.size % 2 = 1 then .error .oddLength
  else
    match digits.findIdx? (fun b => !isDigit b) with
    | some i => .error (.invalidByte (digits.getD i 0) i)
    | none => .ok (pack digits)

/-- A byte as a character that stands between apostrophes: an apostrophe, a
backslash and what does not show are written as escapes. -/
def escaped (b : UInt8) : String :=
  if b = 0x00 then "\\0"
  else if b = 0x09 then "\\t"
  else if b = 0x0a then "\\n"
  else if b = 0x0d then "\\r"
  else if b = 0x27 then "\\'"
  else if b = 0x5c then "\\\\"
  else if b < 0x20 ∨ (0x7f ≤ b ∧ b ≤ 0xa0) ∨ b = 0xad then
    "\\u\x7b" ++ Text.hex b.toNat ++ "\x7d"
  else String.singleton (charOf b)

namespace Fault

/-- The reason in words. -/
def reason : Fault → String
  | oddLength => "Odd number of digits"
  | invalidByte byte index =>
      "Invalid character '" ++ escaped byte ++ "' at position " ++
        Text.decimal index

/-- The complaint about a text. -/
def message (text : String) (fault : Fault) : String :=
  "invalid hex " ++ text ++ ": " ++ fault.reason

end Fault
end Hex
end EvmCheck
