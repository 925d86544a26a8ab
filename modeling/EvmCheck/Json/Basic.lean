/-!
# JSON values

Values are kept as they are written, as far as a reader can tell them apart:
members keep their order and may repeat a key, an integer literal keeps its
sign, and every other number is only known to be one.

The text of a string may be unknown: escapes can spell half of a surrogate
pair, which is no character.  Such a string is `none`.
-/

namespace EvmCheck

/-- A JSON value. -/
inductive Json
  | null
  | boolean (b : Bool)
  /-- An integer literal; zero may have a sign. -/
  | integer (negative : Bool) (magnitude : Nat)
  /-- A number written with a fraction or an exponent. -/
  | real
  /-- A string, if its escapes spell characters. -/
  | string (text : Option String)
  | array (items : List Json)
  | object (members : List (Option String × Json))

namespace Json

/-- The truth value that a value is. -/
def toBool? : Json → Option Bool
  | boolean b => some b
  | _ => none

/-- The text that a value is. -/
def toText? : Json → Option String
  | string text => text
  | _ => none

/-- The number that a literal without sign, fraction and exponent is. -/
def toNat? : Json → Option Nat
  | integer false n => some n
  | _ => none

/-- The number that a literal without fraction and exponent is. -/
def toInt? : Json → Option Int
  | integer false n => some n
  | integer true n => some (-n)
  | _ => none

/-- The items of an array. -/
def toItems? : Json → Option (List Json)
  | array items => some items
  | _ => none

/-- The first member with the given key. -/
def member? (j : Json) (key : String) : Option Json :=
  match j with
  | object members => (members.find? (fun m => m.1 = some key)).map (·.2)
  | _ => none

/-- Reads a value that may be absent or `null`. -/
def optional? {α : Type} (read : Json → Option α) :
    Option Json → Option (Option α)
  | none => some none
  | some null => some none
  | some j => (read j).map some

/-- Reads every item of a list of values. -/
def readAll? {α : Type} (read : Json → Option α) (items : List Json) :
    Option (List α) :=
  items.mapM read

/-- The values of the named fields of a record.

A record is an object that has none of the fields twice, in which other keys
are not looked at, or an array of exactly the fields in order.  Keys must be
texts. -/
def fields? (names : List String) : Json → Option (List (Option Json))
  | array items =>
      if items.length = names.length then some (items.map some) else none
  | object members =>
      if members.all (fun m => m.1.isSome) &&
          names.all (fun n => members.countP (fun m => m.1 = some n) ≤ 1) then
        some (names.map (object members).member?)
      else none
  | _ => none

end Json
end EvmCheck
