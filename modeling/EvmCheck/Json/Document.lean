import EvmCheck.Json.Basic
import EvmCheck.Json.Token

/-!
# JSON documents

A document is read token by token.  The `State` says which tokens may come
next, and keeps the arrays and objects that are still open, the innermost
first, with what they hold so far in reverse.  Nesting may be of any depth.
-/

namespace EvmCheck
namespace Json

/-- An array or an object that waits for the end of a value inside it. -/
inductive Frame
  /-- An array with its items so far, the last one first. -/
  | array (items : List Json)
  /-- An object with its members so far, the last one first, and the key of the
  value to come. -/
  | object (members : List (Option String × Json)) (key : Option String)

/-- What has been read of a document. -/
inductive State
  /-- A value must come. -/
  | value (outer : List Frame)
  /-- An array has been opened: a value or its end must come. -/
  | firstItem (outer : List Frame)
  /-- An array has got an item: a comma or its end must come. -/
  | afterItem (items : List Json) (outer : List Frame)
  /-- An object has been opened: a key or its end must come. -/
  | firstKey (outer : List Frame)
  /-- A key must come. -/
  | key (members : List (Option String × Json)) (outer : List Frame)
  /-- A key has been read: a colon must come. -/
  | afterKey (members : List (Option String × Json)) (key : Option String)
      (outer : List Frame)
  /-- An object has got a member: a comma or its end must come. -/
  | afterMember (members : List (Option String × Json)) (outer : List Frame)
  /-- The document is complete. -/
  | complete (document : Json)

namespace State

/-- Puts a complete value where it belongs. -/
def place (v : Json) : List Frame → State
  | [] => .complete v
  | .array items :: outer => .afterItem (v :: items) outer
  | .object members k :: outer => .afterMember ((k, v) :: members) outer

/-- Reads the first token of a value. -/
def begin? (outer : List Frame) : Token → Option State
  | .openArray => some (.firstItem outer)
  | .openObject => some (.firstKey outer)
  | .null => some (place .null outer)
  | .boolean b => some (place (.boolean b) outer)
  | .integer negative n => some (place (.integer negative n) outer)
  | .real => some (place .real outer)
  | .string text => some (place (.string text) outer)
  | _ => none

/-- Reads one token. -/
def step? : State → Token → Option State
  | value outer, t => begin? outer t
  | firstItem outer, .closeArray => some (place (.array []) outer)
  | firstItem outer, t => begin? (.array [] :: outer) t
  | afterItem items outer, .comma => some (.value (.array items :: outer))
  | afterItem items outer, .closeArray =>
      some (place (.array items.reverse) outer)
  | firstKey outer, .closeObject => some (place (.object []) outer)
  | firstKey outer, .string k => some (.afterKey [] k outer)
  | key members outer, .string k => some (.afterKey members k outer)
  | afterKey members k outer, .colon =>
      some (.value (.object members k :: outer))
  | afterMember members outer, .comma => some (.key members outer)
  | afterMember members outer, .closeObject =>
      some (place (.object members.reverse) outer)
  | _, _ => none

end State

/-- The document that a sequence of tokens is. -/
def ofTokens? (tokens : Array Token) : Option Json :=
  match tokens.foldlM State.step? (State.value []) with
  | some (.complete document) => some document
  | _ => none

/-- Reads a JSON document. -/
def parse? (text : String) : Option Json :=
  match tokens? text with
  | some tokens => ofTokens? tokens
  | none => none

end Json
end EvmCheck
