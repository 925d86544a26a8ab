import EvmCheck.Json.Document
import EvmCheck.Outcome

/-!
# Fixtures: files of validation cases

A fixture is a JSON array of cases.  A case gives code in hexadecimal and what
its validation must come to.  Cases, codes and expectations are records in the
sense of `Json.fields?`.
-/

namespace EvmCheck

/-- What the validation of a case must come to. -/
structure Expectation where
  /-- Whether the code is valid. -/
  valid : Bool
  /-- The kind of the cause for which the code is rejected. -/
  error : Option String
  /-- The jump destinations of valid code. -/
  jumpdests : Option (List Nat)
  deriving DecidableEq

/-- One case of a fixture. -/
structure Case where
  /-- What the case is called. -/
  name : String
  /-- Advice for the reader of a failure. -/
  hint : Option String
  /-- The instructions of the code as the author of the case wrote them. -/
  assembly : Option String
  /-- The code in hexadecimal. -/
  code : String
  /-- What its validation must come to. -/
  expected : Expectation
  deriving DecidableEq

namespace Expectation

/-- Whether an outcome is as expected.  The kind of the cause is looked at for
rejected code only, the jump destinations for accepted code only. -/
def isMetBy (e : Expectation) : Outcome → Bool
  | .accepted jumpdests =>
      e.valid && (e.jumpdests.all fun ps => ps = jumpdests.toList)
  | .rejected cause =>
      !e.valid && (e.error.all fun kind => kind = cause.kind)

/-- All positions are below this bound, two to the power of 64. -/
def positionBound : Nat := 0x10000000000000000

/-- Reads a position. -/
def position? (j : Json) : Option Nat :=
  j.toNat?.filter (fun n => n < positionBound)

/-- Reads a list of positions. -/
def positions? (j : Json) : Option (List Nat) :=
  j.toItems?.bind (Json.readAll? position?)

/-- Reads an expectation. -/
def ofJson? (j : Json) : Option Expectation :=
  match j.fields? ["valid", "error", "jumpdests"] with
  | some [some valid, error, jumpdests] => do
      let valid ← valid.toBool?
      let error ← Json.optional? Json.toText? error
      let jumpdests ← Json.optional? positions? jumpdests
      return { valid := valid, error := error, jumpdests := jumpdests }
  | _ => none

end Expectation

namespace Case

/-- Reads the assembly, if given, and the hexadecimal text of a code. -/
def codeOfJson? (j : Json) : Option (Option String × String) :=
  match j.fields? ["asm", "bin"] with
  | some [assembly, some code] => do
      let assembly ← Json.optional? Json.toText? assembly
      let code ← code.toText?
      return (assembly, code)
  | _ => none

/-- Reads a case. -/
def ofJson? (j : Json) : Option Case :=
  match j.fields? ["name", "hint", "code", "expect"] with
  | some [some name, hint, some code, some expected] => do
      let name ← name.toText?
      let hint ← Json.optional? Json.toText? hint
      let code ← codeOfJson? code
      let expected ← Expectation.ofJson? expected
      return {
        name := name
        hint := hint
        assembly := code.1
        code := code.2
        expected := expected }
  | _ => none

/-- Reads the cases of a fixture. -/
def ofText? (text : String) : Option (List Case) := do
  let document ← Json.parse? text
  let items ← document.toItems?
  Json.readAll? ofJson? items

end Case
end EvmCheck
