import EvmCheck.Opcode

/-!
# Why code is rejected

A `Rejection` is the one cause that a validation reports.  It has three texts:
the name of its kind, a message for people, and a record of the kind with its
fields.  Messages write offsets in hexadecimal and the target of a stray jump,
which may be negative, in decimal; records write every number in decimal.
-/

namespace EvmCheck

/-- The cause for which a validation rejects code. -/
inductive Rejection
  /-- A byte outside the instruction set stands where an instruction starts. -/
  | undefinedOpcode (offset : Nat) (opcode : Opcode)
  /-- The code ends before a relative offset or a jump table does. -/
  | truncatedImmediate (offset : Nat) (opcode : Opcode)
  /-- A jump table has no entries. -/
  | emptyJumpTable (offset : Nat)
  /-- A relative jump leads outside the code. -/
  | jumpTargetOutOfBounds (offset : Nat) (target : Int)
  /-- The last instruction is not a terminal one. -/
  | missingTerminator
  /-- A relative jump leads to a byte of immediate data. -/
  | jumpIntoImmediateData (target : Nat)
  deriving DecidableEq

namespace Rejection

/-- The name of the kind of cause, the same for all values of its fields. -/
def kind : Rejection → String
  | undefinedOpcode _ _ => "UndefinedOpcode"
  | truncatedImmediate _ _ => "TruncatedImmediate"
  | emptyJumpTable _ => "EmptyJumpTable"
  | jumpTargetOutOfBounds _ _ => "JumpTargetOutOfBounds"
  | missingTerminator => "MissingTerminator"
  | jumpIntoImmediateData _ => "JumpIntoImmediateData"

/-- An offset as messages write it. -/
def offsetText (offset : Nat) : String :=
  "0x" ++ Text.hex offset

/-- An opcode as messages write it, with at least two digits. -/
def opcodeText (opcode : Opcode) : String :=
  "0x" ++ Text.hexPadded 2 opcode.toNat

/-- The cause in words. -/
def message : Rejection → String
  | undefinedOpcode offset opcode =>
      "undefined opcode " ++ opcodeText opcode ++ " at " ++ offsetText offset
  | truncatedImmediate offset opcode =>
      "truncated immediate of opcode " ++ opcodeText opcode ++ " at " ++
        offsetText offset
  | emptyJumpTable offset =>
      "empty jump table at " ++ offsetText offset
  | jumpTargetOutOfBounds offset target =>
      "relative jump at " ++ offsetText offset ++ " targets " ++
        Text.signed target ++ ", outside of the code"
  | missingTerminator =>
      "code does not end with a terminating instruction"
  | jumpIntoImmediateData target =>
      "relative jump target " ++ offsetText target ++
        " lands in immediate data"

/-- The fields of the cause, each with its name and its value in decimal. -/
def fields : Rejection → List (String × String)
  | undefinedOpcode offset opcode =>
      [("offset", Text.decimal offset), ("opcode", Text.decimal opcode.toNat)]
  | truncatedImmediate offset opcode =>
      [("offset", Text.decimal offset), ("opcode", Text.decimal opcode.toNat)]
  | emptyJumpTable offset =>
      [("offset", Text.decimal offset)]
  | jumpTargetOutOfBounds offset target =>
      [("offset", Text.decimal offset), ("target", Text.signed target)]
  | missingTerminator => []
  | jumpIntoImmediateData target =>
      [("target", Text.decimal target)]

/-- The cause as a record: its kind, and its fields, if any, between braces. -/
def record (r : Rejection) : String :=
  Text.record r.kind r.fields

end Rejection
end EvmCheck
