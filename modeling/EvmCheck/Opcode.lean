import EvmCheck.Text

/-!
# Opcodes

An opcode is one byte.  Three questions are asked about it:

* its `Kind`: whether it is defined, and if so whether it ends the execution
  (`terminal`), marks a destination of dynamic jumps (`marker`), or neither;
* its `Operand`: what kind of immediate bytes follow it in the code;
* its mnemonic, which exactly the defined opcodes have.
-/

namespace EvmCheck

/-- An opcode is the first byte of an instruction. -/
abbrev Opcode := UInt8

namespace Opcode

/-- What the validator needs to know about an opcode apart from its operand. -/
inductive Kind
  | undefined
  | plain
  | terminal
  | marker
  deriving DecidableEq, Repr

/-- The immediate bytes that follow an opcode. -/
inductive Operand
  /-- No immediate bytes. -/
  | none
  /-- A fixed number of arbitrary bytes. -/
  | data (width : Nat)
  /-- One relative offset. -/
  | offset
  /-- A size byte followed by that many relative offsets. -/
  | table
  deriving DecidableEq, Repr

/-- The opcode that marks a destination of dynamic jumps. -/
def jumpdest : Opcode := 0x5b

/-- Relative jump. -/
def rjump : Opcode := 0x5c

/-- Conditional relative jump. -/
def rjumpi : Opcode := 0x5d

/-- Relative jump through a table. -/
def rjumpv : Opcode := 0x5e

/-- Opcodes after which execution does not go on: `STOP`, `RETURN`, `REVERT`,
`INVALID` and `SELFDESTRUCT`. -/
def terminals : List Opcode :=
  [0x00, 0xf3, 0xfd, 0xfe, 0xff]

/-- The defined opcodes, as ranges of bytes with both ends included. -/
def definedRanges : List (Opcode × Opcode) :=
  [(0x00, 0x0b), (0x10, 0x1d), (0x20, 0x20), (0x30, 0x3f), (0x40, 0x48),
    (0x50, 0xa4), (0xf0, 0xf5), (0xfa, 0xfa), (0xfd, 0xff)]

/-- The kind of an opcode. -/
def kind (op : Opcode) : Kind :=
  if op = jumpdest then .marker
  else if terminals.contains op then .terminal
  else if definedRanges.any (fun r => r.1 ≤ op && op ≤ r.2) then .plain
  else .undefined

/-- Whether the opcode belongs to the instruction set. -/
def isDefined (op : Opcode) : Bool :=
  op.kind ≠ .undefined

/-- Whether the opcode ends the execution. -/
def isTerminal (op : Opcode) : Bool :=
  op.kind = .terminal

/-- Whether the opcode marks a destination of dynamic jumps. -/
def isMarker (op : Opcode) : Bool :=
  op.kind = .marker

/-- Number of data bytes of a push opcode; the push of zero has none and does
not count as one. -/
def pushWidth? (op : Opcode) : Option Nat :=
  if 0x60 ≤ op ∧ op ≤ 0x7f then some (op.toNat - 0x5f) else none

/-- The operand of an opcode. -/
def operand (op : Opcode) : Operand :=
  if op = rjump ∨ op = rjumpi then .offset
  else if op = rjumpv then .table
  else
    match op.pushWidth? with
    | some width => .data width
    | none => .none

/-- The mnemonics of `count` opcodes that differ in a number only. -/
def numbered (stem : String) (first count : Nat) : List String :=
  (List.range count).map (fun i => stem ++ Text.decimal (first + i))

/-- The mnemonics, as runs of consecutive opcodes from a first byte. -/
def mnemonicRuns : List (Nat × List String) :=
  [(0x00,
      ["STOP", "ADD", "MUL", "SUB", "DIV", "SDIV", "MOD", "SMOD", "ADDMOD",
        "MULMOD", "EXP", "SIGNEXTEND"]),
    (0x10,
      ["LT", "GT", "SLT", "SGT", "EQ", "ISZERO", "AND", "OR", "XOR", "NOT",
        "BYTE", "SHL", "SHR", "SAR"]),
    (0x20, ["SHA3"]),
    (0x30,
      ["ADDRESS", "BALANCE", "ORIGIN", "CALLER", "CALLVALUE", "CALLDATALOAD",
        "CALLDATASIZE", "CALLDATACOPY", "CODESIZE", "CODECOPY", "GASPRICE",
        "EXTCODESIZE", "EXTCODECOPY", "RETURNDATASIZE", "RETURNDATACOPY",
        "EXTCODEHASH"]),
    (0x40,
      ["BLOCKHASH", "COINBASE", "TIMESTAMP", "NUMBER", "DIFFICULTY",
        "GASLIMIT", "CHAINID", "SELFBALANCE", "BASEFEE"]),
    (0x50,
      ["POP", "MLOAD", "MSTORE", "MSTORE8", "SLOAD", "SSTORE", "JUMP",
        "JUMPI", "PC", "MSIZE", "GAS", "JUMPDEST", "RJUMP", "RJUMPI",
        "RJUMPV"]),
    (0x5f, numbered "PUSH" 0 33),
    (0x80, numbered "DUP" 1 16),
    (0x90, numbered "SWAP" 1 16),
    (0xa0, numbered "LOG" 0 5),
    (0xf0, ["CREATE", "CALL", "CALLCODE", "RETURN", "DELEGATECALL", "CREATE2"]),
    (0xfa, ["STATICCALL"]),
    (0xfd, ["REVERT", "INVALID", "SELFDESTRUCT"])]

/-- The mnemonic of an opcode, if it has one. -/
def mnemonic? (op : Opcode) : Option String :=
  mnemonicRuns.findSome? fun run =>
    if run.1 ≤ op.toNat then run.2[op.toNat - run.1]? else none

end Opcode
end EvmCheck
