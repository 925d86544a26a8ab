import EvmCheck.Code

/-!
# Instruction listings

A listing has one line for each instruction: its position, its mnemonic, and
its immediate bytes as far as the code has them.  It is made for any code,
valid or not.
-/

namespace EvmCheck

/-- One instruction of a listing. -/
structure Line where
  /-- Where the instruction starts. -/
  position : Nat
  /-- The first byte of the instruction. -/
  opcode : Opcode
  /-- The immediate bytes that are in the code. -/
  data : List UInt8
  deriving DecidableEq

namespace Line

/-- The mnemonic, or the word for opcodes without one. -/
def mnemonic (l : Line) : String :=
  l.opcode.mnemonic?.getD "UNDEFINED"

/-- The text of a line. -/
def render (l : Line) : String :=
  Text.hexPadded 4 l.position ++ ": " ++ l.mnemonic ++
    (if l.data.isEmpty then "" else " 0x" ++ Text.bytes l.data)

end Line

namespace Code

/-- The line for the instruction at `p`. -/
def lineAt (code : Code) (p : Nat) : Line where
  position := p
  opcode := code.getD p 0
  data := code.immediate p

/-- The instructions of the code, in order. -/
def listing (code : Code) : List Line :=
  code.starts.map code.lineAt

/-- The listing as text, without a line feed at the end. -/
def disassemble (code : Code) : String :=
  "\n".intercalate (code.listing.map Line.render)

end Code
end EvmCheck
