import EvmCheck.Opcode

/-!
# Code and its instruction starts

Code is an array of bytes.  This module reads the immediate bytes of an
instruction (`relativeOffset?`, `tableSize?`), measures them
(`immediateLength?`), and cuts the whole code into instructions by walking from
position `0` to the position just after each instruction in turn (`starts`).

Reading past the end gives `none`; the only exception is the length of a jump
table whose size byte is missing, which counts as an empty table, so that every
byte of the code has a length of immediate data.

**Results.**
* `walk_eq`: one step of the walk.
* `walk_acc`: the walk adds to the positions it is given.
-/

namespace EvmCheck

/-- Code is a sequence of bytes. -/
abbrev Code := Array UInt8

namespace Code

/-- The integer in `-2^15 … 2^15 - 1` that two bytes stand for, the higher byte
first, in two's complement. -/
def signedPair (high low : UInt8) : Int :=
  let value : Nat := high.toNat * 256 + low.toNat
  if value < 0x8000 then value else value - 0x10000

/-- The relative offset written in the two bytes from `p` on. -/
def relativeOffset? (code : Code) (p : Nat) : Option Int :=
  match code[p]?, code[p + 1]? with
  | some high, some low => some (signedPair high low)
  | _, _ => none

/-- The number of entries that the size byte at `p` announces. -/
def tableSize? (code : Code) (p : Nat) : Option Nat :=
  code[p]?.map UInt8.toNat

/-- The first `n` relative offsets from `p` on. -/
def relativeOffsets? (code : Code) (p : Nat) : Nat → Option (List Int)
  | 0 => some []
  | n + 1 =>
      match code.relativeOffset? p, relativeOffsets? code (p + 2) n with
      | some r, some rs => some (r :: rs)
      | _, _ => none

/-- Bytes taken by a jump table: the size byte and two bytes for each entry. -/
def tableLength (entries : Nat) : Nat :=
  1 + 2 * entries

/-- Number of immediate bytes of an opcode at `p`, whether or not the code
holds all of them. -/
def operandLength (code : Code) (p : Nat) : Opcode.Operand → Nat
  | .none => 0
  | .data width => width
  | .offset => 2
  | .table => tableLength ((code.tableSize? (p + 1)).getD 0)

/-- Number of immediate bytes of the instruction at `p`, if `p` is in the code. -/
def immediateLength? (code : Code) (p : Nat) : Option Nat :=
  code[p]?.map fun op => code.operandLength p (Opcode.operand op)

/-- Number of immediate bytes of the instruction at `p`; none outside the code. -/
def immediateLength (code : Code) (p : Nat) : Nat :=
  (code.immediateLength? p).getD 0

/-- The position just after the instruction at `p`. -/
def next (code : Code) (p : Nat) : Nat :=
  p + 1 + code.immediateLength p

/-- The immediate bytes of the instruction at `p`, cut off at the end of the
code. -/
def immediate (code : Code) (p : Nat) : List UInt8 :=
  (code.extract (p + 1) (code.next p)).toList

/-- Walks from instruction to instruction and collects their positions. -/
def walk (code : Code) (p : Nat) (visited : Array Nat) : Array Nat :=
  if p < code.size then walk code (code.next p) (visited.push p) else visited
termination_by code.size - p
decreasing_by unfold next; omega

/-- The positions at which the instructions of the code start, in order. -/
def starts (code : Code) : List Nat :=
  (code.walk 0 #[]).toList

/-- One step of the walk. -/
theorem walk_eq (code : Code) (p : Nat) (visited : Array Nat) :
    code.walk p visited =
      if p < code.size then code.walk (code.next p) (visited.push p)
      else visited := by
  rw [walk]

/-- The walk only adds to the positions it is given. -/
theorem walk_acc (code : Code) (p : Nat) (visited : Array Nat) :
    code.walk p visited = visited ++ code.walk p #[] := by
  rw [walk_eq code p visited, walk_eq code p #[]]
  split
  · rw [walk_acc code (code.next p) (visited.push p),
      walk_acc code (code.next p) (#[].push p)]
    simp
  · simp
termination_by code.size - p
decreasing_by all_goals unfold next; omega

end Code
end EvmCheck
