import EvmCheck.Proofs.Verdict
import Mathlib.Logic.Relation

/-!
# Control flow of accepted code

`Flow` says where control may pass from an instruction: to the next one, to the
targets of its relative jumps, or, from a dynamic jump, to any jump
destination.  Targets are exact integers, so that nothing in the definition
keeps control inside the code.

For accepted code it stays there.  What one passage of control keeps is that the
position is an instruction start; from this follows what holds along every path
from the first byte.

**Results.**
* `Accepted.isStart_of_flow`: control passes from starts to starts only.
* `flow_closed`: every position on every path holds a whole instruction.
-/

namespace EvmCheck

/-- Dynamic jump. -/
def Opcode.jump : Opcode := 0x56

/-- Conditional dynamic jump. -/
def Opcode.jumpi : Opcode := 0x57

namespace Code

variable {code : Code} {jumpdests : PositionSet} {p : Nat}

/-- Where control may pass from a position, when dynamic jumps may lead to the
members of `jumpdests`. -/
inductive Flow (code : Code) (jumpdests : PositionSet) : Int → Int → Prop
  /-- On to the next instruction, unless this one ends the execution or jumps
  in any case. -/
  | next {p : Nat} {op : Opcode} (hop : code[p]? = some op)
      (hterminal : op.isTerminal = false) (hrjump : op ≠ .rjump)
      (hjump : op ≠ .jump) :
      Flow code jumpdests p (code.next p)
  /-- To the target of a relative jump, or to one of its table. -/
  | relative {p : Nat} {op : Opcode} {target : Int} (hop : code[p]? = some op)
      (hrelative : op = .rjump ∨ op = .rjumpi ∨ op = .rjumpv)
      (htarget : target ∈ code.jumpTargets p) :
      Flow code jumpdests p target
  /-- To any jump destination. -/
  | dynamic {p q : Nat} {op : Opcode} (hop : code[p]? = some op)
      (hdynamic : op = .jump ∨ op = .jumpi)
      (hq : jumpdests.contains q = true) :
      Flow code jumpdests p q

/-- Control passes from instruction starts to instruction starts only. -/
theorem Accepted.isStart_of_flow (h : code.Accepted jumpdests) {q : Int}
    (hp : code.IsStart p) (hflow : code.Flow jumpdests p q) :
    ∃ q' : Nat, q = q' ∧ code.IsStart q' := by
  generalize hp' : (p : Int) = p' at hflow
  cases hflow with
  | @next r op hop hterminal _ _ =>
      obtain rfl := Int.ofNat.inj hp'
      exact ⟨code.next p, rfl, h.next_isStart hp hop hterminal⟩
  | @relative r op _ hop _ htarget =>
      obtain rfl := Int.ofNat.inj hp'
      obtain ⟨-, -, -, hin⟩ := (violation?_eq_none_iff hop).mp (h.sound p hp)
      obtain ⟨t, rfl⟩ := Int.eq_ofNat_of_zero_le (hin q htarget).1
      exact ⟨t, rfl, h.isStart_of_isJumpTarget t ⟨p, hp, htarget⟩⟩
  | @dynamic r q op _ _ hq =>
      exact ⟨q, rfl, ((h.contains_iff q).mp hq).1⟩

theorem Accepted.isStart_of_path (h : code.Accepted jumpdests) {q : Int}
    (hpath : Relation.ReflTransGen (code.Flow jumpdests) 0 q) :
    ∃ p : Nat, q = p ∧ code.IsStart p := by
  induction hpath with
  | refl =>
      obtain ⟨p, _, hlast, _⟩ := h.endsTerminal
      have hpos : 0 < code.size := Nat.lt_of_le_of_lt (Nat.zero_le p) hlast.1.lt_size
      exact ⟨0, rfl, .first hpos⟩
  | tail _ hflow ih =>
      obtain ⟨p, rfl, hp⟩ := ih
      exact h.isStart_of_flow hp hflow

/-- **Control flow closure.**  Along every path from the first byte of accepted
code, each position is one in the code, holds a defined opcode, is an
instruction start and so no immediate byte of any instruction, and has all its
immediate bytes in the code. -/
theorem flow_closed (h : code.validate = .accepted jumpdests) {q : Int}
    (hpath : Relation.ReflTransGen (code.Flow jumpdests) 0 q) :
    ∃ p : Nat, q = p ∧ p < code.size ∧
      (∃ op, code[p]? = some op ∧ Opcode.isDefined op = true) ∧
      code.IsStart p ∧
      (∀ r, code.IsStart r → ¬ (r < p ∧ p < code.next r)) ∧
      code.next p ≤ code.size := by
  have haccepted := validate_eq_accepted_iff.mp h
  obtain ⟨p, rfl, hp⟩ := haccepted.isStart_of_path hpath
  obtain ⟨op, hop⟩ := getElem?_of_isStart hp
  obtain ⟨hdefined, -⟩ := (violation?_eq_none_iff hop).mp (haccepted.sound p hp)
  refine ⟨p, rfl, hp.lt_size, ⟨op, hop, hdefined⟩, hp, ?_,
    haccepted.next_le_size hp⟩
  rintro r hr ⟨hlt, hnext⟩
  exact hr.not_isStart hlt hnext hp

/-- A jump over `INVALID` to a marker, and a conditional jump back to it. -/
def loop : Code :=
  #[0x5c, 0x00, 0x01, 0xfe, 0x5b, 0x5d, 0xff, 0xfc, 0x00]

/-- The path goes forward to the marker, on to the next instruction and back. -/
theorem loop_flow_closed :
    loop.validate = .accepted ((PositionSet.empty 9).insert 4) ∧
    Relation.ReflTransGen (loop.Flow ((PositionSet.empty 9).insert 4)) 0 4 ∧
    ∃ p : Nat, (4 : Int) = p ∧ p < loop.size ∧ loop.IsStart p ∧
      loop.next p ≤ loop.size := by
  have hvalidate : loop.validate = .accepted ((PositionSet.empty 9).insert 4) := by
    decide +kernel
  have hop₀ : loop[0]? = some Opcode.rjump := rfl
  have hop₄ : loop[4]? = some Opcode.jumpdest := rfl
  have hop₅ : loop[5]? = some Opcode.rjumpi := rfl
  have hforward : loop.Flow ((PositionSet.empty 9).insert 4) 0 4 :=
    .relative hop₀ (by decide) (by decide)
  have hon : loop.Flow ((PositionSet.empty 9).insert 4) 4 5 :=
    .next hop₄ (by decide) (by decide) (by decide)
  have hback : loop.Flow ((PositionSet.empty 9).insert 4) 5 4 :=
    .relative hop₅ (by decide) (by decide)
  have hpath : Relation.ReflTransGen
      (loop.Flow ((PositionSet.empty 9).insert 4)) 0 4 :=
    ((Relation.ReflTransGen.single hforward).tail hon).tail hback
  obtain ⟨p, hp, hlt, -, hstart, -, hnext⟩ := flow_closed hvalidate hpath
  exact ⟨hvalidate, hpath, p, hp, hlt, hstart, hnext⟩

end Code
end EvmCheck
