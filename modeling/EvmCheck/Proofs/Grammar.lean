import EvmCheck.Proofs.Instruction
import EvmCheck.Proofs.Verdict

/-!
# The grammar of accepted code

A program is a list of instructions, written one after the other.  It is well
formed when it is not empty, its last instruction is terminal, and each relative
offset, counted from the end of its instruction, leads to the start of an
instruction of the program.

**Results.**
* `wellFormed_iff`: the rules for code are those for the program that it spells.
* `accepted_iff_spells_wellFormed`: code is accepted exactly when it spells a
  well-formed program, and no code spells two programs.
-/

namespace EvmCheck
namespace Instruction

/-- The bytes of a program. -/
def encodeAll (program : List Instruction) : List UInt8 :=
  program.flatMap encode

/-- The instructions of a program, each with the position where it starts. -/
def layout : Nat → List Instruction → List (Nat × Instruction)
  | _, [] => []
  | p, i :: program => (p, i) :: layout (p + i.encode.length) program

/-- A program that may be executed. -/
structure WellFormed (program : List Instruction) : Prop where
  nonempty : program ≠ []
  terminal : ∀ i, program.getLast? = some i → i.opcode.isTerminal = true
  lands : ∀ p i, (p, i) ∈ layout 0 program → ∀ offset ∈ i.offsets,
    ∃ q j, (q, j) ∈ layout 0 program ∧
      (p + i.encode.length : Int) + offset.toInt = q

variable {code : Code} {program : List Instruction} {p q : Nat} {i : Instruction}

/-- No bytes spell two programs. -/
theorem encodeAll_injective {program program' : List Instruction}
    (h : encodeAll program = encodeAll program') : program = program' := by
  induction program generalizing program' with
  | nil =>
      cases program' with
      | nil => rfl
      | cons i' program' => simp [encodeAll, encode] at h
  | cons i program ih =>
      cases program' with
      | nil => simp [encodeAll, encode] at h
      | cons i' program' =>
          obtain ⟨rfl, hrest⟩ := encode_prefix_free h
          rw [ih hrest]

/-- The instructions of a program are laid out from start to start. -/
theorem map_fst_layout (h : code.toList.drop p = encodeAll program) :
    (layout p program).map Prod.fst = code.startsFrom p := by
  induction program generalizing p with
  | nil =>
      have hle : code.size ≤ p := by simpa using List.drop_eq_nil_iff.mp h
      rw [Code.startsFrom_of_le hle]
      rfl
  | cons i program ih =>
      obtain ⟨hop, hnext, -⟩ := Code.reads_of_drop h
      have hlt : p < code.size := (Array.getElem?_eq_some_iff.mp hop).1
      rw [Code.startsFrom_of_lt hlt, hnext, ← ih (Code.drop_add_of_drop h)]
      rfl

/-- Each instruction of a program is written at its position. -/
theorem drop_of_mem_layout (h : code.toList.drop p = encodeAll program)
    (hmem : (q, i) ∈ layout p program) :
    ∃ rest, code.toList.drop q = i.encode ++ rest := by
  induction program generalizing p with
  | nil =>
      cases hmem
  | cons j program ih =>
      rcases List.mem_cons.mp hmem with heq | hmem
      · obtain ⟨rfl, rfl⟩ := Prod.mk.inj heq
        exact ⟨encodeAll program, h⟩
      · exact ih (Code.drop_add_of_drop h) hmem

/-- The last instruction of a program ends with the code. -/
theorem exists_last_layout (h : code.toList.drop p = encodeAll program)
    (hne : program ≠ []) :
    ∃ q i, program.getLast? = some i ∧ (q, i) ∈ layout p program ∧
      code.size ≤ code.next q := by
  induction program generalizing p with
  | nil =>
      exact absurd rfl hne
  | cons j program ih =>
      have hrest := Code.drop_add_of_drop h
      cases program with
      | nil =>
          obtain ⟨-, hnext, -⟩ := Code.reads_of_drop h
          have hle : code.size ≤ p + j.encode.length := by
            simpa using List.drop_eq_nil_iff.mp hrest
          exact ⟨p, j, rfl, List.mem_cons_self, by omega⟩
      | cons k program =>
          obtain ⟨q, i, hlast, hmem, hle⟩ := ih hrest (List.cons_ne_nil k program)
          exact ⟨q, i, hlast, List.mem_cons_of_mem _ hmem, hle⟩

section Spelling

variable (h : code.toList = encodeAll program)
include h

theorem isStart_iff_layout :
    code.IsStart q ↔ ∃ i, (q, i) ∈ layout 0 program := by
  have hstarts : (layout 0 program).map Prod.fst = code.starts := map_fst_layout h
  rw [← Code.mem_starts_iff, ← hstarts]
  simp

theorem exists_drop_layout (hmem : (p, i) ∈ layout 0 program) :
    ∃ rest, code.toList.drop p = i.encode ++ rest := by
  have h₀ : code.toList.drop 0 = encodeAll program := h
  exact drop_of_mem_layout h₀ hmem

theorem getElem?_layout (hmem : (p, i) ∈ layout 0 program) :
    code[p]? = some i.opcode := by
  obtain ⟨rest, hdrop⟩ := exists_drop_layout h hmem
  exact (Code.reads_of_drop hdrop).1

theorem mem_jumpTargets_iff (hmem : (p, i) ∈ layout 0 program) {target : Int} :
    target ∈ code.jumpTargets p ↔
      ∃ offset ∈ i.offsets, (p + i.encode.length : Int) + offset.toInt = target := by
  obtain ⟨rest, hdrop⟩ := exists_drop_layout h hmem
  obtain ⟨-, hnext, hoffsets⟩ := Code.reads_of_drop hdrop
  simp [Code.jumpTargets, hnext, hoffsets]

theorem exists_last_of_spells (hne : program ≠ []) :
    ∃ p i, program.getLast? = some i ∧ (p, i) ∈ layout 0 program ∧
      code.IsLast p := by
  have h₀ : code.toList.drop 0 = encodeAll program := h
  obtain ⟨p, i, hlast, hmem, hle⟩ := exists_last_layout h₀ hne
  have hp : code.IsStart p := (isStart_iff_layout h).mpr ⟨i, hmem⟩
  exact ⟨p, i, hlast, hmem, Code.isLast_iff.mpr ⟨hp, hle⟩⟩

theorem WellFormed.isStart_of_mem_jumpTargets (hwf : WellFormed program)
    (hmem : (p, i) ∈ layout 0 program) {target : Int}
    (htarget : target ∈ code.jumpTargets p) :
    ∃ q : Nat, target = q ∧ code.IsStart q := by
  obtain ⟨offset, hoffset, rfl⟩ := (mem_jumpTargets_iff h hmem).mp htarget
  obtain ⟨q, j, hq, hlands⟩ := hwf.lands p i hmem offset hoffset
  exact ⟨q, hlands, (isStart_iff_layout h).mpr ⟨j, hq⟩⟩

/-- The rules for code are those for the program that it spells. -/
theorem wellFormed_iff :
    WellFormed program ↔
      code.Sound ∧ code.EndsTerminal ∧
        ∀ t, code.IsJumpTarget t → code.IsStart t := by
  constructor
  · intro hwf
    refine ⟨?_, ?_, ?_⟩
    · intro p hp
      obtain ⟨i, hmem⟩ := (isStart_iff_layout h).mp hp
      obtain ⟨rest, hdrop⟩ := exists_drop_layout h hmem
      apply Code.violation?_of_drop hdrop
      intro target htarget
      obtain ⟨q, rfl, hq⟩ := hwf.isStart_of_mem_jumpTargets h hmem htarget
      have := hq.lt_size
      omega
    · obtain ⟨p, i, hlast, hmem, hp⟩ := exists_last_of_spells h hwf.nonempty
      exact ⟨p, i.opcode, hp, getElem?_layout h hmem, hwf.terminal i hlast⟩
    · rintro t ⟨p, hp, htarget⟩
      obtain ⟨i, hmem⟩ := (isStart_iff_layout h).mp hp
      obtain ⟨q, hq, hstart⟩ := hwf.isStart_of_mem_jumpTargets h hmem htarget
      rw [Int.ofNat.inj hq]
      exact hstart
  · rintro ⟨hsound, ⟨p, op, hp, hop, hterminal⟩, htargets⟩
    have hne : program ≠ [] := by
      rintro rfl
      obtain ⟨i, hmem⟩ := (isStart_iff_layout h).mp hp.1
      cases hmem
    refine ⟨hne, ?_, ?_⟩
    · intro i hi
      obtain ⟨q, j, hlast, hmem, hq⟩ := exists_last_of_spells h hne
      rw [hi, Option.some.injEq] at hlast
      obtain rfl := hq.eq hp
      rw [getElem?_layout h hmem, Option.some.injEq, ← hlast] at hop
      rw [hop]
      exact hterminal
    · intro p i hmem offset hoffset
      have hp : code.IsStart p := (isStart_iff_layout h).mpr ⟨i, hmem⟩
      have htarget := (mem_jumpTargets_iff h hmem).mpr ⟨offset, hoffset, rfl⟩
      obtain ⟨-, -, -, hin⟩ :=
        (Code.violation?_eq_none_iff (getElem?_layout h hmem)).mp (hsound p hp)
      obtain ⟨t, ht⟩ := Int.eq_ofNat_of_zero_le (hin _ htarget).1
      rw [ht] at htarget ⊢
      obtain ⟨j, hj⟩ := (isStart_iff_layout h).mp (htargets t ⟨p, hp, htarget⟩)
      exact ⟨t, j, hj, rfl⟩

end Spelling

end Instruction

namespace Code

variable {code : Code}

/-- Accepted code spells a program. -/
theorem Accepted.exists_program {s : PositionSet} (h : code.Accepted s) :
    ∃ program, code.toList = Instruction.encodeAll program := by
  suffices hfrom : ∀ p, (p < code.size → code.IsStart p) →
      ∃ program, code.toList.drop p = Instruction.encodeAll program from
    hfrom 0 IsStart.first
  intro p
  induction p using walk_induction code with
  | done p hle =>
      intro _
      exact ⟨[], List.drop_eq_nil_iff.mpr (by simpa using hle)⟩
  | step p hlt ih =>
      intro hstart
      have hp := hstart hlt
      obtain ⟨op, hop⟩ := getElem?_of_isStart hp
      obtain ⟨i, hi⟩ := exists_instruction hop (h.sound p hp) (h.next_le_size hp)
      obtain ⟨program, hprogram⟩ := ih (fun hnext => .next hp hnext)
      refine ⟨i :: program, ?_⟩
      rw [hi, hprogram]
      rfl

/-- **Acceptance is the instruction grammar.**  Code is accepted exactly when it
spells a well-formed program, and no code spells two programs. -/
theorem accepted_iff_spells_wellFormed (code : Code) :
    ((∃ s, code.validate = .accepted s) ↔
      ∃ program, Instruction.WellFormed program ∧
        Instruction.encodeAll program = code.toList) ∧
    (∀ program program', Instruction.encodeAll program = code.toList →
      Instruction.encodeAll program' = code.toList → program = program') := by
  refine ⟨⟨?_, ?_⟩, ?_⟩
  · rintro ⟨s, hs⟩
    obtain ⟨program, hprogram⟩ := (validate_eq_accepted_iff.mp hs).exists_program
    refine ⟨program, ?_, hprogram.symm⟩
    exact (Instruction.wellFormed_iff hprogram).mpr (exists_accepted_iff.mp ⟨s, hs⟩)
  · rintro ⟨program, hwellFormed, hprogram⟩
    exact exists_accepted_iff.mpr
      ((Instruction.wellFormed_iff hprogram.symm).mp hwellFormed)
  · intro program program' hprogram hprogram'
    exact Instruction.encodeAll_injective (hprogram.trans hprogram'.symm)

/-- A jump over `INVALID` to a marker, and a conditional jump back to it. -/
theorem spells_forward_and_backward_jumps :
    ∃ program, Instruction.WellFormed program ∧
      Instruction.encodeAll program =
        [0x5c, 0x00, 0x01, 0xfe, 0x5b, 0x5d, 0xff, 0xfc, 0x00] :=
  (accepted_iff_spells_wellFormed
    #[0x5c, 0x00, 0x01, 0xfe, 0x5b, 0x5d, 0xff, 0xfc, 0x00]).1.mp
    ⟨(PositionSet.empty 9).insert 4, by decide +kernel⟩

end Code
end EvmCheck
