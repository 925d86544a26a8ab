import EvmCheck.Proofs.Violation
import Mathlib.Data.List.Basic

/-!
# Instructions depend on their own bytes

Where an instruction ends and which relative offsets it has is decided by its
opcode and its immediate bytes, wherever in whichever code it stands.

`ReadsAs code p code' q` says that the instruction at `q` of `code'` is made as
the one at `p` of `code` is.  The data of a push are left out, since nothing
reads them.  Code that is moved, extended or changed in part is related to the
original through this relation, one instruction at a time.

**Results.**
* `ReadsAs.immediateLength_eq`: both have the same length.
* `ReadsAs.jumpTargets_eq`: their relative jumps lead equally far.
* `ReadsAs.examine_eq`: the survey finds the same in code of the same size.
-/

namespace EvmCheck
namespace Code

variable {code code' : Code} {p q : Nat} {op : Opcode}

/-- The instruction at `q` of `code'` is made as the one at `p` of `code` is. -/
structure ReadsAs (code : Code) (p : Nat) (code' : Code) (q : Nat) : Prop where
  operand_eq : code'[q]?.map Opcode.operand = code[p]?.map Opcode.operand
  bytes_eq : (∀ width, code[p]?.map Opcode.operand ≠ some (.data width)) →
    ∀ k, k < code.immediateLength p → code'[q + 1 + k]? = code[p + 1 + k]?

/-! ### Readers of equal bytes -/

theorem relativeOffset?_congr (h₀ : code'[q]? = code[p]?)
    (h₁ : code'[q + 1]? = code[p + 1]?) :
    code'.relativeOffset? q = code.relativeOffset? p := by
  simp only [relativeOffset?, h₀, h₁]

theorem relativeOffsets?_congr {n : Nat}
    (h : ∀ k, k < 2 * n → code'[q + k]? = code[p + k]?) :
    code'.relativeOffsets? q n = code.relativeOffsets? p n := by
  induction n generalizing p q with
  | zero =>
      rfl
  | succ n ih =>
      have hfirst : code'.relativeOffset? q = code.relativeOffset? p :=
        relativeOffset?_congr (h 0 (by omega)) (h 1 (by omega))
      have hrest : code'.relativeOffsets? (q + 2) n =
          code.relativeOffsets? (p + 2) n := by
        apply ih
        intro k hk
        rw [Nat.add_assoc, Nat.add_assoc]
        exact h (2 + k) (by omega)
      simp only [relativeOffsets?, hfirst, hrest]

namespace ReadsAs

variable (h : ReadsAs code p code' q)
include h

theorem exists_opcode (hop : code[p]? = some op) :
    ∃ op' : Opcode, code'[q]? = some op' ∧ op'.operand = op.operand := by
  have hoperand := h.operand_eq
  rw [hop, Option.map_some] at hoperand
  exact Option.map_eq_some_iff.mp hoperand

theorem byte_eq (hop : code[p]? = some op) (hdata : ∀ width, op.operand ≠ .data width)
    {k : Nat} (hk : k < code.operandLength p op.operand) :
    code'[q + 1 + k]? = code[p + 1 + k]? := by
  rw [← immediateLength_of_operand hop] at hk
  refine h.bytes_eq ?_ k hk
  intro width
  rw [hop, Option.map_some, ne_eq, Option.some.injEq]
  exact hdata width

theorem tableSize?_eq (hop : code[p]? = some op) (htable : op.operand = .table) :
    code'.tableSize? (q + 1) = code.tableSize? (p + 1) := by
  have hbyte : code'[q + 1 + 0]? = code[p + 1 + 0]? := by
    refine h.byte_eq hop (by simp [htable]) ?_
    rw [htable, operandLength, tableLength]
    omega
  unfold tableSize?
  rw [Nat.add_zero, Nat.add_zero] at hbyte
  rw [hbyte]

theorem entryCount_eq (hop : code[p]? = some op) (htable : op.operand = .table) :
    code'.entryCount q = code.entryCount p := by
  rw [entryCount, h.tableSize?_eq hop htable, entryCount]

theorem entries_eq (hop : code[p]? = some op) (htable : op.operand = .table)
    {k : Nat} (hk : k < 2 * code.entryCount p) :
    code'[q + 2 + k]? = code[p + 2 + k]? := by
  have hbyte : code'[q + 1 + (k + 1)]? = code[p + 1 + (k + 1)]? := by
    refine h.byte_eq hop (by simp [htable]) ?_
    rw [htable, operandLength, tableLength]
    unfold entryCount at hk
    omega
  rw [show q + 2 + k = q + 1 + (k + 1) by omega,
    show p + 2 + k = p + 1 + (k + 1) by omega]
  exact hbyte

theorem relativeOffset?_eq (hop : code[p]? = some op) (hoffset : op.operand = .offset) :
    code'.relativeOffset? (q + 1) = code.relativeOffset? (p + 1) := by
  have hdata : ∀ width, op.operand ≠ .data width := by simp [hoffset]
  have hlength : code.operandLength p op.operand = 2 := by
    rw [hoffset]
    rfl
  apply relativeOffset?_congr
  · exact h.byte_eq hop hdata (k := 0) (by omega)
  · exact h.byte_eq hop hdata (k := 1) (by omega)

/-- Both instructions have as many immediate bytes. -/
theorem immediateLength_eq : code'.immediateLength q = code.immediateLength p := by
  cases hop : code[p]? with
  | none =>
      have hnone : code'[q]? = none := by
        simpa [hop] using h.operand_eq
      simp [immediateLength, immediateLength?, hop, hnone]
  | some op =>
      obtain ⟨op', hop', hoperand⟩ := h.exists_opcode hop
      rw [immediateLength_of_operand hop', immediateLength_of_operand hop, hoperand]
      cases htable : Opcode.operand op with
      | none => rfl
      | data width => rfl
      | offset => rfl
      | table =>
          rw [operandLength, operandLength, h.tableSize?_eq hop htable]

theorem next_eq : code'.next q = q + 1 + code.immediateLength p := by
  rw [next, h.immediateLength_eq]

theorem offsets_eq : code'.offsets q = code.offsets p := by
  cases hop : code[p]? with
  | none =>
      have hnone : code'[q]? = none := by
        simpa [hop] using h.operand_eq
      simp [offsets, offsetPositions, hop, hnone]
  | some op =>
      obtain ⟨op', hop', hoperand⟩ := h.exists_opcode hop
      cases hcase : Opcode.operand op with
      | none | data =>
          rw [offsets_of_operand hop (by simp [hcase]) (by simp [hcase]),
            offsets_of_operand hop' (by simp [hoperand, hcase])
              (by simp [hoperand, hcase])]
      | offset =>
          simp only [offsets, offsetPositions, hop, hop', hoperand, hcase,
            Option.map_some, List.filterMap_cons, List.filterMap_nil,
            h.relativeOffset?_eq hop hcase]
      | table =>
          simp only [offsets, offsetPositions, hop, hop', hoperand, hcase,
            Option.map_some, h.entryCount_eq hop hcase, List.filterMap_map]
          apply List.filterMap_congr
          intro i hi
          have hlt := List.mem_range.mp hi
          apply relativeOffset?_congr
          · exact h.entries_eq hop hcase (by omega)
          · exact h.entries_eq hop hcase (k := 2 * i + 1) (by omega)

/-- The relative jumps of both instructions lead equally far. -/
theorem jumpTargets_eq :
    code'.jumpTargets q =
      (code.jumpTargets p).map fun target => target + ((q : Int) - p) := by
  rw [jumpTargets, jumpTargets, h.offsets_eq, h.next_eq, next, List.map_map]
  apply List.map_congr_left
  intro offset _
  simp only [Function.comp_apply]
  omega

end ReadsAs

/-- The survey finds the same out about an instruction that is made alike, when
the opcode, the position and the size of the code are the same. -/
theorem ReadsAs.examine_eq (h : ReadsAs code p code' p) (hsize : code'.size = code.size)
    (hop : code[p]? = some op) :
    Survey.examine code' p op = Survey.examine code p op := by
  unfold Survey.examine
  by_cases hkind : op.kind = .undefined
  · rw [if_pos hkind, if_pos hkind]
  · rw [if_neg hkind, if_neg hkind]
    cases hcase : op.operand with
    | none | data => rfl
    | offset =>
        simp only [h.relativeOffset?_eq hop hcase, hsize]
    | table =>
        have hcount : ∀ n, code.tableSize? (p + 1) = some n →
            code'.relativeOffsets? (p + 2) n = code.relativeOffsets? (p + 2) n := by
          intro n hn
          apply relativeOffsets?_congr
          intro k hk
          refine h.entries_eq hop hcase ?_
          rw [entryCount, hn]
          exact hk
        simp only [h.tableSize?_eq hop hcase, hsize]
        cases hn : code.tableSize? (p + 1) with
        | none => rfl
        | some n =>
            cases n with
            | zero => rfl
            | succ n => simp only [hcount (n + 1) hn]

end Code
end EvmCheck
