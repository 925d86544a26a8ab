import EvmCheck.Proofs.Opcodes
import EvmCheck.Proofs.Starts
import EvmCheck.Survey
import Mathlib.Data.List.TakeWhile

/-!
# Violations of a single instruction

What is wrong with the instruction at a position can be said from the length of
the code and the exact targets of its relative jumps, which are integers and
may lie on either side of the code.  `violation?` says it in the order in which
the rules are applied, and `examine` is shown to find the same.

**Results.**
* `violation?_eq`: the rules in terms of where the instruction ends.
* `examine_cases`: what the survey can find out about an instruction.
* `fault_examine`: the survey stops at an instruction exactly for its violation.
* `examine_of_sound`: what it finds out about an instruction without one.
-/

namespace EvmCheck
namespace Code

variable {code : Code} {p : Nat} {op : Opcode}

/-- The number of entries that the jump table of the instruction at `p`
announces; a missing size byte announces none. -/
def entryCount (code : Code) (p : Nat) : Nat :=
  (code.tableSize? (p + 1)).getD 0

/-- Where the relative offsets of the instruction at `p` are written. -/
def offsetPositions (code : Code) (p : Nat) : List Nat :=
  match code[p]?.map Opcode.operand with
  | some .offset => [p + 1]
  | some .table => (List.range (code.entryCount p)).map fun i => p + 2 + 2 * i
  | _ => []

/-- The relative offsets of the instruction at `p`, in order. -/
def offsets (code : Code) (p : Nat) : List Int :=
  (code.offsetPositions p).filterMap code.relativeOffset?

/-- The exact targets of the relative jumps of the instruction at `p`, in
order; they are counted from the position after the instruction. -/
def jumpTargets (code : Code) (p : Nat) : List Int :=
  (code.offsets p).map fun offset => (code.next p : Int) + offset

/-- Whether a target lies outside the code. -/
def isOutside (code : Code) (target : Int) : Bool :=
  decide (target < 0 ∨ (code.size : Int) ≤ target)

/-- The targets of the instruction at `p` before the first one that lies outside
the code. -/
def targetsInside (code : Code) (p : Nat) : List Int :=
  (code.jumpTargets p).takeWhile fun target => !code.isOutside target

/-- The rejection for the first target of the instruction at `p` that lies
outside the code, if there is one. -/
def strayJump? (code : Code) (p : Nat) : Option Rejection :=
  ((code.jumpTargets p).find? code.isOutside).map (.jumpTargetOutOfBounds p)

/-- The first rule that the instruction at `p` breaks, if it breaks one. -/
def violation? (code : Code) (p : Nat) : Option Rejection :=
  match code[p]? with
  | none => none
  | some op =>
      if Opcode.isDefined op = false then some (.undefinedOpcode p op)
      else if op = Opcode.rjump ∨ op = Opcode.rjumpi then
        if code.size < p + 3 then some (.truncatedImmediate p op)
        else code.strayJump? p
      else if op = Opcode.rjumpv then
        if code.size < p + 2 then some (.truncatedImmediate p op)
        else if code.entryCount p = 0 then some (.emptyJumpTable p)
        else if code.size < p + 2 + 2 * code.entryCount p then
          some (.truncatedImmediate p op)
        else code.strayJump? p
      else none

theorem isOutside_eq_false_iff {target : Int} :
    code.isOutside target = false ↔ 0 ≤ target ∧ target < code.size := by
  unfold isOutside
  rw [decide_eq_false_iff_not]
  omega

theorem immediateLength_of_operand (h : code[p]? = some op) :
    code.immediateLength p = code.operandLength p op.operand := by
  simp [immediateLength, immediateLength?, h]

theorem next_eq_of_getElem? (h : code[p]? = some op) :
    code.next p = p + 1 + code.operandLength p op.operand := by
  rw [next, immediateLength_of_operand h]

theorem getElem?_of_isStart (h : code.IsStart p) :
    ∃ op : Opcode, code[p]? = some op := by
  have hlt := h.lt_size
  exact ⟨code[p], Array.getElem?_eq_getElem hlt⟩

/-! ### Reading relative offsets -/

theorem relativeOffset?_of_le (h : p + 2 ≤ code.size) :
    ∃ offset, code.relativeOffset? p = some offset := by
  have h₀ : p < code.size := by omega
  have h₁ : p + 1 < code.size := by omega
  refine ⟨signedPair code[p] code[p + 1], ?_⟩
  simp [relativeOffset?, h₀, h₁]

theorem relativeOffset?_of_lt (h : code.size < p + 2) :
    code.relativeOffset? p = none := by
  have h₁ : code[p + 1]? = none := Array.getElem?_eq_none (by omega)
  unfold relativeOffset?
  rw [h₁]
  split
  · rename_i heq
    cases heq
  · rfl

theorem relativeOffsets?_of_le {n : Nat} (h : p + 2 * n ≤ code.size) :
    code.relativeOffsets? p n =
      some ((List.range n).filterMap fun i => code.relativeOffset? (p + 2 * i)) := by
  induction n generalizing p with
  | zero =>
      rfl
  | succ n ih =>
      have hp : p + 2 ≤ code.size := by omega
      obtain ⟨offset, hoffset⟩ := relativeOffset?_of_le hp
      have hrest := ih (p := p + 2) (by omega)
      have hshift : (fun i => code.relativeOffset? (p + 2 + 2 * i)) =
          fun i => code.relativeOffset? (p + 2 * (i + 1)) := by
        funext i
        congr 1
        omega
      have hfirst : code.relativeOffset? (p + 2 * 0) = some offset := hoffset
      simp only [relativeOffsets?, hoffset, hrest, hshift]
      rw [List.range_succ_eq_map, List.filterMap_cons, List.filterMap_map, hfirst]
      rfl

theorem relativeOffsets?_of_lt {n : Nat} (hn : 0 < n)
    (h : code.size < p + 2 * n) : code.relativeOffsets? p n = none := by
  induction n generalizing p with
  | zero =>
      omega
  | succ n ih =>
      unfold relativeOffsets?
      by_cases hn' : 0 < n
      · rw [ih hn' (by omega)]
        split <;> simp_all
      · have hp : code.size < p + 2 := by omega
        rw [relativeOffset?_of_lt hp]

theorem length_of_relativeOffsets? {n : Nat} {offsets : List Int}
    (h : code.relativeOffsets? p n = some offsets) : offsets.length = n := by
  induction n generalizing p offsets with
  | zero =>
      cases h
      rfl
  | succ n ih =>
      unfold relativeOffsets? at h
      split at h
      · rename_i hrest
        cases h
        rw [List.length_cons, ih hrest]
      · cases h

theorem tableSize?_of_le (h : p + 2 ≤ code.size) :
    code.tableSize? (p + 1) = some (code.entryCount p) := by
  have hlt : p + 1 < code.size := by omega
  simp [entryCount, tableSize?, hlt]

theorem tableSize?_of_lt (h : code.size < p + 2) :
    code.tableSize? (p + 1) = none := by
  have hle : code.size ≤ p + 1 := by omega
  simp [tableSize?, hle]

/-! ### Instructions with relative offsets -/

theorem next_of_offset (h : code[p]? = some op) (hop : op.operand = .offset) :
    code.next p = p + 3 := by
  rw [next_eq_of_getElem? h, hop]
  rfl

theorem next_of_table (h : code[p]? = some op) (hop : op.operand = .table) :
    code.next p = p + 2 + 2 * code.entryCount p := by
  rw [next_eq_of_getElem? h, hop]
  simp only [operandLength, tableLength, entryCount]
  omega

theorem next_of_isTerminal (h : code[p]? = some op)
    (hterminal : op.isTerminal = true) : code.next p = p + 1 := by
  rw [next_eq_of_getElem? h, Opcode.operand_of_isTerminal hterminal]
  rfl

theorem offsets_of_offset {offset : Int} (h : code[p]? = some op)
    (hop : op.operand = .offset)
    (hoffset : code.relativeOffset? (p + 1) = some offset) :
    code.offsets p = [offset] := by
  simp [offsets, offsetPositions, h, hop, hoffset]

theorem relativeOffsets?_table (h : code[p]? = some op)
    (hop : op.operand = .table)
    (hle : p + 2 + 2 * code.entryCount p ≤ code.size) :
    code.relativeOffsets? (p + 2) (code.entryCount p) = some (code.offsets p) := by
  unfold offsets offsetPositions
  rw [relativeOffsets?_of_le hle, h, Option.map_some, hop]
  simp only
  rw [List.filterMap_map]
  rfl

theorem offsets_of_operand (h : code[p]? = some op)
    (hoffset : op.operand ≠ .offset) (htable : op.operand ≠ .table) :
    code.offsets p = [] := by
  unfold offsets offsetPositions
  rw [h]
  cases hop : op.operand with
  | none => simp [hop]
  | data width => simp [hop]
  | offset => exact absurd hop hoffset
  | table => exact absurd hop htable

theorem jumpTargets_of_operand (h : code[p]? = some op)
    (hoffset : op.operand ≠ .offset) (htable : op.operand ≠ .table) :
    code.jumpTargets p = [] := by
  rw [jumpTargets, offsets_of_operand h hoffset htable, List.map_nil]

/-! ### The rules for each kind of operand -/

theorem violation?_of_undefined (h : code[p]? = some op)
    (hdef : op.isDefined = false) :
    code.violation? p = some (.undefinedOpcode p op) := by
  simp only [violation?, h, hdef, if_true]

theorem violation?_of_offset (h : code[p]? = some op)
    (hdef : op.isDefined = true) (hop : op.operand = .offset) :
    code.violation? p =
      if code.size < p + 3 then some (.truncatedImmediate p op)
      else code.strayJump? p := by
  have hjump := Opcode.operand_eq_offset_iff.mp hop
  simp only [violation?, h, hdef, hjump, Bool.true_eq_false, if_false, if_true]

theorem violation?_of_table (h : code[p]? = some op)
    (hdef : op.isDefined = true) (hop : op.operand = .table) :
    code.violation? p =
      if code.size < p + 2 then some (.truncatedImmediate p op)
      else if code.entryCount p = 0 then some (.emptyJumpTable p)
      else if code.size < p + 2 + 2 * code.entryCount p then
        some (.truncatedImmediate p op)
      else code.strayJump? p := by
  have hjump : ¬ (op = Opcode.rjump ∨ op = Opcode.rjumpi) := by
    simp [← Opcode.operand_eq_offset_iff, hop]
  have htable := Opcode.operand_eq_table_iff.mp hop
  simp only [violation?, h, hdef, hjump, Bool.true_eq_false, if_false, if_pos htable]

theorem violation?_of_operand (h : code[p]? = some op)
    (hdef : op.isDefined = true) (hoffset : op.operand ≠ .offset)
    (htable : op.operand ≠ .table) : code.violation? p = none := by
  have hjump := mt Opcode.operand_eq_offset_iff.mpr hoffset
  have hvector := mt Opcode.operand_eq_table_iff.mpr htable
  simp only [violation?, h, hdef, hjump, hvector, Bool.true_eq_false, if_false]

theorem strayJump?_eq_none_iff :
    code.strayJump? p = none ↔
      ∀ target ∈ code.jumpTargets p, 0 ≤ target ∧ target < code.size := by
  simp [strayJump?, isOutside_eq_false_iff]

theorem targetsInside_eq_self
    (h : ∀ target ∈ code.jumpTargets p, 0 ≤ target ∧ target < code.size) :
    code.targetsInside p = code.jumpTargets p := by
  rw [targetsInside, List.takeWhile_eq_self_iff]
  intro target htarget
  simp [isOutside_eq_false_iff.mpr (h target htarget)]

/-- An instruction breaks no rule when its opcode is defined, its offsets are
in the code, and so are the targets of its relative jumps. -/
theorem violation?_eq_none_iff (h : code[p]? = some op) :
    code.violation? p = none ↔
      op.isDefined = true ∧
      (op.operand = .offset → p + 3 ≤ code.size) ∧
      (op.operand = .table →
        0 < code.entryCount p ∧ p + 2 + 2 * code.entryCount p ≤ code.size) ∧
      ∀ target ∈ code.jumpTargets p, 0 ≤ target ∧ target < code.size := by
  by_cases hdef : op.isDefined = true
  · by_cases hoffset : op.operand = .offset
    · rw [violation?_of_offset h hdef hoffset, ← strayJump?_eq_none_iff]
      by_cases hlt : code.size < p + 3
      · simp [hlt, hoffset, Nat.not_le.mpr hlt]
      · simp [hlt, hdef, hoffset, Nat.le_of_not_lt hlt]
    · by_cases htable : op.operand = .table
      · rw [violation?_of_table h hdef htable, ← strayJump?_eq_none_iff]
        by_cases hlt : code.size < p + 2
        · have hlong : ¬ p + 2 + 2 * code.entryCount p ≤ code.size := by omega
          simp [hlt, htable, hlong]
        · by_cases hzero : code.entryCount p = 0
          · simp [hlt, htable, hzero]
          · by_cases hlt' : code.size < p + 2 + 2 * code.entryCount p
            · simp [hlt, htable, hzero, hlt', Nat.not_le.mpr hlt']
            · simp [hlt, hdef, htable, hzero, hlt', Nat.le_of_not_lt hlt',
                Nat.pos_of_ne_zero hzero]
      · rw [violation?_of_operand h hdef hoffset htable,
          jumpTargets_of_operand h hoffset htable]
        simp [hdef, hoffset, htable]
  · rw [violation?_of_undefined h (by simpa using hdef)]
    simp [hdef]

/-- The rules in terms of where the instruction ends: a relative jump that does
not end in the code is cut off, and without targets no jump goes astray. -/
theorem violation?_eq (h : code[p]? = some op) :
    code.violation? p =
      if op.isDefined = false then some (.undefinedOpcode p op)
      else if (op.operand = .offset ∨ op.operand = .table) ∧ code.size < code.next p then
        some (.truncatedImmediate p op)
      else if op.operand = .table ∧ code.entryCount p = 0 then some (.emptyJumpTable p)
      else code.strayJump? p := by
  by_cases hdef : op.isDefined = true
  · rw [if_neg (by simp [hdef])]
    cases hop : op.operand with
    | none | data =>
        have htargets := jumpTargets_of_operand h (by simp [hop]) (by simp [hop])
        rw [violation?_of_operand h hdef (by simp [hop]) (by simp [hop])]
        simp [strayJump?, htargets]
    | offset =>
        rw [violation?_of_offset h hdef hop, next_of_offset h hop]
        simp
    | table =>
        rw [violation?_of_table h hdef hop, next_of_table h hop]
        by_cases hbyte : code.size < p + 2
        · have hcut : code.size < p + 2 + 2 * code.entryCount p := by omega
          simp [hbyte, hcut]
        · by_cases hzero : code.entryCount p = 0
          · simp [hbyte, hzero]
          · simp [hbyte, hzero]
  · have hfalse : op.isDefined = false := by simpa using hdef
    rw [violation?_of_undefined h hfalse, if_pos hfalse]

end Code

namespace Survey

variable {code : Code} {p : Nat} {op : Opcode}

/-- Targets are resolved up to the first one outside the code, and this is the
one at which resolving stops. -/
theorem resolve_eq (code : Code) (base : Nat) (offsets : List Int) :
    resolve code.size base offsets =
      (((offsets.map fun offset => (base : Int) + offset).takeWhile
          fun target => !code.isOutside target).map Int.toNat,
        (offsets.map fun offset => (base : Int) + offset).find? code.isOutside) := by
  induction offsets with
  | nil =>
      rfl
  | cons offset offsets ih =>
      by_cases hin : 0 ≤ (base : Int) + offset ∧ (base : Int) + offset < code.size
      · have hout := Code.isOutside_eq_false_iff.mpr hin
        simp only [resolve, if_pos hin, ih, List.map_cons, List.takeWhile_cons,
          List.find?_cons, hout, Bool.not_false, if_true]
      · have hout : code.isOutside (base + offset) = true := by
          rw [← Bool.not_eq_false, Code.isOutside_eq_false_iff]
          exact hin
        simp [resolve, if_neg hin, hout]

theorem jumps_next_eq (code : Code) (p : Nat) :
    jumps code.size p (code.next p) (code.offsets p) =
      { next := code.next p
        targets := (code.targetsInside p).map Int.toNat
        fault := code.strayJump? p } := by
  simp only [jumps, resolve_eq]
  rfl

/-- The survey of a relative jump whose offset is in the code. -/
theorem examine_offset (h : code[p]? = some op) (hdef : op.isDefined = true)
    (hop : op.operand = .offset) (hle : p + 3 ≤ code.size) :
    examine code p op = jumps code.size p (code.next p) (code.offsets p) := by
  obtain ⟨offset, hoffset⟩ := Code.relativeOffset?_of_le hle
  have hkind : op.kind ≠ .undefined := by simpa [Opcode.isDefined] using hdef
  rw [Code.offsets_of_offset h hop hoffset, Code.next_of_offset h hop]
  simp only [examine, if_neg hkind, hop, hoffset]

/-- The survey of a relative jump whose whole table is in the code. -/
theorem examine_table (h : code[p]? = some op) (hdef : op.isDefined = true)
    (hop : op.operand = .table) (hpos : 0 < code.entryCount p)
    (hle : p + 2 + 2 * code.entryCount p ≤ code.size) :
    examine code p op = jumps code.size p (code.next p) (code.offsets p) := by
  have hkind : op.kind ≠ .undefined := by simpa [Opcode.isDefined] using hdef
  have hread := Code.relativeOffsets?_table h hop hle
  rw [Code.next_of_table h hop]
  have hbyte : p + 2 ≤ code.size := by omega
  have hsize := Code.tableSize?_of_le hbyte
  obtain ⟨n, hn⟩ := Nat.exists_eq_succ_of_ne_zero (Nat.ne_of_gt hpos)
  rw [hn] at hread hsize ⊢
  simp only [examine, if_neg hkind, hop, hsize, hread]

/-- What the survey can find out about an instruction: that it must stop before
it knows the targets, or the targets up to the first one outside the code. -/
theorem examine_cases (h : code[p]? = some op) :
    (∃ cause, examine code p op = stop p cause ∧ code.violation? p = some cause ∧
      ∀ q target, cause ≠ .jumpTargetOutOfBounds q target) ∨
    (examine code p op =
        { next := code.next p
          targets := (code.targetsInside p).map Int.toNat
          fault := code.strayJump? p } ∧
      code.violation? p = code.strayJump? p) := by
  by_cases hdef : op.isDefined = true
  · have hkind : op.kind ≠ .undefined := by simpa [Opcode.isDefined] using hdef
    cases hop : op.operand with
    | none | data =>
        right
        have htargets := Code.jumpTargets_of_operand h (by simp [hop]) (by simp [hop])
        rw [Code.violation?_of_operand h hdef (by simp [hop]) (by simp [hop]),
          Code.next_eq_of_getElem? h, Code.targetsInside, Code.strayJump?, htargets]
        simp only [examine, if_neg hkind, hop]
        exact ⟨rfl, rfl⟩
    | offset =>
        rw [Code.violation?_of_offset h hdef hop]
        by_cases hlt : code.size < p + 3
        · left
          refine ⟨.truncatedImmediate p op, ?_, if_pos hlt, by simp⟩
          simp only [examine, if_neg hkind, hop, Code.relativeOffset?_of_lt hlt]
        · right
          rw [if_neg hlt, examine_offset h hdef hop (by omega), jumps_next_eq]
          exact ⟨rfl, rfl⟩
    | table =>
        rw [Code.violation?_of_table h hdef hop]
        by_cases hlt : code.size < p + 2
        · left
          refine ⟨.truncatedImmediate p op, ?_, if_pos hlt, by simp⟩
          simp only [examine, if_neg hkind, hop, Code.tableSize?_of_lt hlt]
        · have hsize := Code.tableSize?_of_le (Nat.le_of_not_lt hlt)
          rw [if_neg hlt]
          by_cases hzero : code.entryCount p = 0
          · left
            refine ⟨.emptyJumpTable p, ?_, if_pos hzero, by simp⟩
            rw [hzero] at hsize
            simp only [examine, if_neg hkind, hop, hsize]
          · have hpos : 0 < code.entryCount p := Nat.pos_of_ne_zero hzero
            rw [if_neg hzero]
            by_cases hlt' : code.size < p + 2 + 2 * code.entryCount p
            · left
              refine ⟨.truncatedImmediate p op, ?_, if_pos hlt', by simp⟩
              have hread := Code.relativeOffsets?_of_lt hpos hlt'
              obtain ⟨n, hn⟩ := Nat.exists_eq_succ_of_ne_zero hzero
              rw [hn] at hread hsize
              simp only [examine, if_neg hkind, hop, hsize, hread]
            · right
              rw [if_neg hlt', examine_table h hdef hop hpos (by omega), jumps_next_eq]
              exact ⟨rfl, rfl⟩
  · left
    have hkind : op.kind = .undefined := by simpa [Opcode.isDefined] using hdef
    refine ⟨.undefinedOpcode p op, ?_,
      Code.violation?_of_undefined h (by simpa using hdef), by simp⟩
    simp only [examine, if_pos hkind]

/-- The survey stops at an instruction exactly for its violation. -/
theorem fault_examine (h : code[p]? = some op) :
    (examine code p op).fault = code.violation? p := by
  rcases examine_cases h with ⟨cause, hstop, hv, -⟩ | ⟨hexamine, hv⟩
  · rw [hstop, hv]
    rfl
  · rw [hexamine, hv]

/-- What the survey finds out about an instruction that breaks no rule. -/
theorem examine_of_sound (h : code[p]? = some op)
    (hsound : code.violation? p = none) :
    examine code p op =
      { next := code.next p
        targets := (code.jumpTargets p).map Int.toNat
        fault := none } := by
  rcases examine_cases h with ⟨cause, -, hv, -⟩ | ⟨hexamine, hv⟩
  · rw [hsound] at hv
    cases hv
  · rw [hsound] at hv
    rw [hexamine, Code.targetsInside_eq_self (Code.strayJump?_eq_none_iff.mp hv.symm), ← hv]

end Survey
end EvmCheck
