import EvmCheck.Proofs.Listing
import EvmCheck.Proofs.Members

/-!
# The bytes that a survey has read

Between two instructions a survey has read a first part of the code, and its state
accounts for every byte of this part: each one is either an opcode that has been read
or an immediate byte of an instruction that has been read, and none is both.  That
relative jumps do not lead into immediate data is checked at the end of the code
only, in one comparison of two sets; the comparison means something because no byte
is missing from this account.

The part that has been read ends at the position of the survey, or with the code
where the data of a push are cut off.  A push is the only instruction after which the
position can lie past the end: its data are skipped without a look at them, while an
offset or a table that is cut off is a fault.

`LeadsTo` says where the relative jumps of an instruction lead, offset by offset, and
`IsCutPush` which pushes the end of the code cuts off; neither mentions the survey.

**Results.**
* `mem_jumpTargets_iff_leadsTo`: where the relative jumps of an instruction lead.
* `size_lt_next_iff_isCutPush`: which instructions end past the code.
* `Reached.complete_eq`: the states that a survey comes to lie on its way.
* `Invariant.mem_immediates_iff_exists`: the immediate bytes belong to instructions read.
* `Invariant.perm_range`: opcodes and immediate bytes partition the part read.
* `Reached.bytes_partitioned`: all that a state holds between two instructions.
-/

namespace EvmCheck
namespace Code

variable {code : Code} {p : Nat} {op : Opcode}

/-- Where the relative jumps of the instruction at `p` lead.  Offsets count from the
position after the whole instruction. -/
inductive LeadsTo (code : Code) (p : Nat) : Int → Prop
  /-- The one offset of a relative jump, conditional or not. -/
  | single {op : Opcode} {offset : Int} (hop : code[p]? = some op)
      (hjump : op = .rjump ∨ op = .rjumpi)
      (hoffset : code.relativeOffset? (p + 1) = some offset) :
      LeadsTo code p (p + 3 + offset)
  /-- Entry `k` of a jump table with `n` entries. -/
  | entry {n k : Nat} {offset : Int} (hop : code[p]? = some Opcode.rjumpv)
      (hsize : code.tableSize? (p + 1) = some n) (hk : k < n)
      (hoffset : code.relativeOffset? (p + 2 + 2 * k) = some offset) :
      LeadsTo code p (p + 2 + 2 * n + offset)

/-- The instruction at `p` is a push whose data are cut off by the end of the code. -/
def IsCutPush (code : Code) (p : Nat) : Prop :=
  ∃ op width, code[p]? = some op ∧ Opcode.pushWidth? op = some width ∧
    code.size < p + 1 + width

/-! ### Where relative jumps lead -/

theorem mem_offsets_of_offset {offset : Int} (hop : code[p]? = some op)
    (hoperand : op.operand = .offset) :
    offset ∈ code.offsets p ↔ code.relativeOffset? (p + 1) = some offset := by
  simp [offsets, offsetPositions, hop, hoperand]

theorem mem_offsets_of_table {offset : Int} (hop : code[p]? = some op)
    (hoperand : op.operand = .table) :
    offset ∈ code.offsets p ↔
      ∃ k < code.entryCount p, code.relativeOffset? (p + 2 + 2 * k) = some offset := by
  simp [offsets, offsetPositions, hop, hoperand]

theorem tableSize?_of_lt_entryCount {k : Nat} (hk : k < code.entryCount p) :
    code.tableSize? (p + 1) = some (code.entryCount p) := by
  apply tableSize?_of_le
  -- a table whose size byte is missing has no entry
  apply Nat.le_of_not_lt
  intro hcut
  rw [entryCount, tableSize?_of_lt hcut] at hk
  exact Nat.not_lt_zero k hk

theorem LeadsTo.of_mem_offsets {offset : Int} (h : offset ∈ code.offsets p) :
    code.LeadsTo p (code.next p + offset) := by
  cases hop : code[p]? with
  | none =>
      simp [offsets, offsetPositions, hop] at h
  | some op =>
      cases hoperand : Opcode.operand op with
      | none | data =>
          rw [offsets_of_operand hop (by simp [hoperand]) (by simp [hoperand])] at h
          cases h
      | offset =>
          rw [next_of_offset hop hoperand]
          exact .single hop (Opcode.operand_eq_offset_iff.mp hoperand)
            ((mem_offsets_of_offset hop hoperand).mp h)
      | table =>
          obtain ⟨k, hk, hoffset⟩ := (mem_offsets_of_table hop hoperand).mp h
          rw [Opcode.operand_eq_table_iff.mp hoperand] at hop
          rw [next_of_table hop rfl]
          exact .entry hop (tableSize?_of_lt_entryCount hk) hk hoffset

/-- The targets of an instruction are where its relative jumps lead. -/
theorem mem_jumpTargets_iff_leadsTo {target : Int} :
    target ∈ code.jumpTargets p ↔ code.LeadsTo p target := by
  constructor
  · intro h
    obtain ⟨offset, hoffset, rfl⟩ := List.mem_map.mp h
    exact LeadsTo.of_mem_offsets hoffset
  · intro h
    cases h with
    | @single op offset hop hjump hoffset =>
        have hoperand := Opcode.operand_eq_offset_iff.mpr hjump
        refine List.mem_map.mpr
          ⟨offset, (mem_offsets_of_offset hop hoperand).mpr hoffset, ?_⟩
        rw [next_of_offset hop hoperand]
        rfl
    | @entry n k offset hop hsize hk hoffset =>
        have hcount : code.entryCount p = n := by
          rw [entryCount, hsize, Option.getD_some]
        refine List.mem_map.mpr
          ⟨offset, (mem_offsets_of_table hop rfl).mpr ⟨k, hcount ▸ hk, hoffset⟩, ?_⟩
        rw [next_of_table hop rfl, hcount]
        rfl

/-! ### Instructions that end past the code -/

theorem isCutPush_iff (hop : code[p]? = some op) :
    code.IsCutPush p ↔
      ∃ width, op.operand = .data width ∧ code.size < code.next p := by
  constructor
  · rintro ⟨op', width, hop', hwidth, hcut⟩
    rw [hop, Option.some.injEq] at hop'
    subst hop'
    have hoperand := Opcode.pushWidth?_eq_some_iff.mp hwidth
    refine ⟨width, hoperand, ?_⟩
    rw [next_eq_of_getElem? hop, hoperand]
    exact hcut
  · rintro ⟨width, hoperand, hcut⟩
    rw [next_eq_of_getElem? hop, hoperand] at hcut
    exact ⟨op, width, hop, Opcode.pushWidth?_eq_some_iff.mpr hoperand, hcut⟩

/-- An instruction that breaks no rule ends past the code only if it is a push. -/
theorem size_lt_next_iff_isCutPush (hp : p < code.size)
    (hsound : code.violation? p = none) :
    code.size < code.next p ↔ code.IsCutPush p := by
  have hop : code[p]? = some code[p] := Array.getElem?_eq_getElem hp
  obtain ⟨-, hoffset, htable, -⟩ := (violation?_eq_none_iff hop).mp hsound
  rw [isCutPush_iff hop]
  constructor
  · intro hcut
    cases hoperand : Opcode.operand code[p] with
    | none =>
        rw [next_eq_of_getElem? hop, hoperand] at hcut
        exact absurd hp (Nat.not_lt.mpr (Nat.le_of_lt_succ hcut))
    | data width =>
        exact ⟨width, rfl, hcut⟩
    | offset =>
        rw [next_of_offset hop hoperand] at hcut
        exact absurd hcut (Nat.not_lt.mpr (hoffset hoperand))
    | table =>
        rw [next_of_table hop hoperand] at hcut
        exact absurd hcut (Nat.not_lt.mpr (htable hoperand).2)
  · rintro ⟨width, -, hcut⟩
    exact hcut

end Code

namespace Survey

variable {code : Code} {visited : List Nat} {s : Survey} {i p : Nat}

/-! ### The way of a survey -/

/-- The survey from the start is the survey from any state that it comes to. -/
theorem Reached.complete_eq (h : Reached code visited s) :
    complete code (Survey.start code) = complete code s := by
  induction h with
  | start => rfl
  | step _ hop hstep ih =>
      rw [ih, Survey.complete_eq, hop]
      simp only [hstep]

/-- From an instruction that breaks no rule the survey comes to the next one. -/
theorem Reached.exists_step (h : Reached code visited s) (hposition : s.position = p)
    (hlt : p < code.size) (hsound : code.violation? p = none) :
    ∃ s', Reached code (visited ++ [p]) s' ∧ s'.position = code.next p := by
  subst hposition
  have hop : code[s.position]? = some code[s.position] := Array.getElem?_eq_getElem hlt
  obtain ⟨s', hstep⟩ := step_of_sound hop hsound
  refine ⟨s', .step h hop hstep, ?_⟩
  obtain ⟨-, rfl⟩ := step_eq_next hop hstep
  rfl

/-! ### Where the survey stands -/

namespace Invariant

theorem position_of_last (hinv : Invariant code visited s)
    (h : visited.getLast? = some p) : s.position = code.next p := by
  rw [hinv.position_eq, h, Option.map_some, Option.getD_some]

/-- The positions at which instructions have been read and the one at which the next
is to be read are strictly ascending. -/
theorem pairwise_positions (hinv : Invariant code visited s) :
    (visited ++ [s.position]).Pairwise (· < ·) := by
  have hsorted : (visited ++ code.startsFrom s.position).Pairwise (· < ·) := by
    rw [← hinv.starts_eq]
    exact code.pairwise_startsFrom 0
  refine List.pairwise_append.mpr
    ⟨(List.pairwise_append.mp hsorted).1, List.pairwise_singleton _ _, ?_⟩
  intro p hp q hq
  rw [List.mem_singleton.mp hq]
  exact hinv.lt_position_of_mem hp

/-- An instruction that has been read does not end after the position of the survey. -/
theorem next_le_position (hinv : Invariant code visited s) (hp : p ∈ visited)
    (hlt : s.position < code.size) : code.next p ≤ s.position :=
  (hinv.isStart_of_mem hp).next_le (hinv.isStart_position hlt) (hinv.lt_position_of_mem hp)

/-- The survey stands past the end of the code exactly after a push that is cut off. -/
theorem size_lt_position_iff (hinv : Invariant code visited s) :
    code.size < s.position ↔
      ∃ p, visited.getLast? = some p ∧ code.IsCutPush p := by
  cases hlast : visited.getLast? with
  | none =>
      have hposition : s.position = 0 := by
        rw [hinv.position_eq, hlast, Option.map_none, Option.getD_none]
      simp [hposition]
  | some p =>
      have hmem : p ∈ visited := List.mem_of_getLast? hlast
      rw [hinv.position_of_last hlast, Code.size_lt_next_iff_isCutPush
        (hinv.isStart_of_mem hmem).lt_size (hinv.sound p hmem)]
      simp

/-! ### What the bytes are -/

theorem contains_immediates_iff (hinv : Invariant code visited s) :
    s.immediates.contains i = true ↔
      i < min s.position code.size ∧ i ∉ visited := by
  rw [hinv.mem_immediates, Nat.lt_min]

/-- The immediate bytes are those of the instructions that have been read. -/
theorem mem_immediates_iff_exists (hinv : Invariant code visited s) :
    s.immediates.contains i = true ↔
      ∃ p ∈ visited, p < i ∧ i < min (code.next p) code.size := by
  rw [hinv.mem_immediates]
  constructor
  · rintro ⟨⟨hposition, hsize⟩, hvisited⟩
    -- the instruction that the byte belongs to starts before it, so it has been read
    obtain ⟨p, hp, hle, hnext⟩ := Code.exists_isStart_of_lt hsize
    have hmem : p ∈ visited := hinv.mem_visited_iff.mpr ⟨hp, by omega⟩
    have hne : p ≠ i := fun heq => hvisited (heq ▸ hmem)
    exact ⟨p, hmem, by omega, by omega⟩
  · rintro ⟨p, hmem, hlt, hnext⟩
    have hp := hinv.isStart_of_mem hmem
    have hvisited : i ∉ visited := fun hi =>
      hp.not_isStart hlt (by omega) (hinv.isStart_of_mem hi)
    refine ⟨⟨?_, by omega⟩, hvisited⟩
    by_cases hend : s.position < code.size
    · have := hinv.next_le_position hmem hend
      omega
    · omega

theorem mem_or_contains_iff (hinv : Invariant code visited s) :
    i ∈ visited ∨ s.immediates.contains i = true ↔ i < min s.position code.size := by
  rw [hinv.contains_immediates_iff]
  constructor
  · rintro (hi | ⟨hi, -⟩)
    · exact Nat.lt_min.mpr
        ⟨hinv.lt_position_of_mem hi, (hinv.isStart_of_mem hi).lt_size⟩
    · exact hi
  · intro hi
    by_cases hmem : i ∈ visited
    · exact Or.inl hmem
    · exact Or.inr ⟨hi, hmem⟩

/-- Opcodes and immediate bytes, taken together, are the bytes that have been read,
each of them once. -/
theorem perm_range (hinv : Invariant code visited s) :
    (visited ++ s.immediates.toList).Perm (List.range (min s.position code.size)) := by
  have hvisited : visited.Nodup :=
    (List.pairwise_append.mp hinv.pairwise_positions).1.imp Nat.ne_of_lt
  have himmediates : s.immediates.toList.Nodup :=
    s.immediates.pairwise_toList.imp Nat.ne_of_lt
  have hdisjoint : ∀ a ∈ visited, ∀ b ∈ s.immediates.toList, a ≠ b := by
    rintro a ha b hb rfl
    rw [PositionSet.mem_toList, hinv.contains_immediates_iff] at hb
    exact hb.2 ha
  rw [List.perm_ext_iff_of_nodup
    (List.nodup_append.mpr ⟨hvisited, himmediates, hdisjoint⟩) List.nodup_range]
  intro i
  rw [List.mem_append, PositionSet.mem_toList, List.mem_range, hinv.mem_or_contains_iff]

end Invariant

/-- **The bytes that have been read are partitioned.**  Take a survey between two
instructions, where `visited` are the positions at which it has read an opcode so far:
what it reads from there on completes its reading, and its result is that of the survey
from there on.  The three sets have the size of the code.  The position is the one
after the last instruction read, and `0` before the first; the positions are strictly
ascending, and the last one lies past the end of the code exactly when the last
instruction is a push whose data are cut off.  The immediate bytes are the bytes before
the position at which no opcode has been read, and each of them belongs to an
instruction that has been read; together with the opcodes they are the bytes before the
position, each of them once.  The jump destinations are the marker opcodes that have
been read, and the targets are where the relative jumps of the instructions that have
been read lead. -/
theorem Reached.bytes_partitioned (h : Reached code visited s) :
    (reads code = visited ++ readsFrom code s ∧
      complete code (Survey.start code) = complete code s) ∧
    (s.jumpdests.size = code.size ∧ s.immediates.size = code.size ∧
      s.targets.size = code.size) ∧
    (visited = [] → s.position = 0) ∧
    (∀ p, visited.getLast? = some p → s.position = p + 1 + code.immediateLength p) ∧
    (visited ++ [s.position]).Pairwise (· < ·) ∧
    (code.size < s.position ↔ ∃ p, visited.getLast? = some p ∧ code.IsCutPush p) ∧
    (∀ i, s.immediates.contains i = true ↔
      i < min s.position code.size ∧ i ∉ visited) ∧
    (∀ i, s.immediates.contains i = true ↔
      ∃ p ∈ visited, p < i ∧ i < min (p + 1 + code.immediateLength p) code.size) ∧
    (visited ++ s.immediates.toList).Perm (List.range (min s.position code.size)) ∧
    (∀ i, s.jumpdests.contains i = true ↔
      i ∈ visited ∧ code[i]? = some Opcode.jumpdest) ∧
    (∀ i : Nat, s.targets.contains i = true ↔ ∃ p ∈ visited, code.LeadsTo p i) := by
  have hinv := h.invariant
  refine ⟨⟨h.reads_eq, h.complete_eq⟩,
    ⟨hinv.size_jumpdests, hinv.size_immediates, hinv.size_targets⟩, ?first,
    fun _ => hinv.position_of_last, hinv.pairwise_positions, hinv.size_lt_position_iff,
    fun _ => hinv.contains_immediates_iff, fun _ => hinv.mem_immediates_iff_exists,
    hinv.perm_range, hinv.mem_jumpdests, ?targets⟩
  case first =>
    rintro rfl
    exact hinv.position_eq
  case targets =>
    intro i
    simp only [hinv.mem_targets, Code.mem_jumpTargets_iff_leadsTo]

/-- A marker, a table with one entry that leads back to it, and a push of two bytes of
which the code has one. -/
def cutAfterTable : Code :=
  #[0x5b, 0x5e, 0x01, 0xff, 0xfb, 0x61, 0x5b]

/-- The survey comes to the end of this code and past it; the second marker opcode is
data. -/
theorem cutAfterTable_partitioned :
    ∃ s, Reached cutAfterTable [0, 1, 5] s ∧ s.position = 8 ∧
      cutAfterTable.IsCutPush 5 ∧
      ([0, 1, 5] ++ s.immediates.toList).Perm (List.range 7) ∧
      (s.jumpdests.contains 0 = true ∧ s.jumpdests.contains 6 = false) ∧
      s.targets.contains 0 = true := by
  have h₀ : Reached cutAfterTable [] (start cutAfterTable) := .start
  obtain ⟨s₁, h₁, hp₁⟩ := h₀.exists_step (p := 0) rfl (by decide) (by decide)
  obtain ⟨s₂, h₂, hp₂⟩ := h₁.exists_step (p := 1) hp₁ (by decide) (by decide)
  obtain ⟨s, h, -⟩ := h₂.exists_step (p := 5) hp₂ (by decide) (by decide)
  obtain ⟨-, -, -, hposition, -, hcut, -, -, hperm, hjumpdests, htargets⟩ :=
    h.bytes_partitioned
  have hend : s.position = 8 := hposition 5 rfl
  have hback : cutAfterTable.LeadsTo 1 ((1 : Nat) + 2 + 2 * (1 : Nat) + -5) :=
    .entry rfl rfl Nat.zero_lt_one (by decide)
  obtain ⟨p, hlast, hpush⟩ := hcut.mp (by rw [hend]; decide)
  cases hlast
  refine ⟨s, h, hend, hpush, ?_, ⟨(hjumpdests 0).mpr (by decide), ?_⟩, ?_⟩
  · rw [hend] at hperm
    exact hperm
  · rw [← Bool.not_eq_true, hjumpdests]
    decide
  · exact (htargets 0).mpr ⟨1, by decide, hback⟩

end Survey
end EvmCheck
