import EvmCheck.Proofs.Violation
import Mathlib.Data.List.Basic

/-!
# Instructions and their bytes

An `Instruction` is an opcode together with all its immediate bytes, as a value
that cannot be malformed: the opcode is defined, a push has between 1 and 32
bytes of data, and a jump table has between 1 and 255 entries.  `encode` writes
an instruction as bytes.

**Results.**
* `encode_prefix_free`: the bytes at hand determine the instruction that they
  begin with.
* `reads_of_drop`: what code holds at a position where an instruction is written.
* `exists_instruction`: an instruction that breaks no rule and is not cut off by
  the end of the code is one that can be written.
-/

namespace EvmCheck

/-- An instruction with all its immediate bytes. -/
inductive Instruction
  /-- A defined opcode without immediate bytes. -/
  | plain (op : Opcode) (hdefined : op.isDefined = true)
      (hplain : ¬ (0x60 ≤ op ∧ op ≤ 0x7f) ∧
        op ≠ .rjump ∧ op ≠ .rjumpi ∧ op ≠ .rjumpv)
  /-- A push of some bytes. -/
  | push (data : List UInt8) (hlength : 1 ≤ data.length ∧ data.length ≤ 32)
  /-- A relative jump, conditional or not. -/
  | jump (conditional : Bool) (offset : Int16)
  /-- A relative jump through a table. -/
  | table (offsets : List Int16)
      (hlength : 1 ≤ offsets.length ∧ offsets.length ≤ 255)
  deriving DecidableEq

/-- A relative offset in two's complement, the higher byte first. -/
def offsetBytes (offset : Int16) : List UInt8 :=
  [UInt8.ofNat (offset.toUInt16.toNat / 256),
    UInt8.ofNat (offset.toUInt16.toNat % 256)]

namespace Instruction

/-- The first byte of an instruction. -/
def opcode : Instruction → Opcode
  | plain op _ _ => op
  | push data _ => UInt8.ofNat (0x5f + data.length)
  | jump false _ => .rjump
  | jump true _ => .rjumpi
  | table _ _ => .rjumpv

/-- The bytes after the opcode. -/
def immediate : Instruction → List UInt8
  | plain _ _ _ => []
  | push data _ => data
  | jump _ offset => offsetBytes offset
  | table offsets _ =>
      UInt8.ofNat offsets.length :: offsets.flatMap offsetBytes

/-- All bytes of an instruction. -/
def encode (i : Instruction) : List UInt8 :=
  i.opcode :: i.immediate

/-- The relative offsets of an instruction, in order. -/
def offsets : Instruction → List Int16
  | plain _ _ _ => []
  | push _ _ => []
  | jump _ offset => [offset]
  | table offsets _ => offsets

/-- The operand that the opcode of an instruction announces. -/
def operand : Instruction → Opcode.Operand
  | plain _ _ _ => .none
  | push data _ => .data data.length
  | jump _ _ => .offset
  | table _ _ => .table

theorem operand_opcode (i : Instruction) : i.opcode.operand = i.operand := by
  cases i with
  | plain op _ hplain =>
      exact Opcode.operand_eq_none_iff.mpr hplain
  | push data hlength =>
      exact Opcode.operand_eq_data_iff.mpr ⟨rfl, hlength⟩
  | jump conditional offset =>
      cases conditional <;> rfl
  | table offsets hlength =>
      rfl

theorem isDefined_opcode (i : Instruction) : i.opcode.isDefined = true := by
  cases i with
  | plain op hdefined _ =>
      exact hdefined
  | push data hlength =>
      exact Opcode.isDefined_push hlength
  | jump conditional offset =>
      cases conditional <;> rfl
  | table offsets hlength =>
      rfl

theorem length_flatMap_offsetBytes (offsets : List Int16) :
    (offsets.flatMap offsetBytes).length = 2 * offsets.length := by
  induction offsets with
  | nil =>
      rfl
  | cons offset offsets ih =>
      simp only [List.flatMap_cons, List.length_append, List.length_cons, ih,
        offsetBytes, List.length_nil]
      omega

theorem length_encode_table (offsets : List Int16)
    (hlength : 1 ≤ offsets.length ∧ offsets.length ≤ 255) :
    (table offsets hlength).encode.length = 2 + 2 * offsets.length := by
  simp only [encode, immediate, List.length_cons, length_flatMap_offsetBytes]
  omega

/-! ### Reading written bytes back -/

theorem signedPair_offsetBytes (offset : Int16) :
    Code.signedPair (UInt8.ofNat (offset.toUInt16.toNat / 256))
      (UInt8.ofNat (offset.toUInt16.toNat % 256)) = offset.toInt := by
  have hlt : offset.toUInt16.toNat < 65536 := offset.toUInt16.toNat_lt
  have hvalue : offset.toInt =
      if 2 * offset.toUInt16.toNat < 65536 then (offset.toUInt16.toNat : Int)
      else offset.toUInt16.toNat - 65536 :=
    BitVec.toInt_eq_toNat_cond offset.toBitVec
  unfold Code.signedPair
  simp only [UInt8.toNat_ofNat']
  rw [hvalue]
  split <;> split <;> omega

theorem exists_offsetBytes (high low : UInt8) :
    ∃ offset, offsetBytes offset = [high, low] := by
  have hhigh := high.toNat_lt
  have hlow := low.toNat_lt
  refine ⟨(UInt16.ofNat (high.toNat * 256 + low.toNat)).toInt16, ?_⟩
  have hvalue :
      (UInt16.ofNat (high.toNat * 256 + low.toNat)).toInt16.toUInt16.toNat =
        high.toNat * 256 + low.toNat := by
    rw [UInt16.toUInt16_toInt16, UInt16.toNat_ofNat']
    omega
  have hdiv : (high.toNat * 256 + low.toNat) / 256 = high.toNat := by omega
  have hmod : (high.toNat * 256 + low.toNat) % 256 = low.toNat := by omega
  unfold offsetBytes
  rw [hvalue, hdiv, hmod, UInt8.ofNat_toNat, UInt8.ofNat_toNat]

/-- Any even number of bytes can be read as relative offsets. -/
theorem exists_flatMap_offsetBytes {bytes : List UInt8} {n : Nat}
    (h : bytes.length = 2 * n) :
    ∃ offsets : List Int16,
      offsets.length = n ∧ offsets.flatMap offsetBytes = bytes := by
  induction n generalizing bytes with
  | zero =>
      exact ⟨[], rfl, (List.length_eq_zero_iff.mp h).symm⟩
  | succ n ih =>
      obtain ⟨high, tail, rfl⟩ := List.exists_cons_of_length_eq_add_one h
      obtain ⟨low, bytes, rfl⟩ :=
        List.exists_cons_of_length_eq_add_one (Nat.succ.inj h)
      obtain ⟨offset, hoffset⟩ := exists_offsetBytes high low
      have hrest : bytes.length = 2 * n := by
        simp only [List.length_cons] at h
        omega
      obtain ⟨offsets, hlength, hoffsets⟩ := ih hrest
      exact ⟨offset :: offsets, by simp [hlength], by simp [hoffset, hoffsets]⟩

end Instruction

namespace Code

variable {code : Code} {p : Nat} {rest : List UInt8}

theorem getElem?_of_drop {bytes : List UInt8}
    (h : code.toList.drop p = bytes) (k : Nat) : code[p + k]? = bytes[k]? := by
  rw [← h, List.getElem?_drop, Array.getElem?_toList]

theorem drop_add_of_drop {bytes : List UInt8}
    (h : code.toList.drop p = bytes ++ rest) :
    code.toList.drop (p + bytes.length) = rest := by
  rw [← List.drop_drop, h, List.drop_left]

theorem length_of_drop {bytes : List UInt8} (hne : bytes ≠ [])
    (h : code.toList.drop p = bytes ++ rest) :
    p + bytes.length + rest.length = code.size := by
  have hlength := congrArg List.length h
  have hpos := List.length_pos_iff.mpr hne
  simp only [List.length_drop, Array.length_toList, List.length_append] at hlength
  omega

theorem relativeOffset?_of_drop {offset : Int16}
    (h : code.toList.drop p = offsetBytes offset ++ rest) :
    code.relativeOffset? p = some offset.toInt := by
  have hhigh := getElem?_of_drop h 0
  have hlow := getElem?_of_drop h 1
  simp only [offsetBytes, List.cons_append, List.getElem?_cons_zero,
    List.getElem?_cons_succ, Nat.add_zero] at hhigh hlow
  simp only [relativeOffset?, hhigh, hlow, Instruction.signedPair_offsetBytes]

theorem relativeOffsets?_of_drop {offsets : List Int16}
    (h : code.toList.drop p = offsets.flatMap offsetBytes ++ rest) :
    code.relativeOffsets? p offsets.length = some (offsets.map Int16.toInt) := by
  induction offsets generalizing p with
  | nil =>
      rfl
  | cons offset offsets ih =>
      rw [List.flatMap_cons, List.append_assoc] at h
      have hfirst := relativeOffset?_of_drop h
      have hrest := ih (drop_add_of_drop h)
      simp only [offsetBytes, List.length_cons, List.length_nil] at hrest
      simp only [List.length_cons, relativeOffsets?, hfirst, hrest, List.map_cons]

/-- What code holds at a position where an instruction is written. -/
theorem reads_of_drop {i : Instruction}
    (h : code.toList.drop p = i.encode ++ rest) :
    code[p]? = some i.opcode ∧
      code.next p = p + i.encode.length ∧
      code.offsets p = i.offsets.map Int16.toInt := by
  have hop : code[p]? = some i.opcode := getElem?_of_drop h 0
  have himmediate : code.toList.drop (p + 1) = i.immediate ++ rest := by
    rw [← List.drop_drop, h]
    rfl
  have hoperand := i.operand_opcode
  have hnext := next_eq_of_getElem? hop
  rw [hoperand] at hnext
  refine ⟨hop, ?_⟩
  cases i with
  | plain op hdefined hplain =>
      refine ⟨hnext, ?_⟩
      exact offsets_of_operand hop (by simp [hoperand, Instruction.operand])
        (by simp [hoperand, Instruction.operand])
  | push data hlength =>
      refine ⟨?_, ?_⟩
      · rw [hnext]
        simp only [Instruction.operand, operandLength, Instruction.encode,
          Instruction.immediate, List.length_cons]
        omega
      · exact offsets_of_operand hop (by simp [hoperand, Instruction.operand])
          (by simp [hoperand, Instruction.operand])
  | jump conditional offset =>
      refine ⟨hnext, ?_⟩
      exact offsets_of_offset hop hoperand (relativeOffset?_of_drop himmediate)
  | table offsets hlength =>
      have hcount : code.entryCount p = offsets.length := by
        have hbyte : code[p + 1]? = some (UInt8.ofNat offsets.length) :=
          getElem?_of_drop himmediate 0
        have hmod : offsets.length % 256 = offsets.length := by omega
        simp [entryCount, tableSize?, hbyte, hmod]
      have hbytes : code.toList.drop (p + 2) =
          offsets.flatMap offsetBytes ++ rest := by
        rw [← List.drop_drop, h]
        rfl
      have hlength := Instruction.length_encode_table offsets hlength
      have hsize := length_of_drop (by simp [Instruction.encode]) h
      have hread := relativeOffsets?_table hop hoperand (by omega)
      rw [hcount, relativeOffsets?_of_drop hbytes, Option.some.injEq] at hread
      rw [next_of_table hop hoperand]
      exact ⟨by omega, hread.symm⟩

/-- A written instruction breaks no rule when its relative jumps stay in the
code. -/
theorem violation?_of_drop {i : Instruction}
    (h : code.toList.drop p = i.encode ++ rest)
    (hin : ∀ target ∈ code.jumpTargets p, 0 ≤ target ∧ target < code.size) :
    code.violation? p = none := by
  obtain ⟨hop, hnext, -⟩ := reads_of_drop h
  have hsize := length_of_drop (by simp [Instruction.encode]) h
  refine (violation?_eq_none_iff hop).mpr ⟨i.isDefined_opcode, ?_, ?_, hin⟩
  · intro hoffset
    rw [next_of_offset hop hoffset] at hnext
    omega
  · intro htable
    have hnext' := next_of_table hop htable
    rw [i.operand_opcode] at htable
    cases i with
    | plain | push | jump => cases htable
    | table offsets hlength =>
        rw [Instruction.length_encode_table] at hnext hsize
        omega

/-- The bytes of an instruction that is not cut off by the end of the code. -/
theorem exists_immediate {op : Opcode} (hop : code[p]? = some op)
    (hnext : code.next p ≤ code.size) :
    ∃ bytes, code.toList.drop p = op :: bytes ++ code.toList.drop (code.next p) ∧
      bytes.length = code.operandLength p op.operand := by
  have hnext' := next_eq_of_getElem? hop
  obtain ⟨hlt, rfl⟩ := Array.getElem?_eq_some_iff.mp hop
  refine ⟨(code.toList.drop (p + 1)).take
    (code.operandLength p (Opcode.operand code[p])), ?_, ?_⟩
  · have hcons : code.toList.drop p = code[p] :: code.toList.drop (p + 1) := by
      rw [List.drop_eq_getElem_cons (by simpa using hlt), Array.getElem_toList]
    have hsplit := List.take_append_drop
      (code.operandLength p (Opcode.operand code[p])) (code.toList.drop (p + 1))
    rw [List.drop_drop] at hsplit
    rw [hcons, hnext', List.cons_append, hsplit]
  · simp only [List.length_take, List.length_drop, Array.length_toList]
    omega

/-- An instruction that breaks no rule and is not cut off by the end of the
code is one that can be written. -/
theorem exists_instruction {op : Opcode} (hop : code[p]? = some op)
    (hsound : code.violation? p = none) (hnext : code.next p ≤ code.size) :
    ∃ i : Instruction,
      code.toList.drop p = i.encode ++ code.toList.drop (code.next p) := by
  obtain ⟨hdefined, -, htable, -⟩ := (violation?_eq_none_iff hop).mp hsound
  obtain ⟨bytes, hdrop, hlength⟩ := exists_immediate hop hnext
  -- it is enough to find an instruction with this opcode and these bytes
  suffices h : ∃ i : Instruction, i.opcode = op ∧ i.immediate = bytes by
    obtain ⟨i, rfl, rfl⟩ := h
    exact ⟨i, hdrop⟩
  cases hoperand : op.operand with
  | none =>
      rw [hoperand] at hlength
      refine ⟨.plain op hdefined (Opcode.operand_eq_none_iff.mp hoperand), rfl, ?_⟩
      exact (List.length_eq_zero_iff.mp hlength).symm
  | data width =>
      obtain ⟨hpush, hwidth⟩ := Opcode.operand_eq_data_iff.mp hoperand
      rw [hoperand] at hlength
      obtain rfl : bytes.length = width := hlength
      exact ⟨.push bytes hwidth, hpush.symm, rfl⟩
  | offset =>
      rw [hoperand] at hlength
      obtain ⟨high, low, rfl⟩ := List.length_eq_two.mp hlength
      obtain ⟨offset, hoffset⟩ := Instruction.exists_offsetBytes high low
      rcases Opcode.operand_eq_offset_iff.mp hoperand with rfl | rfl
      · exact ⟨.jump false offset, rfl, hoffset⟩
      · exact ⟨.jump true offset, rfl, hoffset⟩
  | table =>
      obtain ⟨hpos, -⟩ := htable hoperand
      rw [hoperand] at hlength
      have hlength' : bytes.length = 2 * code.entryCount p + 1 := by
        simp only [operandLength, tableLength] at hlength
        unfold entryCount
        omega
      obtain ⟨size, entries, rfl⟩ := List.exists_cons_of_length_eq_add_one hlength'
      have hbyte : code[p + 1]? = some size := getElem?_of_drop hdrop 1
      have hcount : code.entryCount p = size.toNat := by
        simp [entryCount, tableSize?, hbyte]
      obtain ⟨offsets, hoffsets, hentries⟩ :=
        Instruction.exists_flatMap_offsetBytes (Nat.succ.inj hlength')
      have hsize := size.toNat_lt
      refine ⟨.table offsets (by omega), ?_, ?_⟩
      · exact (Opcode.operand_eq_table_iff.mp hoperand).symm
      · simp only [Instruction.immediate]
        rw [hentries, hoffsets, hcount, UInt8.ofNat_toNat]

end Code

namespace Instruction

theorem offsetBytes_injective {r r' : Int16} (h : offsetBytes r = offsetBytes r') :
    r = r' := by
  simp only [offsetBytes, List.cons.injEq, and_true] at h
  rw [← Int16.toInt_inj, ← signedPair_offsetBytes, ← signedPair_offsetBytes, h.1, h.2]

theorem flatMap_offsetBytes_injective {rs rs' : List Int16}
    (h : rs.flatMap offsetBytes = rs'.flatMap offsetBytes) : rs = rs' := by
  induction rs generalizing rs' with
  | nil =>
      cases rs' with
      | nil => rfl
      | cons r' rs' => simp [offsetBytes] at h
  | cons r rs ih =>
      cases rs' with
      | nil => simp [offsetBytes] at h
      | cons r' rs' =>
          rw [List.flatMap_cons, List.flatMap_cons] at h
          obtain ⟨hfirst, hrest⟩ := List.append_inj h rfl
          rw [offsetBytes_injective hfirst, ih hrest]

theorem encode_injective {i j : Instruction} (h : i.encode = j.encode) :
    i = j := by
  obtain ⟨hop, himmediate⟩ := List.cons.inj h
  have hoperand : i.operand = j.operand := by
    rw [← operand_opcode, ← operand_opcode, hop]
  cases i with
  | plain op _ _ =>
      cases j with
      | plain op' _ _ =>
          obtain rfl : op = op' := hop
          rfl
      | push | jump | table => cases hoperand
  | push data _ =>
      cases j with
      | push data' _ =>
          obtain rfl : data = data' := himmediate
          rfl
      | plain | jump | table => cases hoperand
  | jump conditional offset =>
      cases j with
      | jump conditional' offset' =>
          rw [offsetBytes_injective himmediate]
          cases conditional <;> cases conditional' <;> first | rfl | cases hop
      | plain | push | table => cases hoperand
  | table offsets _ =>
      cases j with
      | table offsets' _ =>
          obtain ⟨-, hoffsets⟩ := List.cons.inj himmediate
          obtain rfl := flatMap_offsetBytes_injective hoffsets
          rfl
      | plain | push | jump => cases hoperand

/-- The bytes at hand determine the instruction that they begin with. -/
theorem encode_prefix_free {i j : Instruction} {rest rest' : List UInt8}
    (h : i.encode ++ rest = j.encode ++ rest') : i = j ∧ rest = rest' := by
  -- both are read from the same bytes, so both have the same length
  have hi : (i.encode ++ rest).toArray.toList.drop 0 = i.encode ++ rest := rfl
  have hj : (i.encode ++ rest).toArray.toList.drop 0 = j.encode ++ rest' := h
  obtain ⟨-, hnext, -⟩ := Code.reads_of_drop hi
  obtain ⟨-, hnext', -⟩ := Code.reads_of_drop hj
  obtain ⟨hencode, hrest⟩ := List.append_inj h (by omega)
  exact ⟨encode_injective hencode, hrest⟩

end Instruction
end EvmCheck
