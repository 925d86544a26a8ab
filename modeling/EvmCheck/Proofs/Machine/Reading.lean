import EvmCheck.Proofs.Machine.Word
import EvmCheck.Proofs.Violation

/-!
# Reading code with machine words

What an instruction says about itself is read from the code with checked
operations: the kind of its opcode from a table of all bytes, the offsets and the
size of a jump table from the bytes after it.  The target of a jump is computed
with the wraparound of the machine and then compared with the size of the code.

**Results.**
* `relativeOffset_word`, `tableSize_word`, `pushWidth?_eq`: what is read is what the
  code holds.
* `immediateLength_word`: the length of the immediate bytes.
* `target?_eq`: a target is accepted when the exact sum lies in the code.
-/

namespace EvmCheck
namespace Machine

/-- The number of bytes of the code. -/
def length (code : Code) : UInt64 :=
  word code.size

/-- The relative offset written in the two bytes from `p` on. -/
def relativeOffset (code : Code) (p : UInt64) : Checked Int16 := do
  let high ← read code p
  let low ← read code (← add p 1)
  return signedOfBytes high low

/-- The number of entries that the size byte at `p` announces. -/
def tableSize (code : Code) (p : UInt64) : Checked UInt64 := do
  let size ← read code p
  return size.toUInt64

/-- Bytes taken by a jump table, its size byte included. -/
def tableLength (entries : UInt64) : Checked UInt64 := do
  add 1 (← mul 2 entries)

/-- The number of data bytes of a push opcode. -/
def pushWidth? (op : Opcode) : Checked (Option UInt64) :=
  if 0x5f < op ∧ op ≤ 0x7f then do
    let width ← subByte op 0x5f
    return some width.toUInt64
  else return none

/-- The kinds of all bytes, in the order of the bytes. -/
def kinds : Array Opcode.Kind :=
  Array.ofFn fun i : Fin 256 => Opcode.kind (UInt8.ofNat i)

/-- The kind of an opcode, looked up in the table. -/
def kindOf (op : Opcode) : Checked Opcode.Kind :=
  read kinds op.toUInt64

/-- The number of immediate bytes of the instruction at `p`, where a size byte that
is missing stands for an empty table. -/
def immediateLength (code : Code) (p : UInt64) : Checked UInt64 := do
  let op : Opcode ← read code p
  if op = .rjump ∨ op = .rjumpi then return 2
  else if op = .rjumpv then do
    let first ← add p 1
    tableLength ((code[first.toNat]?.map UInt8.toUInt64).getD 0)
  else do
    let width ← pushWidth? op
    return width.getD 0

/-- Every second position from `first` on and before `last`. -/
def everySecond (first last : UInt64) : List UInt64 :=
  (List.range ((last.toNat - first.toNat + 1) / 2)).map fun i => word (first.toNat + 2 * i)

/-- The target of an offset from `base`, if it is below `size`. -/
def target? (size base : UInt64) (relative : Int16) : Option UInt64 :=
  match addSigned? base relative.toInt64 with
  | some target => if target < size then some target else none
  | none => none

/-! ### Reading gives what the code holds -/

section Reading

variable {code : Code} {p : Nat} {op : Opcode}

theorem relativeOffset_word {offset : Int} (hsize : code.size < UInt64.size)
    (h : code.relativeOffset? p = some offset) :
    ∃ relative, relativeOffset code (word p) = .ok relative ∧ relative.toInt = offset := by
  unfold Code.relativeOffset? at h
  split at h
  · rename_i high low hhigh hlow
    have hlt : p + 1 < code.size := (Array.getElem?_eq_some_iff.mp hlow).1
    refine ⟨signedOfBytes high low, ?_, ?_⟩
    · have hnext : add (word p) 1 = .ok (word (p + 1)) := add_word (n := 1) (by omega)
      simp only [relativeOffset, read_word (by omega) hhigh, hnext,
        read_word (show p + 1 < UInt64.size by omega) hlow, ok_bind]
      rfl
    · rw [toInt_signedOfBytes]
      exact Option.some.inj h
  · cases h

theorem tableSize_word {n : Nat} (hsize : code.size < UInt64.size)
    (h : code.tableSize? p = some n) : tableSize code (word p) = .ok (word n) := by
  obtain ⟨size, hread, rfl⟩ := Option.map_eq_some_iff.mp h
  have hlt : p < code.size := (Array.getElem?_eq_some_iff.mp hread).1
  simp only [tableSize, read_word (by omega) hread, ok_bind, toUInt64_eq_word]
  rfl

theorem tableSize?_lt {n : Nat} (h : code.tableSize? p = some n) : n < 256 := by
  obtain ⟨size, -, rfl⟩ := Option.map_eq_some_iff.mp h
  exact size.toNat_lt

theorem tableLength_word {n : Nat} (hn : n < 256) :
    tableLength (word n) = .ok (word (Code.tableLength n)) := by
  have hmul : mul 2 (word n) = .ok (word (2 * n)) :=
    mul_word (by decide) (by simp only [UInt64.size]; omega) (by simp only [UInt64.size]; omega)
  rw [tableLength, hmul, ok_bind]
  exact add_word (by simp only [UInt64.size]; omega)

theorem pushWidth?_eq (op : Opcode) : pushWidth? op = .ok (op.pushWidth?.map word) := by
  have hiff : 0x5f < op ↔ 0x60 ≤ op := by
    rw [UInt8.lt_iff_toNat_lt, UInt8.le_iff_toNat_le]
    exact Nat.lt_iff_add_one_le
  unfold pushWidth? Opcode.pushWidth?
  simp only [hiff]
  split
  · rename_i hpush
    have hle : (0x5f : UInt8) ≤ op := UInt8.le_of_lt (hiff.mpr hpush.1)
    rw [subByte, if_pos hle, ok_bind, toUInt64_eq_word, UInt8.toNat_sub_of_le _ _ hle]
    rfl
  · rfl

theorem kindOf_eq (op : Opcode) : kindOf op = .ok op.kind := by
  rw [kindOf, toUInt64_eq_word]
  refine read_word (Nat.lt_trans op.toNat_lt (by decide)) ?_
  rw [kinds, Array.getElem?_ofFn, dif_pos op.toNat_lt]
  simp

theorem everySecond_word {q n : Nat} (h : q + 2 * n < UInt64.size) :
    everySecond (word q) (word (q + 2 * n)) =
      (List.range n).map fun i => word (q + 2 * i) := by
  have hcount : (q + 2 * n - q + 1) / 2 = n := by omega
  rw [everySecond, toNat_word h, toNat_word (by omega), hcount]

theorem map_word_range_succ (q n : Nat) :
    ((List.range (n + 1)).map fun i => word (q + 2 * i)) =
      word q :: (List.range n).map fun i => word (q + 2 + 2 * i) := by
  rw [List.range_succ_eq_map, List.map_cons, List.map_map]
  congr 1
  apply List.map_congr_left
  intro i _
  simp only [Function.comp_apply]
  congr 1
  omega

theorem pushWidth?_of_data {width : Nat} (h : op.operand = .data width) :
    pushWidth? op = .ok (some (word width)) := by
  rw [pushWidth?_eq, Opcode.pushWidth?_eq_some_iff.mpr h]
  rfl

theorem pushWidth?_of_ne_data (h : ∀ width, op.operand ≠ .data width) :
    pushWidth? op = .ok none := by
  have hnone : op.pushWidth? = none := by
    refine Option.eq_none_iff_forall_ne_some.mpr fun width hwidth => h width ?_
    exact Opcode.pushWidth?_eq_some_iff.mp hwidth
  rw [pushWidth?_eq, hnone]
  rfl

/-- The length of the immediate bytes of an instruction in the code. -/
theorem immediateLength_word (hsize : code.size < UInt64.size) (hp : p < code.size) :
    immediateLength code (word p) = .ok (word (code.immediateLength p)) := by
  obtain ⟨op, hop⟩ : ∃ op : Opcode, code[p]? = some op := ⟨_, Array.getElem?_eq_getElem hp⟩
  rw [Code.immediateLength_of_operand hop]
  simp only [immediateLength, read_word (by omega) hop, ok_bind]
  have hoffset : (op = .rjump ∨ op = .rjumpi) ↔ op.operand = .offset :=
    Opcode.operand_eq_offset_iff.symm
  have htable : op = .rjumpv ↔ op.operand = .table := Opcode.operand_eq_table_iff.symm
  simp only [hoffset, htable]
  cases hoperand : op.operand with
  | none =>
      rw [if_neg (by simp), if_neg (by simp), pushWidth?_of_ne_data (by simp [hoperand])]
      rfl
  | data width =>
      rw [if_neg (by simp), if_neg (by simp), pushWidth?_of_data hoperand]
      rfl
  | offset =>
      rw [if_pos rfl]
      rfl
  | table =>
      have hfirst : add (word p) 1 = .ok (word (p + 1)) := add_word (n := 1) (by omega)
      rw [if_neg (by simp), if_pos rfl, hfirst, ok_bind, toNat_word (by omega),
        Code.operandLength, Code.tableSize?]
      cases code[p + 1]? with
      | none =>
          exact tableLength_word (by decide)
      | some size =>
          rw [Option.map_some, Option.getD_some, toUInt64_eq_word]
          exact tableLength_word size.toNat_lt

/-- The longest operand is a jump table with 255 entries. -/
theorem immediateLength_le (hop : code[p]? = some op) : code.immediateLength p ≤ 511 := by
  rw [Code.immediateLength_of_operand hop]
  cases hoperand : op.operand with
  | none =>
      exact Nat.zero_le _
  | data width =>
      obtain ⟨-, -, hwidth⟩ := Opcode.operand_eq_data_iff.mp hoperand
      exact Nat.le_trans hwidth (by decide)
  | offset =>
      exact (by decide : 2 ≤ 511)
  | table =>
      simp only [Code.operandLength, Code.tableLength]
      cases hsize : code.tableSize? (p + 1) with
      | none =>
          decide
      | some n =>
          have := tableSize?_lt hsize
          rw [Option.getD_some]
          omega

/-- A target is accepted exactly when the integer that it stands for lies in the
code, and is then this integer. -/
theorem target?_eq {size base : Nat} (hsize : size ≤ sizeLimit)
    (hbase : base ≤ size) (relative : Int16) :
    target? (word size) (word base) relative =
      if 0 ≤ (base : Int) + relative.toInt ∧ (base : Int) + relative.toInt < size then
        some (word ((base : Int) + relative.toInt).toNat)
      else none := by
  have hhigh := relative.toInt_lt
  have hword := add_lt_size_of_le hsize
  unfold sizeLimit at hsize
  unfold target?
  rw [addSigned?_eq, Int16.toInt_toInt64, toNat_word (show base < UInt64.size by omega)]
  by_cases hfits : 0 ≤ (base : Int) + relative.toInt
  · have hiff : word ((base : Int) + relative.toInt).toNat < word size ↔
        (base : Int) + relative.toInt < size := by
      rw [word_lt_word_iff (by simp only [UInt64.size]; omega) (by omega)]
      omega
    rw [if_pos ⟨hfits, by omega⟩]
    simp only [hiff, hfits, true_and]
  · rw [if_neg (fun h => hfits h.1), if_neg (fun h => hfits h.1)]

end Reading

end Machine
end EvmCheck
