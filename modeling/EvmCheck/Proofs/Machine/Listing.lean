import EvmCheck.Listing
import EvmCheck.Proofs.Machine.Survey

/-!
# Listings on machine words

The listing goes over any code, so its positions are not guarded by a survey: it
cuts the immediate bytes off at the end of the code before it takes their slice,
and looks up the names that differ in a number in tables of their own.

For code that fits the signed words of the machine the listing does not fail
either.  With the survey and the bitmap that it gives, this makes the program on
machine words one that never fails, and an exact one.

**Results.**
* `mnemonic?_eq`: the tables have a name wherever they are asked for one.
* `lineAt_word`: one line.
* `disassemble_eq`: the whole listing.
* `no_fault_and_exact`: the survey, the listing and the bitmap together.
-/

namespace EvmCheck
namespace Machine

/-- The name of `op` in a table of names for the opcodes from `first` on. -/
def nameIn (names : List String) (first op : Opcode) : Checked (Option String) := do
  let index ← subByte op first
  let name ← read names.toArray index.toUInt64
  return some name

/-- The mnemonic of an opcode; those that differ in a number only have tables of their
own. -/
def mnemonic? (op : Opcode) : Checked (Option String) :=
  if 0x60 ≤ op ∧ op ≤ 0x7f then nameIn (Opcode.numbered "PUSH" 1 32) 0x60 op
  else if 0x80 ≤ op ∧ op ≤ 0x8f then nameIn (Opcode.numbered "DUP" 1 16) 0x80 op
  else if 0x90 ≤ op ∧ op ≤ 0x9f then nameIn (Opcode.numbered "SWAP" 1 16) 0x90 op
  else return op.mnemonic?

/-- The line for the instruction at `p`, and the position after it. -/
def lineAt (code : Code) (p : UInt64) : Checked (String × UInt64) := do
  let op ← read code p
  let name ← mnemonic? op
  let len ← immediateLength code p
  let first ← add p 1
  let last ← add first len
  let data ← slice code (min first (length code)) (min last (length code))
  let text := Text.hexPadded 4 p.toNat ++ ": " ++ name.getD "UNDEFINED" ++
    (if data.isEmpty then "" else " 0x" ++ Text.bytes data.toList)
  let next ← add p (← add 1 len)
  return (text, next)

theorem lineAt_advances {code : Code} {p next : UInt64} {text : String}
    (h : lineAt code p = .ok (text, next)) : p.toNat < next.toNat := by
  obtain ⟨op, -, h⟩ := bind_eq_ok_iff.mp h
  obtain ⟨name, -, h⟩ := bind_eq_ok_iff.mp h
  obtain ⟨len, -, h⟩ := bind_eq_ok_iff.mp h
  obtain ⟨first, -, h⟩ := bind_eq_ok_iff.mp h
  obtain ⟨last, -, h⟩ := bind_eq_ok_iff.mp h
  obtain ⟨data, -, h⟩ := bind_eq_ok_iff.mp h
  obtain ⟨width, hwidth, h⟩ := bind_eq_ok_iff.mp h
  obtain ⟨next', hnext, h⟩ := bind_eq_ok_iff.mp h
  obtain ⟨-, rfl⟩ := Prod.mk.inj (Except.ok.inj h)
  have hpos : width.toNat = 1 + len.toNat := toNat_of_add_eq_ok hwidth
  have hsum := toNat_of_add_eq_ok hnext
  omega

-- The equation is read in `decreasing_by` only.
set_option linter.unusedVariables false in
/-- The lines for the instructions from `p` on. -/
def linesFrom (code : Code) (p : UInt64) : Checked (List String) :=
  if hp : p < length code then
    match hline : lineAt code p with
    | .error fault => .error fault
    | .ok (text, next) => do
        let rest ← linesFrom code next
        return text :: rest
  else return []
termination_by (length code).toNat - p.toNat
decreasing_by
  have := lineAt_advances hline
  have := UInt64.lt_iff_toNat_lt.mp hp
  omega

/-- The listing as text. -/
def disassemble (code : Code) : Checked String := do
  let lines ← linesFrom code 0
  return "\n".intercalate lines

/-! ### The listing does not fail -/

/-- A table of numbered names that gives the mnemonics of its opcodes is never asked
for a name that it does not have. -/
theorem nameIn_numbered {stem : String} {first count : Nat} {op : Opcode}
    (hnames : ∀ i : Fin count,
      Opcode.mnemonic? (UInt8.ofNat (first + i)) = (Opcode.numbered stem 1 count)[i.val]?)
    (hle : first ≤ op.toNat) (hlt : op.toNat < first + count) :
    nameIn (Opcode.numbered stem 1 count) (UInt8.ofNat first) op = .ok op.mnemonic? := by
  have hfirst : (UInt8.ofNat first).toNat = first :=
    UInt8.toNat_ofNat_of_lt (Nat.lt_of_le_of_lt hle op.toNat_lt)
  have hle' : UInt8.ofNat first ≤ op := by
    rw [UInt8.le_iff_toNat_le, hfirst]
    exact hle
  have hindex : op.toNat - first < (Opcode.numbered stem 1 count).length := by
    rw [Opcode.numbered, List.length_map, List.length_range]
    omega
  have hname := hnames ⟨op.toNat - first, by omega⟩
  simp only [Nat.add_sub_cancel' hle, UInt8.ofNat_toNat,
    List.getElem?_eq_getElem hindex] at hname
  have hread : read (Opcode.numbered stem 1 count).toArray (word (op.toNat - first)) =
      .ok (Opcode.numbered stem 1 count)[op.toNat - first] := by
    refine read_word ?_ (by rw [List.getElem?_toArray, List.getElem?_eq_getElem hindex])
    exact Nat.lt_of_le_of_lt (Nat.sub_le _ _) (Nat.lt_trans op.toNat_lt (by decide))
  rw [nameIn, subByte, if_pos hle', ok_bind, toUInt64_eq_word,
    UInt8.toNat_sub_of_le _ _ hle', hfirst, hread, hname]
  rfl

theorem mnemonic?_eq (op : Opcode) : mnemonic? op = .ok op.mnemonic? := by
  unfold mnemonic?
  simp only [UInt8.le_iff_toNat_le]
  split_ifs with hpush hdup hswap
  · exact nameIn_numbered (by decide +kernel) hpush.1 (Nat.lt_succ_of_le hpush.2)
  · exact nameIn_numbered (by decide +kernel) hdup.1 (Nat.lt_succ_of_le hdup.2)
  · exact nameIn_numbered (by decide +kernel) hswap.1 (Nat.lt_succ_of_le hswap.2)
  · rfl

section Lines

variable {code : Code} {p : Nat}

theorem extract_min (code : Code) (first last : Nat) :
    code.extract first (min last code.size) = code.extract first last := by
  apply Array.ext_getElem?
  intro i
  rw [Array.getElem?_extract, Array.getElem?_extract, Nat.min_assoc, Nat.min_self]

/-- One line, and the position of the next one. -/
theorem lineAt_word (hsize : code.size ≤ sizeLimit) (hp : p < code.size) :
    lineAt code (word p) = .ok ((code.lineAt p).render, word (code.next p)) := by
  have hword := add_lt_size_of_le hsize
  obtain ⟨op, hop⟩ : ∃ op : Opcode, code[p]? = some op := ⟨_, Array.getElem?_eq_getElem hp⟩
  have hle := immediateLength_le hop
  have hnext : code.next p = p + 1 + code.immediateLength p := rfl
  have hfirst : add (word p) 1 = .ok (word (p + 1)) := add_word (n := 1) (by omega)
  have hlast : add (word (p + 1)) (word (code.immediateLength p)) =
      .ok (word (code.next p)) := add_word (by omega)
  -- the instruction may go past the end, but its first immediate byte is at most there
  have hcut : min (word (p + 1)) (length code) = word (p + 1) := by
    rw [length, word_min (by omega) (by omega), Nat.min_eq_left hp]
  have hcut' : min (word (code.next p)) (length code) = word (min (code.next p) code.size) :=
    word_min (by omega) (by omega)
  have hdata : slice code (word (p + 1)) (word (min (code.next p) code.size)) =
      .ok (code.extract (p + 1) (code.next p)) := by
    rw [slice_word (by omega) (by omega) (by omega), extract_min]
  have hwidth : add 1 (word (code.immediateLength p)) =
      .ok (word (1 + code.immediateLength p)) := add_word (m := 1) (by omega)
  have hafter : add (word p) (word (1 + code.immediateLength p)) =
      .ok (word (code.next p)) := by
    rw [add_word (by omega), hnext, Nat.add_assoc]
  simp only [lineAt, read_word (show p < UInt64.size by omega) hop, mnemonic?_eq,
    immediateLength_word (show code.size < UInt64.size by omega) hp, hfirst, hlast, hcut,
    hcut', hdata, hwidth, hafter, ok_bind, toNat_word (show p < UInt64.size by omega)]
  simp only [Line.render, Line.mnemonic, Code.lineAt, Code.immediate, Array.isEmpty_toList,
    Array.getD_eq_getD_getElem?, hop, Option.getD_some]
  rfl

theorem linesFrom_of_le {p : UInt64} (hp : ¬ p < length code) :
    linesFrom code p = .ok [] := by
  rw [linesFrom, dif_neg hp]
  rfl

theorem linesFrom_of_lt {p : UInt64} (hp : p < length code) :
    linesFrom code p = do
      let (text, next) ← lineAt code p
      let rest ← linesFrom code next
      return text :: rest := by
  rw [linesFrom, dif_pos hp]
  split
  · rename_i hline
    rw [hline]
    rfl
  · rename_i hline
    rw [hline]
    rfl

/-- From every position of the walk on, the lines are those of the listing. -/
theorem linesFrom_eq (hsize : code.size ≤ sizeLimit)
    (hp : p ≤ code.size + 512) :
    linesFrom code (word p) =
      .ok ((code.startsFrom p).map fun q => (code.lineAt q).render) := by
  have hword := add_lt_size_of_le hsize
  induction p using Code.walk_induction code with
  | done p hle =>
      have hin : ¬ word p < length code := by
        rw [length, word_lt_word_iff (by omega) (by omega)]
        omega
      rw [linesFrom_of_le hin, Code.startsFrom_of_le hle]
      rfl
  | step p hlt ih =>
      have hin : word p < length code := (word_lt_word_iff (by omega) (by omega)).mpr hlt
      have hrest := ih (by
        have := immediateLength_le (Array.getElem?_eq_getElem hlt)
        unfold Code.next
        omega)
      rw [linesFrom_of_lt hin, lineAt_word hsize hlt, ok_bind]
      simp only [hrest, ok_bind, Code.startsFrom_of_lt hlt, List.map_cons]
      rfl

theorem disassemble_eq (hsize : code.size ≤ sizeLimit) :
    disassemble code = .ok code.disassemble := by
  have hlines := linesFrom_eq hsize (Nat.zero_le _)
  rw [disassemble, show (0 : UInt64) = word 0 from rfl, hlines, ok_bind, Code.disassemble,
    Code.listing, List.map_map]
  rfl

end Lines

/-! ### The whole program -/

/-- **No operation fails, and the arithmetic is exact.**  For code of at most
`2^63 - 1 - 32767` bytes, so that a position and any offset from it add up to a
signed word, validation on machine words has a result, which is the outcome with its
log.  A target is accepted exactly when the integer that it stands for lies in the
code, and otherwise this integer is what is reported.  The listing and the lengths
that it goes by have results, and so has every question to the bitmap of accepted
code, at any position. -/
theorem no_fault_and_exact (code : Code) (hsize : code.size ≤ 9223372036854775807 - 32767) :
    validate code = .ok (packOutcome code.validate, code.validateLogged.events) ∧
    (∀ (base : Nat) (relative : Int16), base ≤ code.size →
      (target? (length code) (word base) relative =
        if 0 ≤ (base : Int) + relative.toInt ∧ (base : Int) + relative.toInt < code.size then
          some (word ((base : Int) + relative.toInt).toNat)
        else none) ∧
      ∃ sum, addInt (word base).toInt64 relative.toInt64 = .ok sum ∧
        sum.toInt = base + relative.toInt) ∧
    disassemble code = .ok code.disassemble ∧
    (∀ p ∈ code.starts,
      immediateLength code (word p) = .ok (word (code.immediateLength p))) ∧
    (∀ jumpdests, code.validate = .accepted jumpdests →
      (∀ q : UInt64, jumpdests.packed.isValid q = .ok (jumpdests.contains q.toNat)) ∧
      jumpdests.packed.positions = .ok jumpdests.toList) := by
  have hsize : code.size ≤ sizeLimit := hsize
  have hword := add_lt_size_of_le hsize
  refine ⟨validate_eq hsize, ?targets, disassemble_eq hsize, ?lengths, ?bitmap⟩
  case targets =>
    intro base relative hbase
    exact ⟨target?_eq hsize hbase relative, addInt_word (Nat.le_trans hbase hsize) relative⟩
  case lengths =>
    intro p hp
    exact immediateLength_word (by omega) (Code.mem_starts_iff.mp hp).lt_size
  case bitmap =>
    intro jumpdests haccepted
    have hset : jumpdests.size = code.size :=
      (Code.validate_eq_accepted_iff.mp haccepted).size_eq
    exact ⟨isValid_packed (by omega), positions_packed (by omega)⟩

/-- A marker, a table with one offset back to it, and the end. -/
theorem no_fault_on_backward_table :
    validate #[0x5b, 0x5e, 0x01, 0xff, 0xfb, 0x00] =
      .ok (.ok { words := #[1], length := 6 }, #[.jumpResolved 1 0, .accepted 6 1]) ∧
    disassemble #[0x5b, 0x5e, 0x01, 0xff, 0xfb, 0x00] =
      .ok "0000: JUMPDEST\n0001: RJUMPV 0x01fffb\n0005: STOP" := by
  obtain ⟨hvalidate, -, hlisting, -⟩ :=
    no_fault_and_exact #[0x5b, 0x5e, 0x01, 0xff, 0xfb, 0x00] (by decide)
  have houtcome : packOutcome (Code.validate #[0x5b, 0x5e, 0x01, 0xff, 0xfb, 0x00]) =
      .ok { words := #[1], length := 6 } := by
    decide +kernel
  have hevents : (Code.validateLogged #[0x5b, 0x5e, 0x01, 0xff, 0xfb, 0x00]).events =
      #[.jumpResolved 1 0, .accepted 6 1] := by
    decide +kernel
  have htext : Code.disassemble #[0x5b, 0x5e, 0x01, 0xff, 0xfb, 0x00] =
      "0000: JUMPDEST\n0001: RJUMPV 0x01fffb\n0005: STOP" := by
    decide +kernel
  rw [hvalidate, hlisting, houtcome, hevents, htext]
  exact ⟨rfl, rfl⟩

end Machine
end EvmCheck
