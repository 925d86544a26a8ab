import EvmCheck.Proofs.Locality
import EvmCheck.Proofs.Printed

/-!
# What the text of a listing tells

The text of a listing shows of each instruction its position, its mnemonic and
its immediate bytes, and all of this can be read back.  Only opcodes without a
mnemonic look the same.

So two codes have one text exactly when they are `Alike`: they have the same bytes,
except that at an instruction start both may hold undefined opcodes.  These have no
immediate bytes, so they do not change where the other instructions start.

**Results.**
* `Code.Alike.map_shown_listing`, `Code.alike_of_shown`: listings that show the same
  are those of codes that are alike.
* `Code.disassemble_determines`: the text determines the code up to undefined
  opcodes.
-/

namespace EvmCheck
namespace Code

variable {code code' : Code} {p i : Nat}

theorem opcode_lineAt {op : Opcode} (hop : code[p]? = some op) :
    (code.lineAt p).opcode = op := by
  simp [lineAt, Array.getD_eq_getD_getElem?, hop]

theorem getElem?_immediate (code : Code) (p k : Nat) :
    (code.immediate p)[k]? =
      if k < code.immediateLength p then code[p + 1 + k]? else none := by
  rw [immediate_eq, List.getElem?_take, List.getElem?_drop, Array.getElem?_toList]

/-- At an instruction start of `code` both codes hold undefined opcodes. -/
def BothUndefined (code code' : Code) (i : Nat) : Prop :=
  code.IsStart i ∧ ∃ op op' : Opcode, code[i]? = some op ∧ code'[i]? = some op' ∧
    op.isDefined = false ∧ op'.isDefined = false

/-- The codes have the same bytes, except that at an instruction start both may hold
undefined opcodes. -/
structure Alike (code code' : Code) : Prop where
  size_eq : code.size = code'.size
  byte_cases : ∀ i, i < code.size →
    code[i]? = code'[i]? ∨ BothUndefined code code' i

/-! ### Listings of codes that are alike -/

namespace Alike

variable (h : Alike code code')
include h

/-- Immediate bytes are the same. -/
theorem immediate_byte_eq (hp : code.IsStart p) (hlt : p < i) (hnext : i < code.next p) :
    code[i]? = code'[i]? := by
  by_cases hi : i < code.size
  · rcases h.byte_cases i hi with heq | ⟨hstart, -⟩
    · exact heq
    · exact absurd hstart (hp.not_isStart hlt hnext)
  · rw [Array.getElem?_eq_none (by omega),
      Array.getElem?_eq_none (by rw [← h.size_eq]; omega)]

theorem opcode_cases (hp : code.IsStart p) :
    ∃ op op' : Opcode, code[p]? = some op ∧ code'[p]? = some op' ∧
      (op = op' ∨ op.isDefined = false ∧ op'.isDefined = false) := by
  obtain ⟨op, hop⟩ := getElem?_of_isStart hp
  rcases h.byte_cases p hp.lt_size with heq | ⟨-, op₁, op', hop₁, hop', hundefined⟩
  · exact ⟨op, op, hop, heq.symm.trans hop, Or.inl rfl⟩
  · exact ⟨op₁, op', hop₁, hop', Or.inr hundefined⟩

theorem readsAs (hp : code.IsStart p) : ReadsAs code p code' p := by
  obtain ⟨op, op', hop, hop', hcases⟩ := h.opcode_cases hp
  refine ⟨?_, ?_⟩
  · rw [hop, hop', Option.map_some, Option.map_some]
    rcases hcases with rfl | ⟨hundefined, hundefined'⟩
    · rfl
    · rw [Opcode.operand_of_undefined hundefined, Opcode.operand_of_undefined hundefined']
  · intro _ k hk
    refine (h.immediate_byte_eq hp (by omega) ?_).symm
    unfold next
    omega

theorem startsFrom_eq (hp : p < code.size → code.IsStart p) :
    code.startsFrom p = code'.startsFrom p := by
  induction p using walk_induction code with
  | done p hle =>
      rw [startsFrom_of_le hle, startsFrom_of_le (h.size_eq ▸ hle)]
  | step p hlt ih =>
      have hlt' : p < code'.size := h.size_eq ▸ hlt
      have hnext : code'.next p = code.next p := (h.readsAs (hp hlt)).next_eq
      rw [startsFrom_of_lt hlt, startsFrom_of_lt hlt', hnext,
        ih fun hstart => .next (hp hlt) hstart]

/-- The line for an instruction shows the same of both codes. -/
theorem shown_lineAt (hp : code.IsStart p) :
    (code.lineAt p).shown = (code'.lineAt p).shown := by
  obtain ⟨op, op', hop, hop', hcases⟩ := h.opcode_cases hp
  have hmnemonic : (code.lineAt p).mnemonic = (code'.lineAt p).mnemonic := by
    rw [Line.mnemonic_eq_iff, opcode_lineAt hop, opcode_lineAt hop']
    exact hcases
  have hdata : (code.lineAt p).data = (code'.lineAt p).data := by
    apply List.ext_getElem?
    intro k
    simp only [lineAt, getElem?_immediate, (h.readsAs hp).immediateLength_eq]
    split
    · refine h.immediate_byte_eq hp (by omega) ?_
      unfold next
      omega
    · rfl
  rw [Line.shown, Line.shown, hmnemonic, hdata]
  rfl

theorem map_shown_listing :
    code.listing.map Line.shown = code'.listing.map Line.shown := by
  have hstarts : code.starts = code'.starts := h.startsFrom_eq IsStart.first
  rw [listing, listing, ← hstarts, List.map_map, List.map_map]
  refine List.map_congr_left ?_
  intro p hp
  exact h.shown_lineAt (mem_starts_iff.mp hp)

end Alike

/-! ### Codes whose listings show the same -/

section Shown

variable (h : code.listing.map Line.shown = code'.listing.map Line.shown)
include h

theorem starts_eq_of_shown : code.starts = code'.starts := by
  have hpositions := congrArg (List.map Shown.position) h
  rw [List.map_map, List.map_map] at hpositions
  rw [← map_position_listing, ← map_position_listing]
  exact hpositions

theorem shown_lineAt_of_shown (hp : code.IsStart p) :
    (code.lineAt p).shown = (code'.lineAt p).shown := by
  rw [listing, listing, ← starts_eq_of_shown h, List.map_map, List.map_map,
    List.map_inj_left] at h
  exact h p (mem_starts_iff.mpr hp)

/-- The bytes that the lines show are all there are. -/
theorem size_eq_of_shown : code.size = code'.size := by
  have hsize : ∀ code : Code, code.size =
      ((code.listing.map Line.shown).map fun line => line.data.length + 1).sum := by
    intro code
    have hbytes := congrArg List.length code.flatMap_bytes_listing
    rw [List.length_flatMap, Array.length_toList] at hbytes
    rw [← hbytes, List.map_map]
    rfl
  rw [hsize code, hsize code', h]

theorem immediate_byte_eq_of_shown (hp : code.IsStart p) (hlt : p < i)
    (hnext : i < code.next p) (hi : i < code.size) : code[i]? = code'[i]? := by
  have hdata : code.immediate p = code'.immediate p :=
    congrArg Shown.data (shown_lineAt_of_shown h hp)
  obtain ⟨k, rfl⟩ : ∃ k, i = p + 1 + k := ⟨i - p - 1, by omega⟩
  have hk : k < code.immediateLength p := by
    unfold next at hnext
    omega
  have hbyte := code.getElem?_immediate p k
  rw [if_pos hk, hdata, getElem?_immediate] at hbyte
  split at hbyte
  · exact hbyte.symm
  · rw [Array.getElem?_eq_getElem hi] at hbyte
    cases hbyte

theorem opcode_cases_of_shown (hp : code.IsStart p) :
    code[p]? = code'[p]? ∨ BothUndefined code code' p := by
  obtain ⟨op, hop⟩ := getElem?_of_isStart hp
  have hp' : code'.IsStart p := by
    rw [← mem_starts_iff, ← starts_eq_of_shown h]
    exact mem_starts_iff.mpr hp
  obtain ⟨op', hop'⟩ := getElem?_of_isStart hp'
  have hmnemonic : (code.lineAt p).mnemonic = (code'.lineAt p).mnemonic :=
    congrArg Shown.name (shown_lineAt_of_shown h hp)
  rw [Line.mnemonic_eq_iff, opcode_lineAt hop, opcode_lineAt hop'] at hmnemonic
  rcases hmnemonic with rfl | hundefined
  · exact Or.inl (hop.trans hop'.symm)
  · exact Or.inr ⟨hp, op, op', hop, hop', hundefined⟩

theorem alike_of_shown : Alike code code' := by
  refine ⟨size_eq_of_shown h, ?_⟩
  intro i hi
  -- the byte is the opcode of an instruction or one of its immediate bytes
  obtain ⟨p, hp, hle, hnext⟩ := exists_isStart_of_lt hi
  rcases Nat.eq_or_lt_of_le hle with rfl | hlt
  · exact opcode_cases_of_shown h hp
  · exact Or.inl (immediate_byte_eq_of_shown h hp hlt hnext hi)

end Shown

/-- In accepted code there is nothing to mistake. -/
theorem Alike.eq_of_accepted {s : PositionSet} (h : Alike code code')
    (haccepted : code.Accepted s) : code = code' := by
  apply Array.ext_getElem?
  intro i
  by_cases hi : i < code.size
  · rcases h.byte_cases i hi with heq | ⟨hstart, op, op', hop, -, hundefined, -⟩
    · exact heq
    · obtain ⟨hdefined, -⟩ :=
        (violation?_eq_none_iff hop).mp (haccepted.sound i hstart)
      rw [hundefined] at hdefined
      cases hdefined
  · rw [Array.getElem?_eq_none (by omega),
      Array.getElem?_eq_none (by rw [← h.size_eq]; omega)]

/-- **The text of a listing determines the code up to undefined opcodes.**  Two codes
have the same text exactly when they are equally long and have the same bytes, except
that at an instruction start both may hold undefined opcodes.  So no two accepted
codes have the same text. -/
theorem disassemble_determines (code code' : Code) :
    (code.disassemble = code'.disassemble ↔
      code.size = code'.size ∧
        ∀ i, i < code.size → code[i]? = code'[i]? ∨ BothUndefined code code' i) ∧
    (∀ s s', code.validate = .accepted s → code'.validate = .accepted s' →
      code.disassemble = code'.disassemble → code = code') := by
  refine ⟨⟨?_, ?_⟩, ?_⟩
  · intro h
    obtain ⟨hsize, hbytes⟩ := alike_of_shown (disassemble_eq_iff_shown.mp h)
    exact ⟨hsize, hbytes⟩
  · rintro ⟨hsize, hbytes⟩
    exact disassemble_eq_iff_shown.mpr (Alike.map_shown_listing ⟨hsize, hbytes⟩)
  · intro s s' haccepted _ h
    exact (alike_of_shown (disassemble_eq_iff_shown.mp h)).eq_of_accepted
      (validate_eq_accepted_iff.mp haccepted)

/-- Two undefined opcodes look the same where an instruction starts, but not as data
of a push. -/
theorem disassemble_undefined_bytes :
    disassemble #[0x0c, 0x5b] = disassemble #[0x21, 0x5b] ∧
    disassemble #[0x60, 0x0c, 0x00] ≠ disassemble #[0x60, 0x21, 0x00] := by
  constructor
  · refine (disassemble_determines _ _).1.mpr ⟨rfl, ?_⟩
    intro i hi
    have hcases : i = 0 ∨ i = 1 := by
      have hi : i < 2 := hi
      omega
    rcases hcases with rfl | rfl
    · exact Or.inr ⟨.first (by decide), 0x0c, 0x21, rfl, rfl, by decide, by decide⟩
    · exact Or.inl rfl
  · intro h
    have haccepted : validate #[0x60, 0x0c, 0x00] = .accepted (.empty 3) := by
      decide +kernel
    have haccepted' : validate #[0x60, 0x21, 0x00] = .accepted (.empty 3) := by
      decide +kernel
    have heq := (disassemble_determines _ _).2 _ _ haccepted haccepted' h
    exact absurd heq (by decide)

end Code
end EvmCheck
