import EvmCheck.Proofs.Verdict

/-!
# The jump destinations of accepted code

The jump destinations of accepted code are its marker instructions: the
instruction starts that hold the marker opcode.  They can be collected by a walk
of their own, `markers`, which knows nothing of the packed set that validation
returns.

**Result.**
* `validate_accepted_markers`: all views of the returned set agree with it.
-/

namespace EvmCheck
namespace Code

variable {code : Code} {p : Nat}

/-- The positions of the marker instructions from `p` on. -/
def markersFrom (code : Code) (p : Nat) : List Nat :=
  if p < code.size then
    if code[p]? = some Opcode.jumpdest then p :: markersFrom code (code.next p)
    else markersFrom code (code.next p)
  else []
termination_by code.size - p
decreasing_by all_goals unfold next; omega

/-- The positions of the marker instructions. -/
def markers (code : Code) : List Nat :=
  code.markersFrom 0

theorem markersFrom_eq_filter (code : Code) (p : Nat) :
    code.markersFrom p =
      (code.startsFrom p).filter fun q => code[q]? = some Opcode.jumpdest := by
  induction p using walk_induction code with
  | done p hle =>
      rw [markersFrom, if_neg (Nat.not_lt.mpr hle), startsFrom_of_le hle]
      rfl
  | step p hlt ih =>
      rw [markersFrom, if_pos hlt, startsFrom_of_lt hlt, List.filter_cons, ih]
      simp only [decide_eq_true_eq]

theorem pairwise_markers (code : Code) : code.markers.Pairwise (· < ·) := by
  unfold markers
  rw [markersFrom_eq_filter]
  exact (code.pairwise_startsFrom 0).filter _

theorem mem_markers_iff :
    p ∈ code.markers ↔ code.IsStart p ∧ code[p]? = some Opcode.jumpdest := by
  unfold markers
  rw [markersFrom_eq_filter, List.mem_filter, decide_eq_true_eq]
  exact and_congr_left' mem_starts_iff

/-- The list of jump destinations is the one that the walk collects. -/
theorem Accepted.toList_eq_markers {s : PositionSet} (h : code.Accepted s) :
    s.toList = code.markers := by
  apply PositionSet.toList_eq_of_mem_iff code.pairwise_markers
  intro p
  rw [mem_markers_iff, h.contains_iff]

/-- **The returned set is the set of marker instructions.**  Its size is that of
the code; a position is a member exactly when it is an instruction start that
holds the marker opcode, so no immediate byte is one; the list of members is
ascending and equal to the one that the walk collects; the bits counted word by
word are as many; and the words hold these bits and no others. -/
theorem validate_accepted_markers {s : PositionSet}
    (h : code.validate = .accepted s) :
    s.size = code.size ∧
    (∀ p, s.contains p = true ↔
      code.IsStart p ∧ code[p]? = some Opcode.jumpdest) ∧
    (∀ p i, code.IsStart p → p < i → i < code.next p → s.contains i = false) ∧
    s.toList.Pairwise (· < ·) ∧
    s.toList = code.markers ∧
    s.count = code.markers.length ∧
    s.words.size = (code.size + 63) / 64 ∧
    (∀ i word, s.words[i / 64]? = some word →
      word.toNat.testBit (i % 64) = s.contains i ∧
      (code.size ≤ i → word.toNat.testBit (i % 64) = false)) := by
  have haccepted := validate_eq_accepted_iff.mp h
  have hlist := haccepted.toList_eq_markers
  refine ⟨haccepted.size_eq, haccepted.contains_iff, ?_, s.pairwise_toList,
    hlist, ?_, ?_, ?_⟩
  · intro p i hp hlt hnext
    rw [← Bool.not_eq_true, haccepted.contains_iff]
    exact fun hi => hp.not_isStart hlt hnext hi.1
  · rw [PositionSet.count_eq_length_toList, hlist]
  · rw [s.words_size, haccepted.size_eq, wordCount]
  · intro i word hword
    have hbit : word.toNat.testBit (i % 64) = s.contains i := by
      simp [PositionSet.contains, bitAt, hword]
    refine ⟨hbit, ?_⟩
    intro hle
    rw [hbit]
    exact s.contains_of_size_le (haccepted.size_eq ▸ hle)

/-- The second marker opcode here is data of a push. -/
theorem markers_around_push_data :
    validate #[0x5b, 0x60, 0x5b, 0x5b, 0x00] =
      .accepted ((PositionSet.empty 5).insertAll [0, 3]) ∧
    ((PositionSet.empty 5).insertAll [0, 3]).toList =
      markers #[0x5b, 0x60, 0x5b, 0x5b, 0x00] ∧
    ((PositionSet.empty 5).insertAll [0, 3]).count =
      (markers #[0x5b, 0x60, 0x5b, 0x5b, 0x00]).length := by
  have hvalidate : validate #[0x5b, 0x60, 0x5b, 0x5b, 0x00] =
      .accepted ((PositionSet.empty 5).insertAll [0, 3]) := by
    decide +kernel
  obtain ⟨-, -, -, -, hlist, hcount, -⟩ := validate_accepted_markers hvalidate
  exact ⟨hvalidate, hlist, hcount⟩

end Code
end EvmCheck
