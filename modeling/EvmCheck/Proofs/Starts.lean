import EvmCheck.Code

/-!
# Instruction starts

The walk over code goes from the first byte to the position just after each
instruction in turn.  `IsStart` says which positions it comes to, without
mention of the list in which the walk collects them.

The starts cut the code into instructions: two different instructions never
overlap, and every byte belongs to one of them, either as its opcode or as one
of its immediate bytes.

**Results.**
* `mem_starts_iff`: the walk collects exactly the instruction starts.
* `IsStart.next_le`: an instruction ends before the next one starts.
* `exists_isStart_of_lt`: every byte belongs to an instruction.
-/

namespace EvmCheck
namespace Code

variable {code : Code} {p q : Nat}

theorem lt_next (code : Code) (p : Nat) : p < code.next p := by
  unfold next
  omega

/-- Induction along the walk: from the end of the code backwards. -/
@[elab_as_elim]
theorem walk_induction (code : Code) {motive : Nat → Prop}
    (done : ∀ p, code.size ≤ p → motive p)
    (step : ∀ p, p < code.size → motive (code.next p) → motive p) (p : Nat) :
    motive p := by
  by_cases h : p < code.size
  · have hlt := code.lt_next p
    exact step p h (walk_induction code done step (code.next p))
  · exact done p (Nat.le_of_not_lt h)
termination_by code.size - p

/-- The positions that the walk comes to. -/
inductive IsStart (code : Code) : Nat → Prop
  | first (h : 0 < code.size) : IsStart code 0
  | next {p : Nat} (hp : IsStart code p) (h : code.next p < code.size) :
      IsStart code (code.next p)

/-- The positions that the walk collects from `p` on. -/
def startsFrom (code : Code) (p : Nat) : List Nat :=
  (code.walk p #[]).toList

theorem startsFrom_of_lt (h : p < code.size) :
    code.startsFrom p = p :: code.startsFrom (code.next p) := by
  unfold startsFrom
  rw [walk_eq, if_pos h, walk_acc]
  simp

theorem startsFrom_of_le (h : code.size ≤ p) : code.startsFrom p = [] := by
  unfold startsFrom
  rw [walk_eq, if_neg (Nat.not_lt.mpr h)]

theorem le_of_mem_startsFrom (h : q ∈ code.startsFrom p) : p ≤ q := by
  induction p using walk_induction code with
  | done p hp =>
      rw [startsFrom_of_le hp] at h
      cases h
  | step p hp ih =>
      rw [startsFrom_of_lt hp] at h
      rcases List.mem_cons.mp h with rfl | h
      · exact Nat.le_refl q
      · exact Nat.le_trans (Nat.le_of_lt (code.lt_next p)) (ih h)

theorem isStart_of_mem_startsFrom (hp : p < code.size → code.IsStart p)
    (h : q ∈ code.startsFrom p) : code.IsStart q := by
  induction p using walk_induction code with
  | done p hle =>
      rw [startsFrom_of_le hle] at h
      cases h
  | step p hlt ih =>
      rw [startsFrom_of_lt hlt] at h
      rcases List.mem_cons.mp h with rfl | h
      · exact hp hlt
      · exact ih (fun hnext => .next (hp hlt) hnext) h

theorem next_mem_startsFrom (h : q ∈ code.startsFrom p)
    (hnext : code.next q < code.size) : code.next q ∈ code.startsFrom p := by
  induction p using walk_induction code with
  | done p hle =>
      rw [startsFrom_of_le hle] at h
      cases h
  | step p hlt ih =>
      rw [startsFrom_of_lt hlt] at h ⊢
      rcases List.mem_cons.mp h with rfl | h
      · rw [startsFrom_of_lt hnext]
        simp
      · exact List.mem_cons_of_mem _ (ih h)

/-- The walk collects exactly the instruction starts. -/
theorem mem_starts_iff : p ∈ code.starts ↔ code.IsStart p := by
  constructor
  · exact isStart_of_mem_startsFrom IsStart.first
  · intro h
    induction h with
    | first h =>
        show 0 ∈ code.startsFrom 0
        rw [startsFrom_of_lt h]
        simp
    | next _ h ih =>
        exact next_mem_startsFrom ih h

theorem pairwise_startsFrom (code : Code) (p : Nat) :
    (code.startsFrom p).Pairwise (· < ·) := by
  induction p using walk_induction code with
  | done p hle =>
      rw [startsFrom_of_le hle]
      exact List.Pairwise.nil
  | step p hlt ih =>
      rw [startsFrom_of_lt hlt]
      refine List.Pairwise.cons ?_ ih
      intro q hq
      exact Nat.lt_of_lt_of_le (code.lt_next p) (le_of_mem_startsFrom hq)

theorem IsStart.lt_size (h : code.IsStart p) : p < code.size := by
  cases h with
  | first h => exact h
  | next _ h => exact h

theorem next_le_of_mem_startsFrom {r : Nat} (hp : p ∈ code.startsFrom r)
    (hq : q ∈ code.startsFrom r) (hlt : p < q) : code.next p ≤ q := by
  induction r using walk_induction code with
  | done r hle =>
      rw [startsFrom_of_le hle] at hp
      cases hp
  | step r hr ih =>
      rw [startsFrom_of_lt hr] at hp hq
      rcases List.mem_cons.mp hq with rfl | hq
      · -- no start of the walk from `r` comes before `r`
        have hle : q ≤ p := by
          rw [← startsFrom_of_lt hr] at hp
          exact le_of_mem_startsFrom hp
        omega
      · rcases List.mem_cons.mp hp with rfl | hp
        · exact le_of_mem_startsFrom hq
        · exact ih hp hq

/-- An instruction ends before the next one starts. -/
theorem IsStart.next_le (hp : code.IsStart p) (hq : code.IsStart q)
    (hlt : p < q) : code.next p ≤ q :=
  next_le_of_mem_startsFrom (mem_starts_iff.mpr hp) (mem_starts_iff.mpr hq) hlt

/-- The immediate bytes of an instruction are no starts. -/
theorem IsStart.not_isStart (hp : code.IsStart p) (hlt : p < q)
    (hnext : q < code.next p) : ¬ code.IsStart q := by
  intro hq
  have := hp.next_le hq hlt
  omega

/-- Every byte belongs to an instruction. -/
theorem exists_isStart_of_lt {i : Nat} (hi : i < code.size) :
    ∃ p, code.IsStart p ∧ p ≤ i ∧ i < code.next p := by
  suffices h : ∀ r, (r < code.size → code.IsStart r) → r ≤ i →
      ∃ p, code.IsStart p ∧ p ≤ i ∧ i < code.next p from
    h 0 IsStart.first (Nat.zero_le i)
  intro r
  induction r using walk_induction code with
  | done r hle =>
      intro _ hri
      omega
  | step r hr ih =>
      intro hstart hri
      by_cases hnext : i < code.next r
      · exact ⟨r, hstart hr, hri, hnext⟩
      · exact ih (fun h => .next (hstart hr) h) (Nat.le_of_not_lt hnext)

/-- Code that is not empty has a last instruction. -/
theorem exists_last (h : 0 < code.size) :
    ∃ p, code.IsStart p ∧ code.size ≤ code.next p := by
  have hlast : code.size - 1 < code.size := by omega
  obtain ⟨p, hp, _, hnext⟩ := exists_isStart_of_lt hlast
  exact ⟨p, hp, by omega⟩

theorem IsStart.le_last (hq : code.IsStart q) (hp : code.IsStart p)
    (hlast : code.size ≤ code.next p) : q ≤ p := by
  by_cases hlt : p < q
  · have := hp.next_le hq hlt
    have := hq.lt_size
    omega
  · exact Nat.le_of_not_lt hlt

end Code
end EvmCheck
