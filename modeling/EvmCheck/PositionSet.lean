/-!
# Sets of positions

A `PositionSet` of size `n` is a set of positions below `n`, packed into 64-bit
words: bit `i % 64` of word `i / 64` stands for position `i`.  The type keeps
the number of words and the zero bits beyond the last position as invariants,
so that equal sets of equal size are equal values.

**Results.**
* `contains_empty`, `contains_insert`, `contains_insertAll`,
  `contains_insertRange`: what each operation does to membership.
* `mem_toList`: the list of members has exactly the members.
* `ext_of_contains`: size and members determine the value.
-/

namespace EvmCheck

/-- The number of 64-bit words that hold `size` bits. -/
def wordCount (size : Nat) : Nat :=
  (size + 63) / 64

/-- The bit for position `p`; words that are missing read as zero. -/
def bitAt (words : Array UInt64) (p : Nat) : Bool :=
  (words.getD (p / 64) 0).toNat.testBit (p % 64)

/-- The word whose only bit is the one at `i`. -/
def singleBit (i : Nat) : UInt64 :=
  1 <<< UInt64.ofNat i

/-- The number of one bits of a word. -/
def oneBits (word : UInt64) : Nat :=
  (List.range 64).countP word.toNat.testBit

/-- A packed set of positions below `size`. -/
structure PositionSet where
  /-- All members are below this bound. -/
  size : Nat
  /-- The bits, 64 to a word, lower positions first. -/
  words : Array UInt64
  /-- There are exactly as many words as the size needs. -/
  words_size : words.size = wordCount size
  /-- The bits beyond the last position are zero. -/
  padding : ∀ p, size ≤ p → bitAt words p = false
  deriving DecidableEq

namespace PositionSet

/-- The empty set of positions below `size`. -/
def empty (size : Nat) : PositionSet where
  size := size
  words := Array.replicate (wordCount size) 0
  words_size := by simp
  padding := by
    intro p _
    unfold bitAt
    rw [Array.getD_eq_getD_getElem?]
    simp only [Array.getElem?_replicate]
    split <;> simp

/-- Whether `p` is a member; nothing at or above the size is. -/
def contains (s : PositionSet) (p : Nat) : Bool :=
  bitAt s.words p

/-- The only one bit of `singleBit i` is the one at `i`. -/
theorem testBit_singleBit {i : Nat} (hi : i < 64) (j : Nat) :
    (singleBit i).toNat.testBit j = decide (i = j) := by
  have h : (singleBit i).toNat = 2 ^ i := by
    have hlt : 2 ^ i < 2 ^ 64 := Nat.pow_lt_pow_right (by decide) hi
    have hmod : i % 64 = i := Nat.mod_eq_of_lt hi
    have hmod' : i % 18446744073709551616 % 64 = i := by omega
    simp only [singleBit, UInt64.toNat_shiftLeft, UInt64.toNat_ofNat']
    simp only [UInt64.toNat_one, Nat.reducePow, hmod', Nat.one_shiftLeft]
    exact Nat.mod_eq_of_lt hlt
  rw [h, Nat.testBit_two_pow]

/-- Setting one bit changes the bit of that position only. -/
theorem bitAt_modify {words : Array UInt64} {p : Nat}
    (hp : p / 64 < words.size) (q : Nat) :
    bitAt (words.modify (p / 64) (· ||| singleBit (p % 64))) q =
      (decide (p = q) || bitAt words q) := by
  have hpm : p % 64 < 64 := Nat.mod_lt _ (by decide)
  unfold bitAt
  rw [Array.getD_eq_getD_getElem?, Array.getD_eq_getD_getElem?,
    Array.getElem?_modify]
  by_cases hw : p / 64 = q / 64
  · have hq : q / 64 < words.size := hw ▸ hp
    have hpq : (p % 64 = q % 64) ↔ p = q := by omega
    simp only [hw, if_true, Array.getElem?_eq_getElem hq, Option.map_some,
      Option.getD_some, UInt64.toNat_or, Nat.testBit_or,
      testBit_singleBit hpm, hpq]
    exact Bool.or_comm _ _
  · have hpq : p ≠ q := fun h => hw (by rw [h])
    simp [hw, hpq]

/-- Adds a position; one at or above the size leaves the set as it is. -/
def insert (s : PositionSet) (p : Nat) : PositionSet :=
  if hp : p < s.size then
    { size := s.size
      words := s.words.modify (p / 64) (· ||| singleBit (p % 64))
      words_size := by simp [s.words_size]
      padding := by
        intro q hq
        have hword : p / 64 < s.words.size := by
          rw [s.words_size, wordCount]
          omega
        rw [bitAt_modify hword, s.padding q hq]
        simp only [Bool.or_false, decide_eq_false_iff_not]
        omega }
  else s

/-- Adds every position of a list. -/
def insertAll (s : PositionSet) (ps : List Nat) : PositionSet :=
  ps.foldl insert s

/-- Adds every position from `first` on and below `last`. -/
def insertRange (s : PositionSet) (first last : Nat) : PositionSet :=
  s.insertAll (List.range' first (last - first))

/-- The members in ascending order. -/
def toList (s : PositionSet) : List Nat :=
  (List.range s.size).filter s.contains

/-- The number of members, counted word by word. -/
def count (s : PositionSet) : Nat :=
  s.words.foldl (fun n word => n + oneBits word) 0

@[simp] theorem size_empty (n : Nat) : (empty n).size = n := by
  rfl

@[simp] theorem contains_empty (n p : Nat) : (empty n).contains p = false := by
  unfold contains bitAt empty
  rw [Array.getD_eq_getD_getElem?]
  simp only [Array.getElem?_replicate]
  split <;> simp

@[simp] theorem size_insert (s : PositionSet) (p : Nat) :
    (s.insert p).size = s.size := by
  unfold insert
  split <;> rfl

theorem contains_of_size_le (s : PositionSet) {p : Nat} (h : s.size ≤ p) :
    s.contains p = false :=
  s.padding p h

/-- Inserting adds the position when it is in range, and nothing else. -/
theorem contains_insert (s : PositionSet) (p q : Nat) :
    (s.insert p).contains q =
      (decide (p = q ∧ p < s.size) || s.contains q) := by
  unfold insert
  split
  case isTrue hp =>
    have hword : p / 64 < s.words.size := by
      rw [s.words_size, wordCount]
      omega
    simp only [contains, bitAt_modify hword, hp, and_true]
  case isFalse hp =>
    simp [hp]

@[simp] theorem size_insertAll (s : PositionSet) (ps : List Nat) :
    (s.insertAll ps).size = s.size := by
  induction ps generalizing s with
  | nil =>
      rfl
  | cons p ps ih =>
      exact (ih (s.insert p)).trans (s.size_insert p)

/-- Inserting a list adds those of its positions that are in range. -/
theorem contains_insertAll (s : PositionSet) (ps : List Nat) (q : Nat) :
    (s.insertAll ps).contains q =
      (decide (q ∈ ps ∧ q < s.size) || s.contains q) := by
  induction ps generalizing s with
  | nil =>
      simp [insertAll]
  | cons p ps ih =>
      have hstep : s.insertAll (p :: ps) = (s.insert p).insertAll ps := by
        rfl
      rw [hstep, ih, contains_insert, size_insert]
      by_cases hpq : p = q
      · subst hpq
        by_cases hlt : p < s.size <;> simp [hlt]
      · have hqp : q ≠ p := fun h => hpq h.symm
        simp [hpq, hqp]

@[simp] theorem size_insertRange (s : PositionSet) (first last : Nat) :
    (s.insertRange first last).size = s.size := by
  exact s.size_insertAll _

/-- Inserting a range adds those of its positions that are in range. -/
theorem contains_insertRange (s : PositionSet) (first last q : Nat) :
    (s.insertRange first last).contains q =
      (decide ((first ≤ q ∧ q < last) ∧ q < s.size) || s.contains q) := by
  have hmem :
      q ∈ List.range' first (last - first) ↔ first ≤ q ∧ q < last := by
    rw [List.mem_range'_1]
    omega
  unfold insertRange
  rw [contains_insertAll]
  simp only [hmem]

/-- The list of members has exactly the members. -/
theorem mem_toList (s : PositionSet) (p : Nat) :
    p ∈ s.toList ↔ s.contains p = true := by
  unfold toList
  rw [List.mem_filter, List.mem_range]
  constructor
  · exact fun h => h.2
  · intro h
    refine ⟨?_, h⟩
    apply Nat.lt_of_not_le
    intro hle
    rw [s.contains_of_size_le hle] at h
    exact Bool.false_ne_true h

/-- Size and members determine a set of positions. -/
theorem ext_of_contains {s t : PositionSet} (hsize : s.size = t.size)
    (h : ∀ p, s.contains p = t.contains p) : s = t := by
  have hwords : s.words = t.words := by
    apply Array.ext
    · rw [s.words_size, t.words_size, hsize]
    · intro i hi hi'
      apply UInt64.toNat_inj.mp
      apply Nat.eq_of_testBit_eq
      intro j
      by_cases hj : j < 64
      · have hp := h (64 * i + j)
        have hdiv : (64 * i + j) / 64 = i := by omega
        have hmod : (64 * i + j) % 64 = j := by omega
        simpa [contains, bitAt, hdiv, hmod, Array.getD_eq_getD_getElem?, hi,
          hi'] using hp
      · have hle : 64 ≤ j := Nat.le_of_not_lt hj
        have hpow : 2 ^ 64 ≤ 2 ^ j := Nat.pow_le_pow_right (by decide) hle
        rw [Nat.testBit_lt_two_pow, Nat.testBit_lt_two_pow]
        · exact Nat.lt_of_lt_of_le (UInt64.toNat_lt _) hpow
        · exact Nat.lt_of_lt_of_le (UInt64.toNat_lt _) hpow
  cases s
  cases t
  simp_all

end PositionSet
end EvmCheck
