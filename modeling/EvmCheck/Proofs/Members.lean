import EvmCheck.PositionSet
import Mathlib.Data.List.Sort

/-!
# The members of a packed set

The packed words, the membership test and the list of members are three views
of one set.  This module relates them: the list is ascending, the one bits
counted word by word are as many as the list is long, and a search in the list
finds the least member with a property.

Sets are built by inserting positions one after the other, `ofPositions`.  Since the
bits beyond the last position stay zero, neither the order of the insertions nor
their number leaves a trace: the words depend on the members alone.

**Results.**
* `find?_toList_eq_some_iff`: searching the list of members.
* `count_eq_length_toList`: counting word by word.
* `contains_ofPositions`, `ofPositions_eq_iff`: the members of a set that has been
  built, and when two such sets are equal.
* `ofPositions_canonical`: all views of such a set.
-/

namespace EvmCheck
namespace PositionSet

variable {s : PositionSet}

/-- The list of members is strictly ascending. -/
theorem pairwise_toList (s : PositionSet) : s.toList.Pairwise (· < ·) :=
  List.Pairwise.filter _ List.pairwise_lt_range

/-- An ascending list with the same members is the list of members. -/
theorem toList_eq_of_mem_iff {ps : List Nat} (hps : ps.Pairwise (· < ·))
    (h : ∀ p, p ∈ ps ↔ s.contains p = true) : s.toList = ps := by
  refine List.Pairwise.eq_of_mem_iff s.pairwise_toList hps ?_
  intro p
  rw [mem_toList, h]

theorem lt_size_of_contains {p : Nat} (h : s.contains p = true) : p < s.size := by
  by_cases hlt : p < s.size
  · exact hlt
  · rw [s.contains_of_size_le (Nat.le_of_not_lt hlt)] at h
    exact absurd h Bool.false_ne_true

/-- A search in the list of members finds the least one with the property. -/
theorem find?_toList_eq_some_iff {f : Nat → Bool} {t : Nat} :
    s.toList.find? f = some t ↔
      (s.contains t = true ∧ f t = true) ∧
        ∀ u < t, ¬ (s.contains u = true ∧ f u = true) := by
  unfold toList
  rw [List.find?_filter, List.find?_range_eq_some]
  constructor
  · rintro ⟨ht, -, hleast⟩
    refine ⟨by simpa using ht, ?_⟩
    rintro u hu ⟨hmem, hf⟩
    simpa [hmem, hf] using hleast u hu
  · rintro ⟨⟨hmem, ht⟩, hleast⟩
    refine ⟨by simp [hmem, ht], by simpa using lt_size_of_contains hmem, ?_⟩
    intro u hu
    by_cases hmem' : s.contains u = true
    · have hf : f u = false := by
        rw [← Bool.not_eq_true]
        exact fun hf => hleast u hu ⟨hmem', hf⟩
      simp [hf]
    · simp [hmem']

theorem find?_toList_eq_none_iff {f : Nat → Bool} :
    s.toList.find? f = none ↔ ∀ u, ¬ (s.contains u = true ∧ f u = true) := by
  simp [List.find?_eq_none, mem_toList]

/-! ### Counting word by word -/

theorem bitAt_cons_add (word : UInt64) (words : List UInt64) (p : Nat) :
    bitAt (word :: words).toArray (64 + p) = bitAt words.toArray p := by
  have hdiv : (64 + p) / 64 = p / 64 + 1 := by omega
  have hmod : (64 + p) % 64 = p % 64 := by omega
  simp [bitAt, hdiv, hmod]

theorem bitAt_cons_of_lt (word : UInt64) (words : List UInt64) {p : Nat}
    (hp : p < 64) : bitAt (word :: words).toArray p = word.toNat.testBit p := by
  have hdiv : p / 64 = 0 := by omega
  have hmod : p % 64 = p := by omega
  simp [bitAt, hdiv, hmod]

theorem foldl_oneBits (words : List UInt64) (n : Nat) :
    words.foldl (fun n word => n + oneBits word) n =
      n + (List.range (64 * words.length)).countP (bitAt words.toArray) := by
  induction words generalizing n with
  | nil =>
      rfl
  | cons word words ih =>
      have hlength : 64 * (word :: words).length = 64 + 64 * words.length := by
        rw [List.length_cons]
        omega
      have hfirst : (List.range 64).countP (bitAt (word :: words).toArray) =
          oneBits word := by
        refine List.countP_congr ?_
        intro p hp
        rw [bitAt_cons_of_lt word words (List.mem_range.mp hp)]
      have hrest : bitAt (word :: words).toArray ∘ (64 + ·) =
          bitAt words.toArray := by
        funext p
        exact bitAt_cons_add word words p
      rw [List.foldl_cons, ih, hlength, List.range_add, List.countP_append,
        List.countP_map, hfirst, hrest]
      omega

/-- The one bits, counted word by word, are as many as the members. -/
theorem count_eq_length_toList (s : PositionSet) : s.count = s.toList.length := by
  have hwords : s.size ≤ 64 * s.words.size := by
    rw [s.words_size, wordCount]
    omega
  obtain ⟨rest, hrest⟩ := Nat.exists_eq_add_of_le hwords
  -- the bits beyond the size are zero, so they do not add to the count
  have hpadding : (List.range rest).countP (s.contains ∘ (s.size + ·)) = 0 := by
    rw [List.countP_eq_zero]
    intro p _
    simp [s.contains_of_size_le (Nat.le_add_right s.size p)]
  have hcount : s.count =
      (List.range (64 * s.words.size)).countP s.contains := by
    have h := foldl_oneBits s.words.toList 0
    rw [Array.foldl_toList, Nat.zero_add] at h
    exact h
  rw [hcount, hrest, List.range_add, List.countP_append, List.countP_map,
    hpadding, Nat.add_zero, List.countP_eq_length_filter]
  rfl

/-! ### Sets built by insertions -/

section Built

variable {n m p : Nat} {ps qs : List Nat}

/-- The set that is built by inserting positions one after the other. -/
def ofPositions (n : Nat) (ps : List Nat) : PositionSet :=
  (empty n).insertAll ps

theorem size_ofPositions (n : Nat) (ps : List Nat) : (ofPositions n ps).size = n :=
  (size_insertAll _ ps).trans (size_empty n)

theorem contains_ofPositions (hps : ∀ p ∈ ps, p < n) :
    (ofPositions n ps).contains p = true ↔ p ∈ ps := by
  rw [ofPositions, contains_insertAll, contains_empty, size_empty, Bool.or_false,
    decide_eq_true_eq]
  exact and_iff_left_of_imp (hps p)

theorem eq_iff_words_and_size {s t : PositionSet} :
    s = t ↔ s.words = t.words ∧ s.size = t.size := by
  constructor
  · rintro rfl
    exact ⟨rfl, rfl⟩
  · rintro ⟨hwords, hsize⟩
    refine ext_of_contains hsize ?_
    intro p
    rw [contains, contains, hwords]

/-- What has been built is determined by the bound and the members. -/
theorem ofPositions_eq_iff (hps : ∀ p ∈ ps, p < n) (hqs : ∀ p ∈ qs, p < m) :
    ofPositions n ps = ofPositions m qs ↔ n = m ∧ ∀ p, p ∈ ps ↔ p ∈ qs := by
  constructor
  · intro h
    refine ⟨?_, ?_⟩
    · rw [← size_ofPositions n ps, h, size_ofPositions]
    · intro p
      rw [← contains_ofPositions hps, h, contains_ofPositions hqs]
  · rintro ⟨rfl, h⟩
    refine ext_of_contains ?_ ?_
    · rw [size_ofPositions, size_ofPositions]
    · intro p
      rw [Bool.eq_iff_iff, contains_ofPositions hps, contains_ofPositions hqs]
      exact h p

theorem testBit_of_getElem?_words {i : Nat} {word : UInt64}
    (h : s.words[i / 64]? = some word) : word.toNat.testBit (i % 64) = s.contains i := by
  simp [contains, bitAt, h]

/-- **A packed set is a canonical form of its members.**  A position is a member of
a set that has been built by insertions exactly when it has been inserted; the list of
members is ascending without repetition; there are as many one bits in the words as
members; the words are as many as the bound needs, and their bits beyond it are zero.
Two such sets are equal, that is they have the same words and the same bound, exactly
when their bounds are and the same positions have been inserted, in any order and any
number of times. -/
theorem ofPositions_canonical (hps : ∀ p ∈ ps, p < n) (hqs : ∀ p ∈ qs, p < m) :
    (∀ p, (ofPositions n ps).contains p = true ↔ p ∈ ps) ∧
    (ofPositions n ps).toList.Pairwise (· < ·) ∧
    (ofPositions n ps).toList.Nodup ∧
    (∀ p, p ∈ (ofPositions n ps).toList ↔ p ∈ ps) ∧
    (ofPositions n ps).count = (ofPositions n ps).toList.length ∧
    (ofPositions n ps).words.size = (n + 63) / 64 ∧
    (∀ i word, (ofPositions n ps).words[i / 64]? = some word →
      (word.toNat.testBit (i % 64) = true ↔ i ∈ ps) ∧
      (n ≤ i → word.toNat.testBit (i % 64) = false)) ∧
    (ofPositions n ps = ofPositions m qs ↔
      (ofPositions n ps).words = (ofPositions m qs).words ∧
      (ofPositions n ps).size = (ofPositions m qs).size) ∧
    (ofPositions n ps = ofPositions m qs ↔ n = m ∧ ∀ p, p ∈ ps ↔ p ∈ qs) := by
  refine ⟨fun _ => contains_ofPositions hps, pairwise_toList _, ?nodup, ?members,
    count_eq_length_toList _, ?words, ?bits, eq_iff_words_and_size,
    ofPositions_eq_iff hps hqs⟩
  case nodup =>
    exact (pairwise_toList _).imp Nat.ne_of_lt
  case members =>
    intro p
    rw [mem_toList, contains_ofPositions hps]
  case words =>
    rw [words_size, size_ofPositions, wordCount]
  case bits =>
    intro i word hword
    rw [testBit_of_getElem?_words hword]
    refine ⟨contains_ofPositions hps, ?_⟩
    intro hle
    exact contains_of_size_le _ (by rwa [size_ofPositions])

/-- Three words, the last of which has two positions only. -/
theorem ofPositions_three_words :
    ofPositions 130 [129, 0, 64, 0] = ofPositions 130 [0, 64, 129] ∧
    (ofPositions 130 [129, 0, 64, 0]).words = #[1, 1, 2] ∧
    (ofPositions 130 [129, 0, 64, 0]).count =
      (ofPositions 130 [129, 0, 64, 0]).toList.length := by
  have hps : ∀ p ∈ [129, 0, 64, 0], p < 130 := by decide
  have hqs : ∀ p ∈ [0, 64, 129], p < 130 := by decide
  obtain ⟨-, -, -, -, hcount, -, -, -, heq⟩ := ofPositions_canonical hps hqs
  refine ⟨heq.mpr ⟨rfl, ?_⟩, by decide +kernel, hcount⟩
  intro p
  simp only [List.mem_cons, List.not_mem_nil, or_false]
  omega

end Built

end PositionSet
end EvmCheck
