import EvmCheck.Proofs.Machine.Word
import EvmCheck.Proofs.Members

/-!
# Sets of positions in memory

In memory a set of positions is either a `Bitmap`, that is words of 64 bits and
the number of positions, or an array with a flag for each position.  Neither type
keeps an invariant, so their operations can fail: the word of a position may be
missing, and the position may lie outside.

`PositionSet.packed` and `PositionSet.flags` are the two forms that a set of
positions has in memory.  On them the operations never fail, and they do what the
operations on sets do.

**Results.**
* `set_packed`, `isValid_packed`, `positions_packed`, `count_packed`: bitmaps.
* `write_flags`, `fill_flags`, `findIdx?_zip_flags`: arrays of flags.
-/

namespace EvmCheck
namespace Machine

/-- A packed set of positions below `length`. -/
structure Bitmap where
  words : Array UInt64
  length : UInt64
  deriving DecidableEq

namespace Bitmap

/-- The bitmap for `length` positions without any of them. -/
def clear (length : UInt64) : Bitmap where
  words := Array.replicate (length / 64 + if length % 64 = 0 then 0 else 1).toNat 0
  length := length

/-- Adds a position, which the program states to be below the length. -/
def set (b : Bitmap) (p : UInt64) : Checked Bitmap :=
  if p < b.length then do
    let old ← read b.words (p / 64)
    let mask ← bit (p % 64)
    let words ← write b.words (p / 64) (old ||| mask)
    return { b with words }
  else .error .assertion

/-- Whether the bitmap has a position; it has none at or above the length. -/
def isValid (b : Bitmap) (p : UInt64) : Checked Bool :=
  if b.length ≤ p then return false
  else do
    let bits ← read b.words (p / 64)
    let mask ← bit (p % 64)
    return bits &&& mask != 0

/-- Those of the given positions that the bitmap has. -/
def select (b : Bitmap) : List Nat → Checked (List Nat)
  | [] => return []
  | p :: ps => do
      let valid ← b.isValid (word p)
      let rest ← b.select ps
      return if valid then p :: rest else rest

/-- The positions of the bitmap, in ascending order. -/
def positions (b : Bitmap) : Checked (List Nat) :=
  b.select (List.range b.length.toNat)

/-- The number of one bits, word by word. -/
def count (b : Bitmap) : Checked UInt64 :=
  b.words.toList.foldlM (fun n bits => add n (word (oneBits bits))) 0

end Bitmap
end Machine

namespace PositionSet

variable {s t : PositionSet} {p : Nat}

/-- The set as a bitmap. -/
def packed (s : PositionSet) : Machine.Bitmap where
  words := s.words
  length := Machine.word s.size

/-- The set as an array of flags. -/
def flags (s : PositionSet) : Array Bool :=
  Array.ofFn fun i : Fin s.size => s.contains i

theorem getElem?_flags (s : PositionSet) (i : Nat) :
    s.flags[i]? = if i < s.size then some (s.contains i) else none := by
  rw [flags, Array.getElem?_ofFn]
  split <;> rfl

theorem size_flags (s : PositionSet) : s.flags.size = s.size :=
  Array.size_ofFn

theorem div_lt_size_words (h : p < s.size) : p / 64 < s.words.size := by
  rw [s.words_size, wordCount]
  omega

end PositionSet

namespace Machine

variable {s t : PositionSet} {p : Nat}

theorem word_div (hp : p < UInt64.size) : word p / 64 = word (p / 64) := by
  apply UInt64.toNat_inj.mp
  rw [UInt64.toNat_div, toNat_word hp, toNat_word (by omega)]
  rfl

theorem word_mod (hp : p < UInt64.size) : word p % 64 = word (p % 64) := by
  apply UInt64.toNat_inj.mp
  rw [UInt64.toNat_mod, toNat_word hp, toNat_word (by omega)]
  rfl

theorem clear_eq_packed {n : Nat} (hn : n < UInt64.size) :
    Bitmap.clear (word n) = (PositionSet.empty n).packed := by
  have hcount : (word n / 64 + if word n % 64 = 0 then 0 else 1).toNat = wordCount n := by
    have hzero : word n % 64 = 0 ↔ n % 64 = 0 := by
      rw [word_mod hn, ← UInt64.toNat_inj, toNat_word (by omega)]
      rfl
    rw [word_div hn, UInt64.toNat_add, toNat_word (by omega), wordCount]
    simp only [UInt64.size] at hn
    by_cases h : n % 64 = 0
    · rw [if_pos (hzero.mpr h), UInt64.toNat_zero]
      omega
    · rw [if_neg (mt hzero.mp h), UInt64.toNat_one]
      omega
  simp only [Bitmap.clear, PositionSet.packed, PositionSet.empty, hcount]

theorem set_packed (hsize : s.size < UInt64.size) (hp : p < s.size) :
    s.packed.set (word p) = .ok (s.insert p).packed := by
  have hp' : p < UInt64.size := by omega
  have hindex : p / 64 < s.words.size := s.div_lt_size_words hp
  have hread : read s.words (word (p / 64)) = .ok s.words[p / 64] :=
    read_word (by omega) (Array.getElem?_eq_getElem hindex)
  have hmodify : s.words.setIfInBounds (p / 64) (s.words[p / 64] ||| singleBit (p % 64)) =
      s.words.modify (p / 64) (· ||| singleBit (p % 64)) := by
    apply Array.ext_getElem?
    intro i
    rw [Array.getElem?_setIfInBounds, Array.getElem?_modify]
    split
    · rename_i hi
      subst hi
      simp [hindex]
    · rfl
  simp only [Bitmap.set, PositionSet.packed, if_pos ((word_lt_word_iff hp' hsize).mpr hp),
    word_div hp', word_mod hp', hread, ok_bind, bit_word (Nat.mod_lt p (by decide : 0 < 64)),
    write_word (show p / 64 < UInt64.size by omega) hindex, hmodify, PositionSet.insert,
    dif_pos hp]
  rfl

theorem and_singleBit_bne_zero (bits : UInt64) {i : Nat} (hi : i < 64) :
    (bits &&& singleBit i != 0) = bits.toNat.testBit i := by
  have hbit : ∀ j, (bits &&& singleBit i).toNat.testBit j =
      (bits.toNat.testBit j && decide (i = j)) := by
    intro j
    rw [UInt64.toNat_and, Nat.testBit_and, PositionSet.testBit_singleBit hi]
  cases h : bits.toNat.testBit i with
  | true =>
      have hi' := hbit i
      rw [h, decide_eq_true rfl, Bool.and_true] at hi'
      refine bne_iff_ne.mpr fun hzero => ?_
      rw [hzero] at hi'
      simp at hi'
  | false =>
      have hzero : bits &&& singleBit i = 0 := by
        apply UInt64.toNat_inj.mp
        apply Nat.eq_of_testBit_eq
        intro j
        rw [hbit, UInt64.toNat_zero, Nat.zero_testBit]
        by_cases hij : i = j
        · rw [← hij, h, Bool.false_and]
        · rw [decide_eq_false hij, Bool.and_false]
      rw [hzero]
      rfl

/-- No position, in range or not, makes the test fail. -/
theorem isValid_packed (hsize : s.size < UInt64.size) (q : UInt64) :
    s.packed.isValid q = .ok (s.contains q.toNat) := by
  have hq : q.toNat < UInt64.size := q.toNat_lt_size
  rw [← word_toNat q, toNat_word hq]
  by_cases hle : s.size ≤ q.toNat
  · have hle' : s.packed.length ≤ word q.toNat := (word_le_word_iff hsize hq).mpr hle
    rw [Bitmap.isValid, if_pos hle', s.contains_of_size_le hle]
    rfl
  · have hindex : q.toNat / 64 < s.words.size := s.div_lt_size_words (by omega)
    have hread : read s.words (word (q.toNat / 64)) = .ok s.words[q.toNat / 64] :=
      read_word (by omega) (Array.getElem?_eq_getElem hindex)
    have hmod : q.toNat % 64 < 64 := Nat.mod_lt _ (by decide)
    have hbit : s.contains q.toNat = s.words[q.toNat / 64].toNat.testBit (q.toNat % 64) := by
      simp [PositionSet.contains, bitAt, hindex]
    simp only [Bitmap.isValid, PositionSet.packed,
      if_neg (mt (word_le_word_iff hsize hq).mp hle), word_div hq, word_mod hq, hread,
      ok_bind, bit_word hmod, and_singleBit_bne_zero _ hmod, hbit]
    rfl

theorem select_packed (hsize : s.size < UInt64.size) {ps : List Nat}
    (hps : ∀ p ∈ ps, p < s.size) : s.packed.select ps = .ok (ps.filter s.contains) := by
  induction ps with
  | nil =>
      rfl
  | cons p ps ih =>
      have hp : p < UInt64.size := Nat.lt_trans (hps p List.mem_cons_self) hsize
      have hrest := ih fun q hq => hps q (List.mem_cons_of_mem p hq)
      simp only [Bitmap.select, isValid_packed hsize, toNat_word hp, hrest, ok_bind,
        List.filter_cons]
      rfl

theorem positions_packed (hsize : s.size < UInt64.size) :
    s.packed.positions = .ok s.toList := by
  simp only [Bitmap.positions, PositionSet.packed, toNat_word hsize]
  exact select_packed hsize fun p hp => List.mem_range.mp hp

theorem foldlM_add_oneBits (words : List UInt64) {n : Nat}
    (h : n + 64 * words.length < UInt64.size) :
    words.foldlM (fun n bits => add n (word (oneBits bits))) (word n) =
      .ok (word (words.foldl (fun n bits => n + oneBits bits) n)) := by
  induction words generalizing n with
  | nil =>
      rfl
  | cons bits words ih =>
      have hbits : oneBits bits ≤ 64 := by
        have := List.countP_le_length (p := bits.toNat.testBit) (l := List.range 64)
        rwa [List.length_range] at this
      rw [List.length_cons] at h
      rw [List.foldlM_cons, add_word (by omega), ok_bind, ih (by omega), List.foldl_cons]

theorem count_packed (hsize : s.size + 63 < UInt64.size) :
    s.packed.count = .ok (word s.count) := by
  have hwords : s.words.size = wordCount s.size := s.words_size
  unfold wordCount at hwords
  have h := foldlM_add_oneBits s.words.toList (n := 0) (by
    rw [Array.length_toList]
    omega)
  rw [Array.foldl_toList] at h
  exact h

/-! ### Arrays of flags -/

theorem replicate_false_eq_flags (n : Nat) :
    Array.replicate n false = (PositionSet.empty n).flags := by
  apply Array.ext_getElem?
  intro i
  rw [PositionSet.getElem?_flags, Array.getElem?_replicate, PositionSet.contains_empty]
  rfl

theorem write_flags (hsize : s.size < UInt64.size) (hp : p < s.size) :
    write s.flags (word p) true = .ok (s.insert p).flags := by
  rw [write_word (by omega) (by rw [s.size_flags]; exact hp)]
  congr 1
  apply Array.ext_getElem?
  intro i
  rw [Array.getElem?_setIfInBounds, PositionSet.getElem?_flags, PositionSet.getElem?_flags,
    PositionSet.size_insert, PositionSet.contains_insert, s.size_flags]
  by_cases hi : p = i
  · subst hi
    simp [hp]
  · simp [hi]

theorem fill_flags {first last : Nat} (hsize : s.size < UInt64.size) (hle : first ≤ last)
    (hlast : last ≤ s.size) :
    fill s.flags (word first) (word last) true = .ok (s.insertRange first last).flags := by
  rw [fill_word (by omega) hle (by rw [s.size_flags]; exact hlast)]
  congr 1
  apply Array.ext_getElem?
  intro i
  rw [Array.getElem?_mapIdx, PositionSet.getElem?_flags, PositionSet.getElem?_flags,
    PositionSet.size_insertRange, PositionSet.contains_insertRange]
  by_cases hi : i < s.size
  · by_cases hrange : first ≤ i ∧ i < last
    · simp [hi, hrange]
    · simp [hi, hrange]
  · simp [hi]

/-- The first position with both flags is the least common member. -/
theorem findIdx?_zip_flags (h : t.size = s.size) :
    (s.flags.zip t.flags).findIdx? (fun both => both.1 && both.2) =
      s.toList.find? t.contains := by
  have hget : ∀ i both, (s.flags.zip t.flags)[i]? = some both →
      both = (s.contains i, t.contains i) := by
    intro i both hboth
    obtain ⟨hs, ht⟩ := Array.getElem?_zip_eq_some.mp hboth
    rw [PositionSet.getElem?_flags] at hs ht
    split at hs
    · rename_i hi
      rw [if_pos (h ▸ hi), Option.some.injEq] at ht
      rw [Option.some.injEq] at hs
      rw [hs, ht]
    · cases hs
  have hsize : (s.flags.zip t.flags).size = s.size := by
    rw [Array.size_zip, s.size_flags, t.size_flags, h, Nat.min_self]
  cases hfind : s.toList.find? t.contains with
  | some p =>
      obtain ⟨hp, hleast⟩ := PositionSet.find?_toList_eq_some_iff.mp hfind
      have hlt := PositionSet.lt_size_of_contains hp.1
      refine Array.findIdx?_eq_some_iff_getElem.mpr ⟨by omega, ?_, ?_⟩
      · rw [hget p _ (Array.getElem?_eq_getElem (by omega)), hp.1, hp.2]
        rfl
      · intro j hj
        rw [hget j _ (Array.getElem?_eq_getElem (by omega)), Bool.and_eq_true]
        exact hleast j hj
  | none =>
      have hnone := PositionSet.find?_toList_eq_none_iff.mp hfind
      refine Array.findIdx?_eq_none_iff.mpr fun both hboth => ?_
      obtain ⟨i, hi⟩ := Array.mem_iff_getElem?.mp hboth
      rw [hget i both hi, ← Bool.not_eq_true, Bool.and_eq_true]
      exact hnone i

end Machine
end EvmCheck
