import EvmCheck.Code
import EvmCheck.PositionSet
import Mathlib.Data.Nat.Basic

/-!
# Operations on machine words

A machine counts in words of 64 bits, and some of its operations have no result:
a sum may not fit its word, an index or a slice may lie outside the array.  Each
such operation is given here with its `Fault`, so that a program that uses no
others states by its result that none of them has failed.

Below the size of a word the checked operations are those on natural numbers;
`word n` is the word for `n`.

**Results.**
* `add_word`, `read_word`, `write_word`, `slice_word`: what the operations give
  when they have a result.
* `addSigned?_eq`: a word and a signed word are added exactly, or not at all.
* `addInt_word`: a position and an offset are added exactly as signed words.
-/

namespace EvmCheck
namespace Machine

/-- Why an operation has no result. -/
inductive Fault
  /-- The result does not fit its word, or a bit is shifted out of it. -/
  | overflow
  /-- An index or a slice is outside the array. -/
  | outOfRange
  /-- A condition that the program states does not hold. -/
  | assertion
  deriving DecidableEq

/-- The result of operations that may fail. -/
abbrev Checked := Except Fault

/-- The word for a number. -/
def word (n : Nat) : UInt64 :=
  UInt64.ofNat n

/-- The sum of two words, if it is a word. -/
def add (a b : UInt64) : Checked UInt64 :=
  if a.toNat + b.toNat < UInt64.size then .ok (a + b) else .error .overflow

/-- The product of two words, if it is a word. -/
def mul (a b : UInt64) : Checked UInt64 :=
  if a.toNat * b.toNat < UInt64.size then .ok (a * b) else .error .overflow

/-- The difference of two bytes, if it is not negative. -/
def subByte (a b : UInt8) : Checked UInt8 :=
  if b ≤ a then .ok (a - b) else .error .overflow

/-- The sum of two signed words, if it is a signed word. -/
def addInt (a b : Int64) : Checked Int64 :=
  if -9223372036854775808 ≤ a.toInt + b.toInt ∧ a.toInt + b.toInt ≤ 9223372036854775807 then
    .ok (a + b)
  else .error .overflow

/-- The word whose only bit is the one at `i`. -/
def bit (i : UInt64) : Checked UInt64 :=
  if i < 64 then .ok (1 <<< i) else .error .overflow

/-- The sum of a word and a signed word, if it is a word.  The words are added with
wraparound; the sum is right when this carries exactly for a negative summand. -/
def addSigned? (a : UInt64) (b : Int64) : Option UInt64 :=
  let sum := a + b.toUInt64
  if decide (sum < a) = decide (b < 0) then some sum else none

section Arrays

variable {α : Type}

/-- The element at an index of an array. -/
def read (xs : Array α) (i : UInt64) : Checked α :=
  match xs[i.toNat]? with
  | some x => .ok x
  | none => .error .outOfRange

/-- The array with another element at an index. -/
def write (xs : Array α) (i : UInt64) (x : α) : Checked (Array α) :=
  if i.toNat < xs.size then .ok (xs.setIfInBounds i.toNat x) else .error .outOfRange

/-- The elements from `first` on and before `last`. -/
def slice (xs : Array α) (first last : UInt64) : Checked (Array α) :=
  if first ≤ last ∧ last.toNat ≤ xs.size then .ok (xs.extract first.toNat last.toNat)
  else .error .outOfRange

/-- The array with `x` from `first` on and before `last`. -/
def fill (xs : Array α) (first last : UInt64) (x : α) : Checked (Array α) :=
  if first ≤ last ∧ last.toNat ≤ xs.size then
    .ok (xs.mapIdx fun i y => if first.toNat ≤ i ∧ i < last.toNat then x else y)
  else .error .outOfRange

end Arrays

/-- The signed number that two bytes stand for, the higher byte first. -/
def signedOfBytes (high low : UInt8) : Int16 :=
  (UInt16.ofNat (high.toNat * 256 + low.toNat)).toInt16

@[simp] theorem ok_bind {α β : Type} (a : α) (f : α → Checked β) :
    ((Except.ok a : Checked α) >>= f) = f a := by
  rfl

theorem bind_eq_ok_iff {α β : Type} {x : Checked α} {f : α → Checked β} {b : β} :
    (x >>= f) = .ok b ↔ ∃ a, x = .ok a ∧ f a = .ok b := by
  cases x with
  | error fault =>
      constructor
      · intro h
        cases h
      · rintro ⟨a, h, -⟩
        cases h
  | ok a =>
      simp

/-! ### Words below their size -/

section Words

variable {m n : Nat}

theorem toNat_word (h : n < UInt64.size) : (word n).toNat = n :=
  UInt64.toNat_ofNat_of_lt h

theorem word_toNat (a : UInt64) : word a.toNat = a :=
  UInt64.ofNat_toNat

theorem toUInt64_eq_word (b : UInt8) : b.toUInt64 = word b.toNat := by
  apply UInt64.toNat_inj.mp
  rw [UInt8.toNat_toUInt64, toNat_word (Nat.lt_trans b.toNat_lt (by decide))]

theorem word_lt_word_iff (hm : m < UInt64.size) (hn : n < UInt64.size) :
    word m < word n ↔ m < n := by
  rw [UInt64.lt_iff_toNat_lt, toNat_word hm, toNat_word hn]

theorem word_le_word_iff (hm : m < UInt64.size) (hn : n < UInt64.size) :
    word m ≤ word n ↔ m ≤ n := by
  rw [UInt64.le_iff_toNat_le, toNat_word hm, toNat_word hn]

theorem word_min (hm : m < UInt64.size) (hn : n < UInt64.size) :
    min (word m) (word n) = word (min m n) := by
  by_cases h : m ≤ n
  · rw [Nat.min_eq_left h]
    exact if_pos ((word_le_word_iff hm hn).mpr h)
  · rw [Nat.min_eq_right (Nat.le_of_not_le h)]
    exact if_neg (mt (word_le_word_iff hm hn).mp h)

theorem add_word (h : m + n < UInt64.size) :
    add (word m) (word n) = .ok (word (m + n)) := by
  have hsum : (word m).toNat + (word n).toNat = m + n := by
    rw [toNat_word (by omega), toNat_word (by omega)]
  rw [add, hsum, if_pos h, word, word, word, UInt64.ofNat_add]

theorem mul_word (hm : m < UInt64.size) (hn : n < UInt64.size) (h : m * n < UInt64.size) :
    mul (word m) (word n) = .ok (word (m * n)) := by
  rw [mul, toNat_word hm, toNat_word hn, if_pos h, word, word, word, UInt64.ofNat_mul]

theorem toNat_of_add_eq_ok {a b c : UInt64} (h : add a b = .ok c) :
    c.toNat = a.toNat + b.toNat := by
  unfold add at h
  split at h
  · rename_i hfits
    cases h
    rw [UInt64.toNat_add]
    exact Nat.mod_eq_of_lt hfits
  · cases h

theorem bit_word (h : n < 64) : bit (word n) = .ok (singleBit n) := by
  have hlt : word n < 64 := by
    rw [UInt64.lt_iff_toNat_lt, toNat_word (by simp only [UInt64.size]; omega)]
    exact h
  rw [bit, if_pos hlt]
  rfl

end Words

section Arrays

variable {α : Type} {xs : Array α} {i first last : Nat}

theorem read_word {x : α} (hi : i < UInt64.size) (h : xs[i]? = some x) :
    read xs (word i) = .ok x := by
  rw [read, toNat_word hi, h]

theorem write_word (hi : i < UInt64.size) (h : i < xs.size) (x : α) :
    write xs (word i) x = .ok (xs.setIfInBounds i x) := by
  rw [write, toNat_word hi, if_pos h]

theorem slice_word (hlast : last < UInt64.size) (hle : first ≤ last) (h : last ≤ xs.size) :
    slice xs (word first) (word last) = .ok (xs.extract first last) := by
  have hfirst : first < UInt64.size := by omega
  rw [slice, toNat_word hfirst, toNat_word hlast,
    if_pos ⟨(word_le_word_iff hfirst hlast).mpr hle, h⟩]

theorem fill_word (hlast : last < UInt64.size) (hle : first ≤ last) (h : last ≤ xs.size)
    (x : α) :
    fill xs (word first) (word last) x =
      .ok (xs.mapIdx fun i y => if first ≤ i ∧ i < last then x else y) := by
  have hfirst : first < UInt64.size := by omega
  rw [fill, toNat_word hfirst, toNat_word hlast,
    if_pos ⟨(word_le_word_iff hfirst hlast).mpr hle, h⟩]

theorem le_of_fill_eq_ok {first last : UInt64} {x : α} {ys : Array α}
    (h : fill xs first last x = .ok ys) : first ≤ last := by
  unfold fill at h
  split at h
  · rename_i hcond
    exact hcond.1
  · cases h

end Arrays

/-! ### Signed words -/

theorem toInt_signedOfBytes (high low : UInt8) :
    (signedOfBytes high low).toInt = Code.signedPair high low := by
  have hhigh := high.toNat_lt
  have hlow := low.toNat_lt
  have hvalue : (signedOfBytes high low).toBitVec.toNat = high.toNat * 256 + low.toNat := by
    show (UInt16.ofNat (high.toNat * 256 + low.toNat)).toNat = _
    rw [UInt16.toNat_ofNat']
    omega
  have hcond := BitVec.toInt_eq_toNat_cond (signedOfBytes high low).toBitVec
  rw [hvalue] at hcond
  show (signedOfBytes high low).toBitVec.toInt = _
  rw [hcond, Code.signedPair]
  split <;> split <;> omega

theorem toInt_toInt64 {a : UInt64} (h : a.toNat < 9223372036854775808) :
    a.toInt64.toInt = a.toNat := by
  have hcond := BitVec.toInt_eq_toNat_cond a.toInt64.toBitVec
  have hvalue : a.toInt64.toBitVec.toNat = a.toNat := rfl
  show a.toInt64.toBitVec.toInt = _
  rw [hcond, hvalue, if_pos (by omega)]

/-- A word and a signed word are added exactly, or not at all. -/
theorem addSigned?_eq (a : UInt64) (b : Int64) :
    addSigned? a b =
      if 0 ≤ (a.toNat : Int) + b.toInt ∧
          (a.toNat : Int) + b.toInt < 18446744073709551616 then
        some (word ((a.toNat : Int) + b.toInt).toNat)
      else none := by
  have ha := a.toNat_lt
  have hb := b.toUInt64.toNat_lt
  have hvalue : b.toInt =
      if 2 * b.toUInt64.toNat < 18446744073709551616 then (b.toUInt64.toNat : Int)
      else b.toUInt64.toNat - 18446744073709551616 :=
    BitVec.toInt_eq_toNat_cond b.toBitVec
  have hneg : b < 0 ↔ b.toInt < 0 := Int64.lt_iff_toInt_lt
  have hcarry : a + b.toUInt64 < a ↔
      18446744073709551616 ≤ a.toNat + b.toUInt64.toNat := by
    rw [UInt64.lt_iff_toNat_lt, UInt64.toNat_add]
    omega
  simp only [addSigned?, decide_eq_decide, hcarry, hneg]
  by_cases hfits : 0 ≤ (a.toNat : Int) + b.toInt ∧
      (a.toNat : Int) + b.toInt < 18446744073709551616
  · rw [if_pos hfits, if_pos (by split at hvalue <;> omega)]
    congr 1
    apply UInt64.toNat_inj.mp
    rw [toNat_word (by simp only [UInt64.size]; omega), UInt64.toNat_add]
    split at hvalue <;> omega
  · rw [if_neg hfits, if_neg (by split at hvalue <;> omega)]

/-- The largest size of code from whose positions every offset leads to a signed word:
`2^63 - 1 - 32767`. -/
def sizeLimit : Nat := 9223372036854743040

theorem add_lt_size_of_le {n : Nat} (h : n ≤ sizeLimit) : n + 512 < UInt64.size := by
  simp only [sizeLimit, UInt64.size] at h ⊢
  omega

/-- The exact sum of a position and an offset, as a signed word. -/
theorem addInt_word {base : Nat} (h : base ≤ sizeLimit) (relative : Int16) :
    ∃ sum, addInt (word base).toInt64 relative.toInt64 = .ok sum ∧
      sum.toInt = base + relative.toInt := by
  have hvalue : (word base).toNat = base :=
    toNat_word (by have := add_lt_size_of_le h; omega)
  unfold sizeLimit at h
  have hbase : (word base).toInt64.toInt = base := by
    rw [toInt_toInt64 (by omega), hvalue]
  have hrelative : relative.toInt64.toInt = relative.toInt := Int16.toInt_toInt64 relative
  have hlow := relative.le_toInt
  have hhigh := relative.toInt_lt
  refine ⟨(word base).toInt64 + relative.toInt64, ?_, ?_⟩
  · rw [addInt, hbase, hrelative, if_pos (by omega)]
  · rw [Int64.toInt_add, hbase, hrelative, Int.bmod_eq_of_le (by omega) (by omega)]

end Machine
end EvmCheck
