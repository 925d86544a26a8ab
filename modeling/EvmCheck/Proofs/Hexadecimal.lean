import EvmCheck.Hex
import EvmCheck.Proofs.Text

/-!
# Code read from hexadecimal text

A text is read after all its leading marks `0x` have been taken away.  What is left
is its `body`.  Decoding goes through the UTF-8 bytes of the body: it succeeds when
they come in pairs of digits, and otherwise it names their odd number or the first
one that is no digit.

The bytes of a character are digits exactly when it is a digit itself, since a
character outside ASCII starts with a byte of at least 128.  So success can be stated
with characters, and the bytes that result are those whose text is the body in lower
case.

**Results.**
* `exists_eq_marks_append`, `not_prefix_strip`: what the body of a text is.
* `forall_isDigit_utf8EncodeChar_iff`: digits as characters and as bytes.
* `flatMap_byteDigits_ofPairs`: pairs of digits and the bytes they stand for.
* `decode_eq_ok_iff`, `decode_eq_oddLength_iff`, `decode_eq_invalidByte_iff`: when
  decoding succeeds, and how it fails otherwise.
* `Names.eq_escaped`, `Names.unique`: how a message names a byte, and that no other
  byte is named so.
* `decode_inverts_writing`: all of this together, with the texts of the failures.
-/

namespace EvmCheck
namespace Hex

variable {text : String} {cs : List Char} {c : Char} {b : UInt8}

/-- The mark `0x`, a number of times. -/
def marks (k : Nat) : String :=
  String.join (List.replicate k "0x")

/-- A text without its leading marks. -/
def body (text : String) : String :=
  String.ofList (strip text.toList)

/-- The hexadecimal digits in either case. -/
def IsDigit (c : Char) : Prop :=
  '0' ≤ c ∧ c ≤ '9' ∨ 'a' ≤ c ∧ c ≤ 'f' ∨ 'A' ≤ c ∧ c ≤ 'F'

/-- The byte at an index is the first one that is no digit. -/
def FirstInvalid (bytes : Array UInt8) (index : Nat) (byte : UInt8) : Prop :=
  bytes[index]? = some byte ∧ ¬ IsDigit (charOf byte) ∧
    ∀ j < index, ∀ b, bytes[j]? = some b → IsDigit (charOf b)

/-! ### Marks -/

theorem strip_of_not_prefix (h : ¬ "0x".toList <+: cs) : strip cs = cs := by
  unfold strip
  split
  · exact absurd ⟨_, rfl⟩ h
  · rfl

theorem not_prefix_strip (cs : List Char) : ¬ "0x".toList <+: strip cs := by
  fun_induction strip cs with
  | case1 rest ih => exact ih
  | case2 cs hcs =>
      rintro ⟨rest, rfl⟩
      exact hcs rest rfl

theorem toList_marks_succ (k : Nat) :
    (marks (k + 1)).toList = '0' :: 'x' :: (marks k).toList := by
  simp [marks, String.toList_join, List.replicate_succ]

theorem exists_marks (cs : List Char) : ∃ k, cs = (marks k).toList ++ strip cs := by
  fun_induction strip cs with
  | case1 rest ih =>
      obtain ⟨k, hk⟩ := ih
      exact ⟨k + 1, by rw [toList_marks_succ, List.cons_append, List.cons_append, ← hk]⟩
  | case2 cs _ => exact ⟨0, rfl⟩

theorem strip_marks (k : Nat) (cs : List Char) :
    strip ((marks k).toList ++ cs) = strip cs := by
  induction k with
  | zero => rfl
  | succ k ih => rw [toList_marks_succ, List.cons_append, List.cons_append, strip, ih]

/-! ### Bytes -/

theorem digitBytes_eq (text : String) : digitBytes text = (body text).toUTF8.data := by
  rw [body, String.toUTF8_eq_toByteArray, String.toByteArray_ofList]
  simp [digitBytes, List.utf8Encode]

theorem utf8EncodeChar_of_lt (h : c.toNat < 128) :
    String.utf8EncodeChar c = [UInt8.ofNat c.toNat] :=
  if_pos (Nat.le_of_lt_succ h)

theorem exists_large_byte (h : 128 ≤ c.toNat) :
    ∃ b ∈ String.utf8EncodeChar c, 128 ≤ b.toNat := by
  have hlarge : ∀ n, 128 ≤ n → n < 256 → 128 ≤ (UInt8.ofNat n).toNat := by
    intro n hle hlt
    rw [UInt8.toNat_ofNat', Nat.mod_eq_of_lt hlt]
    exact hle
  -- the first byte of a longer encoding says how long it is
  unfold String.utf8EncodeChar
  dsimp only
  split
  · rename_i hle
    exact absurd hle (Nat.not_le_of_gt h)
  · split
    · exact ⟨_, List.mem_cons_self, hlarge _ (by omega) (by omega)⟩
    · split
      · exact ⟨_, List.mem_cons_self, hlarge _ (by omega) (by omega)⟩
      · exact ⟨_, List.mem_cons_self, hlarge _ (by omega) (by omega)⟩

theorem toNat_charOf (b : UInt8) : (charOf b).toNat = b.toNat := by
  have hvalid : b.toNat.isValidChar := Or.inl (Nat.lt_trans b.toNat_lt (by decide))
  rw [charOf, Char.ofNat, dif_pos hvalid]
  rfl

theorem isSome_hexValue?_iff : (Text.hexValue? c).isSome = true ↔ IsDigit c := by
  unfold Text.hexValue? IsDigit
  split_ifs <;> simp_all

theorem toNat_lt_of_isDigit (h : IsDigit c) : c.toNat < 128 := by
  have hle : ∀ d : Char, c ≤ d → d.toNat < 128 → c.toNat < 128 := fun d hcd hd =>
    Nat.lt_of_le_of_lt (UInt32.le_iff_toNat_le.mp hcd) hd
  rcases h with h | h | h
  · exact hle '9' h.2 (by decide)
  · exact hle 'f' h.2 (by decide)
  · exact hle 'F' h.2 (by decide)

/-- A digit is written in lower case as the number that it stands for. -/
theorem digitChar_of_hexValue? {v : Nat} (h : Text.hexValue? c = some v) :
    v < 16 ∧ Nat.digitChar v = c.toLower := by
  have hall : ∀ n : Fin 128, ∀ v ∈ Text.hexValue? (Char.ofNat n.val),
      v < 16 ∧ Nat.digitChar v = (Char.ofNat n.val).toLower := by
    decide
  have hdigit : IsDigit c := isSome_hexValue?_iff.mp (by rw [h]; rfl)
  have hc := hall ⟨c.toNat, toNat_lt_of_isDigit hdigit⟩
  rw [Char.ofNat_toNat] at hc
  exact hc v h

theorem hexValue?_toLower (c : Char) : Text.hexValue? c.toLower = Text.hexValue? c := by
  by_cases hupper : c.val ≥ 'A'.val ∧ c.val ≤ 'Z'.val
  · have hall : ∀ n : Fin 128, Text.hexValue? (Char.ofNat n.val).toLower =
        Text.hexValue? (Char.ofNat n.val) := by
      decide
    have hlt : c.toNat < 128 :=
      Nat.lt_of_le_of_lt (UInt32.le_iff_toNat_le.mp hupper.2) (by decide)
    have hc := hall ⟨c.toNat, hlt⟩
    rwa [Char.ofNat_toNat] at hc
  · have hself : c.toLower = c := dif_neg hupper
    rw [hself]

theorem isDigit_toLower_iff : IsDigit c.toLower ↔ IsDigit c := by
  rw [← isSome_hexValue?_iff, ← isSome_hexValue?_iff, hexValue?_toLower]

theorem charOf_ofNat (h : c.toNat < 128) : charOf (UInt8.ofNat c.toNat) = c := by
  rw [charOf, UInt8.toNat_ofNat', Nat.mod_eq_of_lt (by omega), Char.ofNat_toNat]

/-- The bytes of a character are digits exactly when it is one. -/
theorem forall_isDigit_utf8EncodeChar_iff :
    (∀ b ∈ String.utf8EncodeChar c, isDigit b = true) ↔ IsDigit c := by
  constructor
  · intro h
    by_cases hlt : c.toNat < 128
    · rw [utf8EncodeChar_of_lt hlt, List.forall_mem_singleton, isDigit, charOf_ofNat hlt] at h
      exact isSome_hexValue?_iff.mp h
    · obtain ⟨b, hb, hlarge⟩ := exists_large_byte (Nat.le_of_not_lt hlt)
      have hsmall := toNat_lt_of_isDigit (isSome_hexValue?_iff.mp (h b hb))
      rw [toNat_charOf] at hsmall
      omega
  · intro h
    have hlt := toNat_lt_of_isDigit h
    rw [utf8EncodeChar_of_lt hlt, List.forall_mem_singleton, isDigit, charOf_ofNat hlt]
    exact isSome_hexValue?_iff.mpr h

theorem flatMap_utf8EncodeChar (h : ∀ c ∈ cs, IsDigit c) :
    cs.flatMap String.utf8EncodeChar = cs.map fun c => UInt8.ofNat c.toNat := by
  induction cs with
  | nil => rfl
  | cons c cs ih =>
      rw [List.forall_mem_cons] at h
      rw [List.flatMap_cons, utf8EncodeChar_of_lt (toNat_lt_of_isDigit h.1), ih h.2]
      rfl

/-! ### Pairs of digits -/

/-- The bytes whose digits are given in pairs, the higher digit first. -/
def ofPairs : List UInt8 → List UInt8
  | high :: low :: rest =>
      UInt8.ofNat (16 * digitValue high + digitValue low) :: ofPairs rest
  | _ => []

theorem getElem?_ofPairs (ds : List UInt8) (i : Nat) :
    (ofPairs ds)[i]? =
      if i < ds.length / 2 then
        some (UInt8.ofNat
          (16 * digitValue (ds.getD (2 * i) 0) + digitValue (ds.getD (2 * i + 1) 0)))
      else none := by
  fun_induction ofPairs ds generalizing i with
  | case1 high low rest ih =>
      cases i with
      | zero => simp
      | succ i =>
          have hlength : (high :: low :: rest).length / 2 = rest.length / 2 + 1 := by
            simp only [List.length_cons]
            omega
          simp only [List.getElem?_cons_succ, ih, hlength, Nat.mul_succ,
            Nat.add_lt_add_iff_right]
          rfl
  | case2 ds hshort =>
      have hlength : ds.length / 2 = 0 := by
        match ds, hshort with
        | [], _ => rfl
        | [_], _ => simp
        | high :: low :: rest, hshort => exact absurd rfl (hshort high low rest)
      simp [hlength]

theorem toList_pack (digits : Array UInt8) :
    (pack digits).toList = ofPairs digits.toList := by
  apply List.ext_getElem?
  intro i
  rw [getElem?_ofPairs, pack, Array.toList_ofFn, List.getElem?_ofFn]
  simp [Array.getD_eq_getD_getElem?, List.getD_eq_getElem?_getD]

theorem byteDigits_ofPair {high low : Char} (hhigh : IsDigit high) (hlow : IsDigit low) :
    Text.byteDigits (UInt8.ofNat
        (16 * digitValue (UInt8.ofNat high.toNat) + digitValue (UInt8.ofNat low.toNat))) =
      [high.toLower, low.toLower] := by
  obtain ⟨v, hv⟩ := Option.isSome_iff_exists.mp (isSome_hexValue?_iff.mpr hhigh)
  obtain ⟨w, hw⟩ := Option.isSome_iff_exists.mp (isSome_hexValue?_iff.mpr hlow)
  obtain ⟨hvlt, hvchar⟩ := digitChar_of_hexValue? hv
  obtain ⟨hwlt, hwchar⟩ := digitChar_of_hexValue? hw
  rw [digitValue, digitValue, charOf_ofNat (toNat_lt_of_isDigit hhigh),
    charOf_ofNat (toNat_lt_of_isDigit hlow), hv, hw, Option.getD_some, Option.getD_some,
    Text.byteDigits, UInt8.toNat_ofNat', Nat.mod_eq_of_lt (by omega), ← hvchar, ← hwchar]
  have hdiv : (16 * v + w) / 16 = v := by omega
  have hmod : (16 * v + w) % 16 = w := by omega
  rw [hdiv, hmod]

/-- The bytes that pairs of digits stand for are written with these digits, in lower
case. -/
theorem flatMap_byteDigits_ofPairs : ∀ cs : List Char, (∀ c ∈ cs, IsDigit c) →
    cs.length % 2 = 0 →
      (ofPairs (cs.map fun c => UInt8.ofNat c.toNat)).flatMap Text.byteDigits =
        cs.map Char.toLower
  | [], _, _ => rfl
  | [_], _, heven => by simp at heven
  | high :: low :: rest, hcs, heven => by
      rw [List.forall_mem_cons, List.forall_mem_cons] at hcs
      have hrest : rest.length % 2 = 0 := by
        simp only [List.length_cons] at heven
        omega
      rw [List.map_cons, List.map_cons, ofPairs, List.flatMap_cons,
        byteDigits_ofPair hcs.1 hcs.2.1, flatMap_byteDigits_ofPairs rest hcs.2.2 hrest]
      rfl

/-! ### Decoding -/

theorem toList_body (text : String) : (body text).toList = strip text.toList :=
  String.toList_ofList

theorem forall_isDigit_iff :
    (∀ b ∈ digitBytes text, isDigit b = true) ↔ ∀ c ∈ (body text).toList, IsDigit c := by
  simp only [digitBytes, toList_body, List.mem_toArray, List.mem_flatMap,
    ← forall_isDigit_utf8EncodeChar_iff]
  constructor
  · exact fun h c hc b hb => h b ⟨c, hc, hb⟩
  · rintro h b ⟨c, hc, hb⟩
    exact h c hc b hb

theorem digitBytes_of_digits (h : ∀ c ∈ (body text).toList, IsDigit c) :
    (digitBytes text).toList = (body text).toList.map fun c => UInt8.ofNat c.toNat := by
  rw [toList_body] at h ⊢
  exact flatMap_utf8EncodeChar h

theorem decode_eq_oddLength_iff :
    decode text = .error .oddLength ↔ (digitBytes text).size % 2 = 1 := by
  unfold decode
  dsimp only
  split
  · simp [*]
  · split <;> simp [*]

theorem isDigit_eq_true_iff : isDigit b = true ↔ IsDigit (charOf b) :=
  isSome_hexValue?_iff

theorem findIdx?_eq_some_iff {bytes : Array UInt8} {index : Nat} :
    bytes.findIdx? (fun b => !isDigit b) = some index ↔
      ∃ byte, FirstInvalid bytes index byte := by
  rw [Array.findIdx?_eq_some_iff_getElem]
  simp only [FirstInvalid, ← isDigit_eq_true_iff, Bool.not_eq_true', Bool.not_eq_false]
  constructor
  · rintro ⟨hlt, hinvalid, hbefore⟩
    refine ⟨bytes[index], Array.getElem?_eq_getElem hlt, by simp [hinvalid], ?_⟩
    intro j hj b hb
    rw [Array.getElem?_eq_getElem (Nat.lt_trans hj hlt)] at hb
    cases hb
    exact hbefore j hj
  · rintro ⟨byte, hbyte, hinvalid, hbefore⟩
    obtain ⟨hlt, rfl⟩ := Array.getElem?_eq_some_iff.mp hbyte
    refine ⟨hlt, by simpa using hinvalid, ?_⟩
    intro j hj
    exact hbefore j hj _ (Array.getElem?_eq_getElem (Nat.lt_trans hj hlt))

theorem decode_eq_invalidByte_iff {byte : UInt8} {index : Nat} :
    decode text = .error (.invalidByte byte index) ↔
      (digitBytes text).size % 2 ≠ 1 ∧ FirstInvalid (digitBytes text) index byte := by
  constructor
  · intro h
    unfold decode at h
    dsimp only at h
    split at h
    · cases h
    · rename_i heven
      split at h
      · rename_i i hfind
        obtain ⟨byte', hfirst⟩ := findIdx?_eq_some_iff.mp hfind
        rw [Array.getD_eq_getD_getElem?, hfirst.1] at h
        cases h
        exact ⟨heven, hfirst⟩
      · cases h
  · rintro ⟨heven, hfirst⟩
    have hfind := findIdx?_eq_some_iff.mpr ⟨byte, hfirst⟩
    unfold decode
    simp only [if_neg heven, hfind, Array.getD_eq_getD_getElem?, hfirst.1, Option.getD_some]

theorem decode_eq_ok_of_digits (heven : (digitBytes text).size % 2 ≠ 1)
    (h : ∀ b ∈ digitBytes text, isDigit b = true) :
    decode text = .ok (pack (digitBytes text)) := by
  have hnone : (digitBytes text).findIdx? (fun b => !isDigit b) = none := by
    rw [Array.findIdx?_eq_none_iff]
    intro b hb
    simp [h b hb]
  unfold decode
  simp only [if_neg heven, hnone]

theorem digits_of_decode {code : Code} (h : decode text = .ok code) :
    (digitBytes text).size % 2 ≠ 1 ∧ ∀ b ∈ digitBytes text, isDigit b = true := by
  unfold decode at h
  dsimp only at h
  split at h
  · cases h
  · rename_i heven
    split at h
    · cases h
    · rename_i hnone
      rw [Array.findIdx?_eq_none_iff] at hnone
      exact ⟨heven, fun b hb => by simpa using hnone b hb⟩

/-- Text of digits in pairs is decoded to the bytes that are written with these
digits. -/
theorem exists_decode_of_digits (heven : (body text).toList.length % 2 = 0)
    (h : ∀ c ∈ (body text).toList, IsDigit c) :
    ∃ code, decode text = .ok code ∧
      (Text.bytes code.toList).toList = (body text).toList.map Char.toLower := by
  have hbytes := digitBytes_of_digits h
  have hsize : (digitBytes text).size = (body text).toList.length := by
    rw [← Array.length_toList, hbytes, List.length_map]
  refine ⟨pack (digitBytes text),
    decode_eq_ok_of_digits (by omega) (forall_isDigit_iff.mpr h), ?_⟩
  rw [Text.toList_bytes, toList_pack, hbytes, flatMap_byteDigits_ofPairs _ h heven]

theorem decode_eq_ok_iff {code : Code} :
    decode text = .ok code ↔
      ((body text).toList.length % 2 = 0 ∧ ∀ c ∈ (body text).toList, IsDigit c) ∧
        (body text).toList.map Char.toLower = (Text.bytes code.toList).toList := by
  constructor
  · intro h
    obtain ⟨heven, hdigits⟩ := digits_of_decode h
    rw [forall_isDigit_iff] at hdigits
    rw [← Array.length_toList, digitBytes_of_digits hdigits, List.length_map] at heven
    have heven' : (body text).toList.length % 2 = 0 := by omega
    obtain ⟨code', hcode', hlower⟩ := exists_decode_of_digits heven' hdigits
    rw [h] at hcode'
    cases hcode'
    exact ⟨⟨heven', hdigits⟩, hlower.symm⟩
  · rintro ⟨⟨heven, hdigits⟩, hlower⟩
    obtain ⟨code', hcode', hlower'⟩ := exists_decode_of_digits heven hdigits
    rw [hlower] at hlower'
    have hlist := Text.bytes_injective (String.toList_injective hlower')
    rw [hcode', Array.toList_inj.mp hlist]

theorem body_marks (k : Nat) (text : String) : body (marks k ++ text) = body text := by
  rw [body, body, String.toList_append, strip_marks]

theorem body_eq_self (h : ¬ "0x".toList <+: text.toList) : body text = text := by
  rw [body, strip_of_not_prefix h, String.ofList_toList]

theorem decode_congr {text' : String} (h : body text = body text') :
    decode text = decode text' := by
  unfold decode
  rw [digitBytes_eq, digitBytes_eq, h]

/-- A text is its marks and its body, and the body starts with no mark. -/
theorem exists_eq_marks_append (text : String) : ∃ k, text = marks k ++ body text := by
  obtain ⟨k, hk⟩ := exists_marks text.toList
  refine ⟨k, String.toList_injective ?_⟩
  rw [String.toList_append, toList_body, ← hk]

theorem length_toList_bytes (bs : List UInt8) :
    (Text.bytes bs).toList.length = 2 * bs.length := by
  simp [Text.toList_bytes, Text.byteDigits, List.length_flatMap, Nat.mul_comm]

/-- What is written with the digits of bytes, in whatever case, starts with no mark
and is made of pairs of digits. -/
theorem digits_of_toLower {bs : List UInt8}
    (h : text.toList.map Char.toLower = (Text.bytes bs).toList) :
    body text = text ∧ text.toList.length % 2 = 0 ∧ ∀ c ∈ text.toList, IsDigit c := by
  have hdigits : ∀ c ∈ text.toList, IsDigit c := by
    intro c hc
    have hmem : c.toLower ∈ (Text.bytes bs).toList := by
      rw [← h]
      exact List.mem_map_of_mem hc
    exact isDigit_toLower_iff.mp
      (isSome_hexValue?_iff.mp (Text.isSome_hexValue?_of_mem_bytes hmem))
  refine ⟨body_eq_self ?_, ?_, hdigits⟩
  · rintro ⟨rest, hrest⟩
    have hx : IsDigit 'x' := hdigits 'x' (by rw [← hrest]; simp)
    simp [IsDigit] at hx
  · have hlength := congrArg List.length h
    rw [List.length_map, length_toList_bytes] at hlength
    rw [hlength, Nat.mul_mod_right]

/-! ### Names of bytes -/

/-- The escapes of one character, which follows a backslash. -/
def shortEscapes : List (UInt8 × Char) :=
  [(0x00, '0'), (0x09, 't'), (0x0a, 'n'), (0x0d, 'r'), (0x27, '\''), (0x5c, '\\')]

/-- The character with the number of a byte is a blank or shows in print. -/
def Shows (b : UInt8) : Prop :=
  0x20 ≤ b ∧ b < 0x7f ∨ 0xa0 < b ∧ b ≠ 0xad

instance (b : UInt8) : Decidable (Shows b) :=
  inferInstanceAs (Decidable (0x20 ≤ b ∧ b < 0x7f ∨ 0xa0 < b ∧ b ≠ 0xad))

/-- A text stands for a byte between apostrophes. -/
inductive Names : UInt8 → String → Prop
  /-- A character that shows stands for its number. -/
  | character {b : UInt8} (hshows : Shows b) (hshort : b ∉ shortEscapes.map Prod.fst) :
      Names b (String.ofList [Char.ofNat b.toNat])
  /-- Some characters have an escape of their own. -/
  | short {b : UInt8} {c : Char} (hmem : (b, c) ∈ shortEscapes) :
      Names b (String.ofList ['\\', c])
  /-- For the others the number is written in hexadecimal. -/
  | number {b : UInt8} (hshows : ¬ Shows b) (hshort : b ∉ shortEscapes.map Prod.fst) :
      Names b ("\\u\x7b" ++ Text.hex b.toNat ++ "\x7d")

theorem shows_iff :
    Shows b ↔ ¬ (b < 0x20 ∨ (0x7f ≤ b ∧ b ≤ 0xa0) ∨ b = 0xad) := by
  unfold Shows
  grind

theorem exists_names (b : UInt8) : ∃ name, Names b name := by
  by_cases hshort : b ∈ shortEscapes.map Prod.fst
  · obtain ⟨⟨_, c⟩, hmem, rfl⟩ := List.mem_map.mp hshort
    exact ⟨_, .short hmem⟩
  · by_cases hshows : Shows b
    · exact ⟨_, .character hshows hshort⟩
    · exact ⟨_, .number hshows hshort⟩

theorem escaped_of_not_mem (h : b ∉ shortEscapes.map Prod.fst) :
    escaped b =
      if b < 0x20 ∨ (0x7f ≤ b ∧ b ≤ 0xa0) ∨ b = 0xad then
        "\\u\x7b" ++ Text.hex b.toNat ++ "\x7d"
      else String.singleton (charOf b) := by
  have hne : ∀ {b'}, b' ∈ shortEscapes.map Prod.fst → b ≠ b' :=
    fun hmem heq => h (heq ▸ hmem)
  rw [escaped, if_neg (hne (by decide)), if_neg (hne (by decide)), if_neg (hne (by decide)),
    if_neg (hne (by decide)), if_neg (hne (by decide)), if_neg (hne (by decide))]

/-- What stands in a message for a byte is its only name. -/
theorem Names.eq_escaped {name : String} (h : Names b name) : name = escaped b := by
  cases h with
  | character hshows hshort =>
      rw [escaped_of_not_mem hshort, if_neg (shows_iff.mp hshows)]
      rfl
  | short hmem =>
      have hall : ∀ escape ∈ shortEscapes,
          String.ofList ['\\', escape.2] = escaped escape.1 := by
        decide
      exact hall _ hmem
  | number hshows hshort =>
      rw [shows_iff, not_not] at hshows
      rw [escaped_of_not_mem hshort, if_pos hshows]

/-- The number of the byte that a text stands for. -/
def namedNumber : List Char → Nat
  | [c] => c.toNat
  | ['\\', c] => ((shortEscapes.find? (·.2 = c)).map (·.1.toNat)).getD 0
  | cs => Text.value 16 ((cs.drop "\\u\x7b".length).takeWhile (· ≠ '\x7d'))

theorem namedNumber_hex (n : Nat) :
    namedNumber ("\\u\x7b" ++ Text.hex n ++ "\x7d").toList = n := by
  have hbrace : '\x7d' ∉ Nat.toDigits 16 n := Text.not_mem_of_isSome_hexValue?
    (fun _ => Text.isSome_hexValue?_of_mem_toDigits (by decide) (by decide)) rfl
  have hlist : ("\\u\x7b" ++ Text.hex n ++ "\x7d").toList =
      '\\' :: 'u' :: '\x7b' :: (Nat.toDigits 16 n ++ ['\x7d']) := by
    simp [Text.hex]
  calc namedNumber ("\\u\x7b" ++ Text.hex n ++ "\x7d").toList
      = Text.value 16 ((Nat.toDigits 16 n ++ ['\x7d']).takeWhile (· ≠ '\x7d')) := by
        rw [hlist]
        rfl
    _ = Text.value 16 (Nat.toDigits 16 n) := by
        rw [List.takeWhile_append_of_pos (Text.forall_mem_ne hbrace)]
        simp
    _ = n := Text.value_toDigits (by decide) (by decide) n

theorem namedNumber_of_names {name : String} (h : Names b name) :
    namedNumber name.toList = b.toNat := by
  cases h with
  | character _ _ =>
      rw [String.toList_ofList]
      exact toNat_charOf b
  | short hmem =>
      have hall : ∀ escape ∈ shortEscapes,
          namedNumber ['\\', escape.2] = escape.1.toNat := by
        decide
      rw [String.toList_ofList]
      exact hall _ hmem
  | number _ _ => exact namedNumber_hex b.toNat

/-- A text stands for one byte at most. -/
theorem Names.unique {b' : UInt8} {name : String} (h : Names b name)
    (h' : Names b' name) : b = b' := by
  rw [← UInt8.toNat_inj, ← namedNumber_of_names h, namedNumber_of_names h']

/-- **Decoding accepts exactly hexadecimal text and undoes writing.**  The body of a
text is what is left of it after its leading marks.  The text is decoded to a code
exactly when its body is an even number of digits that are, in lower case, the text of
the code; another mark before it changes nothing.  Otherwise the message repeats the
whole text and speaks of an odd number of bytes of the body, if it is odd, or else names
the first of these bytes that is no digit, with its index; no name stands for two
bytes.  So bytes are read back from their text in whatever case and after any number of
marks. -/
theorem decode_inverts_writing :
    (∀ text,
      ((∃ k, text = marks k ++ body text) ∧ ¬ "0x".toList <+: (body text).toList) ∧
      (∀ code, decode text = .ok code ↔
        ((body text).toList.length % 2 = 0 ∧ ∀ c ∈ (body text).toList, IsDigit c) ∧
          (body text).toList.map Char.toLower = (Text.bytes code.toList).toList) ∧
      decode ("0x" ++ text) = decode text ∧
      (decode text = .error .oddLength ↔ (body text).utf8ByteSize % 2 = 1) ∧
      (∀ byte index, decode text = .error (.invalidByte byte index) ↔
        (body text).utf8ByteSize % 2 = 0 ∧
          FirstInvalid (body text).toUTF8.data index byte) ∧
      Fault.message text .oddLength =
        "invalid hex " ++ text ++ ": " ++ "Odd number of digits" ∧
      (∀ byte index name, Names byte name →
        Fault.message text (.invalidByte byte index) =
          "invalid hex " ++ text ++ ": " ++ ("Invalid character '" ++ name ++
            "' at position " ++ Text.decimal index))) ∧
    (∀ byte, ∃ name, Names byte name ∧ ∀ byte', Names byte' name → byte' = byte) ∧
    (∀ (code : Code) (k : Nat) (written : String),
      written.toList.map Char.toLower = (Text.bytes code.toList).toList →
        decode (marks k ++ written) = .ok code) := by
  refine ⟨?reading, ?naming, ?writing⟩
  case reading =>
    intro text
    refine ⟨⟨exists_eq_marks_append text, ?unmarked⟩, fun _ => decode_eq_ok_iff, ?marked,
      ?oddLength, ?invalidByte, rfl, ?named⟩
    case unmarked =>
      rw [toList_body]
      exact not_prefix_strip text.toList
    case marked =>
      exact decode_congr (body_marks 1 text)
    case oddLength =>
      rw [decode_eq_oddLength_iff, digitBytes_eq]
      rfl
    case invalidByte =>
      intro byte index
      rw [decode_eq_invalidByte_iff, digitBytes_eq, Nat.mod_two_ne_one]
      rfl
    case named =>
      intro byte index name hname
      rw [hname.eq_escaped]
      rfl
  case naming =>
    intro byte
    obtain ⟨name, hname⟩ := exists_names byte
    exact ⟨name, hname, fun _ hname' => hname'.unique hname⟩
  case writing =>
    intro code k written h
    obtain ⟨hbody, heven, hdigits⟩ := digits_of_toLower h
    rw [decode_congr (body_marks k written), decode_eq_ok_iff, hbody]
    exact ⟨⟨heven, hdigits⟩, h⟩

/-- Two marks and digits in both cases; and three bytes that are no digits, one after a
mark, one that does not show and one that only begins a character. -/
theorem decode_mixed_case :
    decode "0x0x0aFf" = .ok #[0x0a, 0xff] ∧
    (decode "0x0g" = .error (.invalidByte 0x67 1) ∧
      Fault.message "0x0g" (.invalidByte 0x67 1) =
        "invalid hex 0x0g: Invalid character 'g' at position 1") ∧
    (decode "0\n" = .error (.invalidByte 0x0a 1) ∧
      Fault.message "0\n" (.invalidByte 0x0a 1) =
        "invalid hex 0\n: Invalid character '\\n' at position 1") ∧
    (decode "é" = .error (.invalidByte 0xc3 0) ∧
      Fault.message "é" (.invalidByte 0xc3 0) =
        "invalid hex é: Invalid character 'Ã' at position 0") := by
  obtain ⟨hreading, -, hwriting⟩ := decode_inverts_writing
  have hmessage := fun text => (hreading text).2.2.2.2.2.2
  refine ⟨hwriting #[0x0a, 0xff] 2 "0aFf" (by rfl), ⟨?_, ?_⟩, ⟨?_, ?_⟩, ?_, ?_⟩
  · decide +kernel
  · rw [hmessage "0x0g" 0x67 1 "g" (.character (by decide) (by decide))]
    decide +kernel
  · decide +kernel
  · rw [hmessage "0\n" 0x0a 1 "\\n" (.short (by decide))]
    decide +kernel
  · decide +kernel
  · rw [hmessage "é" 0xc3 0 "Ã" (.character (by decide) (by decide))]
    decide +kernel

end Hex
end EvmCheck
