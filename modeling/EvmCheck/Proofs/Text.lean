import EvmCheck.Text
import Mathlib.Data.List.Basic

/-!
# Reading texts back

Reports and listings determine what they are made of.  A number is read back
from its digits, and bytes from their pairs of digits.  A text in two parts is
cut at the first character that cannot belong to the first part, and a text that
joins items is cut at its separators.

**Results.**
* `value_toDigits`: the value of the digits of a number.
* `value_hexPadded`, `readBytes_bytes`: numbers and bytes read from their texts.
* `decimal_injective`, `signed_injective`: the numbers that one text can stand for.
* `append_inj_of_takeWhile`, `separated_injective`: the parts of a text.
* `intercalate_injective`: the items of a text.
* `positions_injective`, `record_injective`: lists of numbers and records.
-/

namespace EvmCheck
namespace Text

/-- The number that digits stand for, the highest digit first. -/
def value (base : Nat) (digits : List Char) : Nat :=
  digits.foldl (fun n c => base * n + (hexValue? c).getD 0) 0

theorem hexValue?_digitChar {d : Nat} (h : d < 16) :
    hexValue? (Nat.digitChar d) = some d := by
  have hall : ∀ k : Fin 16, hexValue? (Nat.digitChar k.val) = some k.val := by
    decide
  exact hall ⟨d, h⟩

theorem value_concat (base : Nat) (digits : List Char) (c : Char) :
    value base (digits ++ [c]) =
      base * value base digits + (hexValue? c).getD 0 := by
  simp [value]

/-- Induction over the digits of a number, from the highest on. -/
@[elab_as_elim]
theorem digits_induction {base : Nat} (hbase : 1 < base) {motive : Nat → Prop}
    (first : ∀ n, n < base → motive n)
    (next : ∀ n, base ≤ n → motive (n / base) → motive n) (n : Nat) : motive n := by
  by_cases h : n < base
  · exact first n h
  · have hlt : n / base < n := Nat.div_lt_self (by omega) hbase
    exact next n (Nat.le_of_not_lt h) (digits_induction hbase first next (n / base))
termination_by n

/-- The digits of a number have its value. -/
theorem value_toDigits {base : Nat} (hlow : 1 < base) (hhigh : base ≤ 16) (n : Nat) :
    value base (Nat.toDigits base n) = n := by
  induction n using digits_induction hlow with
  | first n hlt =>
      rw [Nat.toDigits_of_lt_base hlt]
      simp [value, hexValue?_digitChar (Nat.lt_of_lt_of_le hlt hhigh)]
  | next n hle ih =>
      have hmod : n % base < base := Nat.mod_lt n (by omega)
      rw [Nat.toDigits_of_base_le hlow hle, value_concat, ih,
        hexValue?_digitChar (Nat.lt_of_lt_of_le hmod hhigh), Option.getD_some,
        Nat.div_add_mod]

/-- Zeros on the left do not count. -/
theorem value_leftpad (base width : Nat) (digits : List Char) :
    value base (digits.leftpad width '0') = value base digits := by
  have hzeros : ∀ k, value base (List.replicate k '0') = 0 := by
    intro k
    induction k with
    | zero => rfl
    | succ k ih =>
        rw [List.replicate_succ', value_concat, ih]
        rfl
  have h := hzeros (width - digits.length)
  rw [value] at h
  rw [List.leftpad, value, List.foldl_append, h]
  rfl

theorem toList_hexPadded (width n : Nat) :
    (hexPadded width n).toList = (Nat.toDigits 16 n).leftpad width '0' :=
  String.toList_ofList

theorem value_hexPadded (width n : Nat) : value 16 (hexPadded width n).toList = n := by
  rw [toList_hexPadded, value_leftpad, value_toDigits (by decide) (by decide)]

theorem hexPadded_injective {width m n : Nat}
    (h : hexPadded width m = hexPadded width n) : m = n := by
  rw [← value_hexPadded width m, h, value_hexPadded]

theorem isSome_hexValue?_of_mem_toDigits {base n : Nat} {c : Char} (hlow : 1 < base)
    (hhigh : base ≤ 16) (h : c ∈ Nat.toDigits base n) :
    (hexValue? c).isSome = true := by
  induction n using digits_induction hlow with
  | first n hlt =>
      rw [Nat.toDigits_of_lt_base hlt] at h
      rw [List.mem_singleton.mp h, hexValue?_digitChar (Nat.lt_of_lt_of_le hlt hhigh)]
      rfl
  | next n hle ih =>
      have hmod : n % base < base := Nat.mod_lt n (by omega)
      rw [Nat.toDigits_of_base_le hlow hle] at h
      rcases List.mem_append.mp h with h | h
      · exact ih h
      · rw [List.mem_singleton.mp h,
          hexValue?_digitChar (Nat.lt_of_lt_of_le hmod hhigh)]
        rfl

/-- Among digits there is no other character. -/
theorem not_mem_of_isSome_hexValue? {cs : List Char} {c : Char}
    (hcs : ∀ d ∈ cs, (hexValue? d).isSome = true) (hc : hexValue? c = none) : c ∉ cs := by
  intro h
  have hsome := hcs c h
  rw [hc] at hsome
  cases hsome

theorem isSome_hexValue?_of_mem_hexPadded {width n : Nat} {c : Char}
    (h : c ∈ (hexPadded width n).toList) : (hexValue? c).isSome = true := by
  rw [toList_hexPadded, List.leftpad] at h
  rcases List.mem_append.mp h with h | h
  · rw [List.eq_of_mem_replicate h]
    rfl
  · exact isSome_hexValue?_of_mem_toDigits (by decide) (by decide) h

theorem not_mem_hexPadded {width n : Nat} {c : Char} (hc : hexValue? c = none) :
    c ∉ (hexPadded width n).toList :=
  not_mem_of_isSome_hexValue? (fun _ => isSome_hexValue?_of_mem_hexPadded) hc

theorem hex_eq_hexPadded (n : Nat) : hex n = hexPadded 0 n := by
  simp [hex, hexPadded, List.leftpad]

theorem toList_decimal (n : Nat) : (decimal n).toList = Nat.toDigits 10 n :=
  String.toList_ofList

theorem decimal_injective {m n : Nat} (h : decimal m = decimal n) : m = n := by
  have hvalue := congrArg (fun text => value 10 text.toList) h
  simp only [toList_decimal] at hvalue
  rwa [value_toDigits (by decide) (by decide),
    value_toDigits (by decide) (by decide)] at hvalue

theorem isSome_hexValue?_of_mem_decimal {n : Nat} {c : Char}
    (h : c ∈ (decimal n).toList) : (hexValue? c).isSome = true := by
  rw [toList_decimal] at h
  exact isSome_hexValue?_of_mem_toDigits (by decide) (by decide) h

theorem not_mem_decimal {n : Nat} {c : Char} (hc : hexValue? c = none) :
    c ∉ (decimal n).toList :=
  not_mem_of_isSome_hexValue? (fun _ => isSome_hexValue?_of_mem_decimal) hc

theorem decimal_ne_empty (n : Nat) : decimal n ≠ "" := by
  intro h
  have hlist := congrArg String.toList h
  rw [toList_decimal] at hlist
  exact Nat.toDigits_ne_nil hlist

/-- The sign shows which integers are negative, and the digits their magnitude. -/
theorem signed_injective {m n : Int} (h : signed m = signed n) : m = n := by
  have hsign : ∀ k l : Nat, decimal k ≠ "-" ++ decimal l := by
    intro k l hkl
    have hmem : '-' ∈ ("-" ++ decimal l).toList := by simp
    rw [← hkl] at hmem
    exact not_mem_decimal rfl hmem
  cases m with
  | ofNat k =>
      cases n with
      | ofNat l => rw [decimal_injective h]
      | negSucc l => exact absurd h (hsign k (l + 1))
  | negSucc k =>
      cases n with
      | ofNat l => exact absurd h.symm (hsign l (k + 1))
      | negSucc l =>
          have hmagnitude := decimal_injective ((String.append_right_inj "-").mp h)
          rw [Nat.succ.inj hmagnitude]

theorem not_mem_signed {n : Int} {c : Char} (hminus : c ≠ '-')
    (hc : hexValue? c = none) : c ∉ (signed n).toList := by
  cases n with
  | ofNat k => exact not_mem_decimal hc
  | negSucc k => simp [signed, hminus, not_mem_decimal hc]

/-! ### Bytes -/

theorem div_lt_of_byte (b : UInt8) : b.toNat / 16 < 16 := by
  have := b.toNat_lt
  omega

theorem value_byteDigits (b : UInt8) : value 16 (byteDigits b) = b.toNat := by
  have hmod : b.toNat % 16 < 16 := Nat.mod_lt _ (by decide)
  simp only [value, byteDigits, List.foldl_cons, List.foldl_nil,
    hexValue?_digitChar (div_lt_of_byte b), hexValue?_digitChar hmod, Option.getD_some]
  omega

theorem toList_bytes (bs : List UInt8) : (bytes bs).toList = bs.flatMap byteDigits :=
  String.toList_ofList

/-- The bytes that digits stand for, two digits for each. -/
def readBytes : List Char → List UInt8
  | high :: low :: rest => UInt8.ofNat (value 16 [high, low]) :: readBytes rest
  | _ => []

theorem readBytes_bytes (bs : List UInt8) : readBytes (bytes bs).toList = bs := by
  rw [toList_bytes]
  induction bs with
  | nil => rfl
  | cons b bs ih =>
      have hstep : readBytes (byteDigits b ++ bs.flatMap byteDigits) =
          UInt8.ofNat (value 16 (byteDigits b)) :: readBytes (bs.flatMap byteDigits) := rfl
      rw [List.flatMap_cons, hstep, value_byteDigits, UInt8.ofNat_toNat, ih]

theorem bytes_injective {bs bs' : List UInt8} (h : bytes bs = bytes bs') : bs = bs' := by
  rw [← readBytes_bytes bs, h, readBytes_bytes]

theorem isSome_hexValue?_of_mem_bytes {bs : List UInt8} {c : Char}
    (h : c ∈ (bytes bs).toList) : (hexValue? c).isSome = true := by
  rw [toList_bytes] at h
  obtain ⟨b, -, hc⟩ := List.mem_flatMap.mp h
  simp only [byteDigits, List.mem_cons, List.not_mem_nil, or_false] at hc
  rcases hc with rfl | rfl
  · rw [hexValue?_digitChar (div_lt_of_byte b)]
    rfl
  · rw [hexValue?_digitChar (Nat.mod_lt _ (by decide))]
    rfl

theorem not_mem_bytes {bs : List UInt8} {c : Char} (hc : hexValue? c = none) :
    c ∉ (bytes bs).toList :=
  not_mem_of_isSome_hexValue? (fun _ => isSome_hexValue?_of_mem_bytes) hc

/-! ### Parts and items -/

/-- A text whose second part starts where the characters of the first one end
has no other two such parts. -/
theorem append_inj_of_takeWhile {f : Char → Bool} {cs cs' rest rest' : List Char}
    (hcs : ∀ c ∈ cs, f c = true) (hcs' : ∀ c ∈ cs', f c = true)
    (hrest : rest.takeWhile f = []) (hrest' : rest'.takeWhile f = [])
    (h : cs ++ rest = cs' ++ rest') : cs = cs' ∧ rest = rest' := by
  have htake := congrArg (List.takeWhile f) h
  rw [List.takeWhile_append_of_pos hcs, List.takeWhile_append_of_pos hcs', hrest,
    hrest', List.append_nil, List.append_nil] at htake
  subst htake
  exact ⟨rfl, List.append_cancel_left h⟩

/-- A text is cut at a separator that starts with no character of the first part. -/
theorem separated_injective {f : Char → Bool} {sep s s' t t' : String} {c : Char}
    {cs : List Char} (hsep : sep.toList = c :: cs) (hc : f c = false)
    (hs : ∀ c ∈ s.toList, f c = true) (hs' : ∀ c ∈ s'.toList, f c = true)
    (h : s ++ (sep ++ t) = s' ++ (sep ++ t')) : s = s' ∧ t = t' := by
  have hrest : ∀ t : String, (sep ++ t).toList.takeWhile f = [] := by
    intro t
    rw [String.toList_append, hsep, List.cons_append,
      List.takeWhile_cons_of_neg (by simp [hc])]
  have hlist := congrArg String.toList h
  rw [String.toList_append, String.toList_append (s := s')] at hlist
  obtain ⟨hfirst, hsecond⟩ := append_inj_of_takeWhile hs hs' (hrest t) (hrest t') hlist
  exact ⟨String.toList_injective hfirst,
    (String.append_right_inj sep).mp (String.toList_injective hsecond)⟩

section Items

variable {c : Char} {sep : List Char} {xss yss : List (List Char)}

theorem intercalate_cons (sep xs : List Char) (xss : List (List Char)) :
    sep.intercalate (xs :: xss) = xs ++ xss.flatMap (sep ++ ·) := by
  induction xss generalizing xs with
  | nil => simp
  | cons ys yss ih => rw [List.intercalate_cons_cons, ih, List.flatMap_cons,
      List.append_assoc, List.append_assoc]

theorem takeWhile_flatMap_cons (c : Char) (sep : List Char) (xss : List (List Char)) :
    (xss.flatMap (c :: sep ++ ·)).takeWhile (· ≠ c) = [] := by
  cases xss <;> simp

theorem forall_mem_ne {xs : List Char} (h : c ∉ xs) :
    ∀ d ∈ xs, decide (d ≠ c) = true :=
  fun _ hd => decide_eq_true (ne_of_mem_of_not_mem hd h)

/-- Items are cut at the separators before them, whose first character they do not
hold. -/
theorem flatMap_separator_injective (hxss : ∀ xs ∈ xss, c ∉ xs)
    (hyss : ∀ ys ∈ yss, c ∉ ys)
    (h : xss.flatMap (c :: sep ++ ·) = yss.flatMap (c :: sep ++ ·)) : xss = yss := by
  induction xss generalizing yss with
  | nil =>
      cases yss with
      | nil => rfl
      | cons ys yss => simp at h
  | cons xs xss ih =>
      cases yss with
      | nil => simp at h
      | cons ys yss =>
          rw [List.forall_mem_cons] at hxss hyss
          rw [List.flatMap_cons, List.flatMap_cons, List.append_assoc, List.append_assoc,
            List.append_cancel_left_eq] at h
          obtain ⟨rfl, hrest⟩ := append_inj_of_takeWhile (forall_mem_ne hxss.1)
            (forall_mem_ne hyss.1) (takeWhile_flatMap_cons c sep xss)
            (takeWhile_flatMap_cons c sep yss) h
          rw [ih hxss.2 hyss.2 hrest]

/-- Items that are not empty are also determined when the separator stands only
between them. -/
theorem intercalate_cons_injective (hxss : ∀ xs ∈ xss, xs ≠ [] ∧ c ∉ xs)
    (hyss : ∀ ys ∈ yss, ys ≠ [] ∧ c ∉ ys)
    (h : (c :: sep).intercalate xss = (c :: sep).intercalate yss) : xss = yss := by
  cases xss with
  | nil =>
      cases yss with
      | nil => rfl
      | cons ys yss =>
          rw [intercalate_cons, List.intercalate_nil, eq_comm, List.append_eq_nil_iff] at h
          exact absurd h.1 (hyss ys List.mem_cons_self).1
  | cons xs xss =>
      cases yss with
      | nil =>
          rw [intercalate_cons, List.intercalate_nil, List.append_eq_nil_iff] at h
          exact absurd h.1 (hxss xs List.mem_cons_self).1
      | cons ys yss =>
          rw [List.forall_mem_cons] at hxss hyss
          rw [intercalate_cons, intercalate_cons] at h
          obtain ⟨rfl, hrest⟩ := append_inj_of_takeWhile (forall_mem_ne hxss.1.2)
            (forall_mem_ne hyss.1.2) (takeWhile_flatMap_cons c sep xss)
            (takeWhile_flatMap_cons c sep yss) h
          rw [flatMap_separator_injective (fun zs hzs => (hxss.2 zs hzs).2)
            (fun zs hzs => (hyss.2 zs hzs).2) hrest]

/-- Texts that are not empty and do not hold the first character of the separator
are determined by the text that joins them. -/
theorem intercalate_injective {sep : String} {cs : List Char} {ls ls' : List String}
    (hsep : sep.toList = c :: cs) (hls : ∀ l ∈ ls, l ≠ "" ∧ c ∉ l.toList)
    (hls' : ∀ l ∈ ls', l ≠ "" ∧ c ∉ l.toList)
    (h : sep.intercalate ls = sep.intercalate ls') : ls = ls' := by
  have hlist := congrArg String.toList h
  rw [String.toList_intercalate, String.toList_intercalate, hsep] at hlist
  have hitems : ∀ {ls : List String}, (∀ l ∈ ls, l ≠ "" ∧ c ∉ l.toList) →
      ∀ xs ∈ ls.map String.toList, xs ≠ [] ∧ c ∉ xs := by
    intro ls hls xs hxs
    obtain ⟨l, hl, rfl⟩ := List.mem_map.mp hxs
    exact ⟨by simpa using (hls l hl).1, (hls l hl).2⟩
  have hinj : Function.Injective String.toList := fun _ _ => String.toList_injective
  exact List.map_injective_iff.mpr hinj
    (intercalate_cons_injective (hitems hls) (hitems hls') hlist)

end Items

/-! ### Lists and records -/

theorem positions_injective {ps qs : List Nat} (h : positions ps = positions qs) :
    ps = qs := by
  have hitems : ∀ ps : List Nat, ∀ l ∈ ps.map decimal, l ≠ "" ∧ ',' ∉ l.toList := by
    intro ps l hl
    obtain ⟨p, -, rfl⟩ := List.mem_map.mp hl
    exact ⟨decimal_ne_empty p, not_mem_decimal rfl⟩
  rw [positions, positions, String.append_left_inj, String.append_right_inj] at h
  have hinj : Function.Injective decimal := fun _ _ => decimal_injective
  exact List.map_injective_iff.mpr hinj
    (intercalate_injective rfl (hitems ps) (hitems qs) h)

/-- A field that can be cut out of a record: no colon ends its name too early, and
no comma the field. -/
def Separable (field : String × String) : Prop :=
  ':' ∉ field.1.toList ∧ ',' ∉ field.1.toList ∧ ',' ∉ field.2.toList

/-- A field as records write it. -/
def fieldText (field : String × String) : String :=
  field.1 ++ ": " ++ field.2

/-- The fields as records write them after the name. -/
def fieldsText (fields : List (String × String)) : String :=
  if fields.isEmpty then ""
  else " \x7b " ++ ", ".intercalate (fields.map fieldText) ++ " \x7d"

theorem record_eq (name : String) (fields : List (String × String)) :
    record name fields = name ++ fieldsText fields := by
  have htext : fieldText = fun field => field.1 ++ ": " ++ field.2 := rfl
  unfold record fieldsText
  split
  · simp
  · simp only [htext, String.append_assoc]

theorem fieldText_injective {field field' : String × String} (h : Separable field)
    (h' : Separable field') (htext : fieldText field = fieldText field') :
    field = field' := by
  rw [fieldText, fieldText, String.append_assoc, String.append_assoc] at htext
  obtain ⟨hname, hvalue⟩ := separated_injective (f := (· ≠ ':')) rfl rfl
    (forall_mem_ne h.1) (forall_mem_ne h'.1) htext
  exact Prod.ext hname hvalue

theorem map_fieldText_injective {fields fields' : List (String × String)}
    (h : ∀ field ∈ fields, Separable field) (h' : ∀ field ∈ fields', Separable field)
    (htext : fields.map fieldText = fields'.map fieldText) : fields = fields' := by
  induction fields generalizing fields' with
  | nil => simpa using htext
  | cons field fields ih =>
      cases fields' with
      | nil => simp at htext
      | cons field' fields' =>
          rw [List.forall_mem_cons] at h h'
          rw [List.map_cons, List.map_cons, List.cons.injEq] at htext
          rw [fieldText_injective h.1 h'.1 htext.1, ih h.2 h'.2 htext.2]

theorem fieldsText_injective {fields fields' : List (String × String)}
    (h : ∀ field ∈ fields, Separable field) (h' : ∀ field ∈ fields', Separable field)
    (htext : fieldsText fields = fieldsText fields') : fields = fields' := by
  have hitems : ∀ {fields : List (String × String)},
      (∀ field ∈ fields, Separable field) →
      ∀ l ∈ fields.map fieldText, l ≠ "" ∧ ',' ∉ l.toList := by
    intro fields h l hl
    obtain ⟨field, hfield, rfl⟩ := List.mem_map.mp hl
    obtain ⟨-, hname, hvalue⟩ := h field hfield
    exact ⟨by simp [fieldText], by simp [fieldText, hname, hvalue]⟩
  unfold fieldsText at htext
  split at htext
  · rename_i hempty
    split at htext
    · rename_i hempty'
      rw [List.isEmpty_iff.mp hempty, List.isEmpty_iff.mp hempty']
    · simpa using congrArg String.toList htext
  · split at htext
    · simpa using congrArg String.toList htext
    · rw [String.append_left_inj, String.append_right_inj] at htext
      exact map_fieldText_injective h h'
        (intercalate_injective rfl (hitems h) (hitems h') htext)

/-- A record determines its name, of letters and digits, and its fields. -/
theorem record_injective {name name' : String} {fields fields' : List (String × String)}
    (hname : ∀ c ∈ name.toList, c.isAlphanum = true)
    (hname' : ∀ c ∈ name'.toList, c.isAlphanum = true)
    (hfields : ∀ field ∈ fields, Separable field)
    (hfields' : ∀ field ∈ fields', Separable field)
    (h : record name fields = record name' fields') :
    name = name' ∧ fields = fields' := by
  have hrest : ∀ fields, (fieldsText fields).toList.takeWhile Char.isAlphanum = [] := by
    intro fields
    unfold fieldsText
    split
    · rfl
    · rw [String.append_assoc, String.toList_append]
      rfl
  have hlist := congrArg String.toList h
  rw [record_eq, record_eq, String.toList_append, String.toList_append] at hlist
  obtain ⟨hfirst, hsecond⟩ :=
    append_inj_of_takeWhile hname hname' (hrest fields) (hrest fields') hlist
  exact ⟨String.toList_injective hfirst,
    fieldsText_injective hfields hfields' (String.toList_injective hsecond)⟩

end Text
end EvmCheck
