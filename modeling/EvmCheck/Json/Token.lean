import EvmCheck.Text

/-!
# JSON tokens

The text of a JSON document is a sequence of tokens with blanks between them.
Only the space, the tab, the line feed and the carriage return are blanks.

Strings are read into a `TextBuffer`, which joins the two halves of a surrogate
pair; a half on its own makes the text unknown, but not the token wrong.

**Results.**
* `token?_shorter`: reading a token uses up some of the characters, so that
  `tokens?` comes to an end.
-/

namespace EvmCheck
namespace Json

/-- A token of a JSON document. -/
inductive Token
  | openArray
  | closeArray
  | openObject
  | closeObject
  | comma
  | colon
  | null
  | boolean (b : Bool)
  | integer (negative : Bool) (magnitude : Nat)
  | real
  | string (text : Option String)

/-- The characters that may stand between tokens. -/
def isBlank (c : Char) : Bool :=
  c = ' ' || c = '\t' || c = '\n' || c = '\r'

/-- The part of a string that has been read. -/
structure TextBuffer where
  /-- The characters read so far. -/
  text : String := ""
  /-- The first half of a surrogate pair whose second half must come next. -/
  pending : Option Nat := none
  /-- Whether every half so far has found its other half. -/
  paired : Bool := true

namespace TextBuffer

/-- Adds a character. -/
def char (buffer : TextBuffer) (c : Char) : TextBuffer :=
  { text := buffer.text.push c
    pending := none
    paired := buffer.paired && buffer.pending.isNone }

/-- Adds a unit that stands for itself or is half of a surrogate pair. -/
def unit (buffer : TextBuffer) (u : Nat) : TextBuffer :=
  if 0xd800 ≤ u ∧ u ≤ 0xdbff then
    { buffer with
      pending := some u
      paired := buffer.paired && buffer.pending.isNone }
  else if 0xdc00 ≤ u ∧ u ≤ 0xdfff then
    match buffer.pending with
    | some high =>
        { buffer with
          text :=
            buffer.text.push
              (Char.ofNat (0x10000 + (high - 0xd800) * 0x400 + (u - 0xdc00)))
          pending := none }
    | none => { buffer with paired := false }
  else buffer.char (Char.ofNat u)

/-- The text, if all its units spell characters. -/
def finish (buffer : TextBuffer) : Option String :=
  if buffer.paired && buffer.pending.isNone then some buffer.text else none

end TextBuffer

/-- The unit that four hexadecimal digits spell. -/
def unit? (a b c d : Char) : Option Nat :=
  match Text.hexValue? a, Text.hexValue? b, Text.hexValue? c,
    Text.hexValue? d with
  | some a, some b, some c, some d => some (((a * 16 + b) * 16 + c) * 16 + d)
  | _, _, _, _ => none

/-- The character that a backslash and a letter stand for. -/
def escape? : Char → Option Char
  | '"' => some '"'
  | '\\' => some '\\'
  | '/' => some '/'
  | 'b' => some '\x08'
  | 'f' => some '\x0c'
  | 'n' => some '\n'
  | 'r' => some '\r'
  | 't' => some '\t'
  | _ => none

/-- Reads the rest of a string, up to and including its closing quote. -/
def stringRest? (buffer : TextBuffer) :
    List Char → Option (Option String × List Char)
  | [] => none
  | '"' :: rest => some (buffer.finish, rest)
  | '\\' :: 'u' :: a :: b :: c :: d :: rest =>
      match unit? a b c d with
      | some u => stringRest? (buffer.unit u) rest
      | none => none
  | '\\' :: e :: rest =>
      match escape? e with
      | some c => stringRest? (buffer.char c) rest
      | none => none
  | c :: rest =>
      if c < ' ' then none else stringRest? (buffer.char c) rest

/-- The number that decimal digits spell. -/
def naturalOf (digits : List Char) : Nat :=
  digits.foldl (fun n c => n * 10 + (c.toNat - '0'.toNat)) 0

/-- Takes one or more digits. -/
def digits? (cs : List Char) : Option (List Char × List Char) :=
  match cs.takeWhile Char.isDigit with
  | [] => none
  | digits => some (digits, cs.dropWhile Char.isDigit)

/-- Takes the fraction of a number, if there is one. -/
def fraction? : List Char → Option (Bool × List Char)
  | '.' :: rest => (digits? rest).map fun taken => (true, taken.2)
  | rest => some (false, rest)

/-- Drops the sign of an exponent, if it has one. -/
def dropSign : List Char → List Char
  | '+' :: rest => rest
  | '-' :: rest => rest
  | rest => rest

/-- Takes the exponent of a number, if there is one. -/
def exponent? : List Char → Option (Bool × List Char)
  | 'e' :: rest => (digits? (dropSign rest)).map fun taken => (true, taken.2)
  | 'E' :: rest => (digits? (dropSign rest)).map fun taken => (true, taken.2)
  | rest => some (false, rest)

/-- Whether digits have a zero in front that they do not need. -/
def zeroLed : List Char → Bool
  | '0' :: _ :: _ => true
  | _ => false

/-- Reads a number from its first digit on. -/
def unsigned? (negative : Bool) (cs : List Char) : Option (Token × List Char) :=
  match digits? cs with
  | none => none
  | some (digits, rest) =>
      if zeroLed digits then none
      else
        match fraction? rest with
        | none => none
        | some (hasFraction, rest) =>
            match exponent? rest with
            | none => none
            | some (hasExponent, rest) =>
                if hasFraction || hasExponent then some (.real, rest)
                else some (.integer negative (naturalOf digits), rest)

/-- Reads the first token of a text that does not start with a blank. -/
def token? : List Char → Option (Token × List Char)
  | [] => none
  | '[' :: rest => some (.openArray, rest)
  | ']' :: rest => some (.closeArray, rest)
  | '\x7b' :: rest => some (.openObject, rest)
  | '\x7d' :: rest => some (.closeObject, rest)
  | ',' :: rest => some (.comma, rest)
  | ':' :: rest => some (.colon, rest)
  | 'n' :: 'u' :: 'l' :: 'l' :: rest => some (.null, rest)
  | 't' :: 'r' :: 'u' :: 'e' :: rest => some (.boolean true, rest)
  | 'f' :: 'a' :: 'l' :: 's' :: 'e' :: rest => some (.boolean false, rest)
  | '"' :: rest =>
      (stringRest? {} rest).map fun taken => (.string taken.1, taken.2)
  | '-' :: rest => unsigned? true rest
  | cs => unsigned? false cs

theorem stringRest?_shorter {buffer : TextBuffer} {cs : List Char}
    {text : Option String} {rest : List Char}
    (h : stringRest? buffer cs = some (text, rest)) :
    rest.length < cs.length := by
  fun_induction stringRest? buffer cs with
  | case1 => cases h
  | case2 buffer rest' =>
      cases h
      simp
  | case3 buffer a b c d rest' u hu ih =>
      have := ih h
      simp only [List.length_cons]
      omega
  | case4 => cases h
  | case5 buffer e rest' c hc _ ih =>
      have := ih h
      simp only [List.length_cons]
      omega
  | case6 => cases h
  | case7 => cases h
  | case8 buffer c rest' _ _ _ _ ih =>
      have := ih h
      simp only [List.length_cons]
      omega

theorem digits?_shorter {cs digits rest : List Char}
    (h : digits? cs = some (digits, rest)) : rest.length < cs.length := by
  unfold digits? at h
  split at h
  · cases h
  · rename_i hne
    cases h
    have hsplit :
        (cs.takeWhile Char.isDigit ++ cs.dropWhile Char.isDigit).length =
          cs.length := by
      rw [List.takeWhile_append_dropWhile]
    have hpos : 0 < (cs.takeWhile Char.isDigit).length :=
      List.length_pos_iff.mpr hne
    rw [List.length_append] at hsplit
    omega

theorem fraction?_le {cs rest : List Char} {found : Bool}
    (h : fraction? cs = some (found, rest)) : rest.length ≤ cs.length := by
  unfold fraction? at h
  split at h
  · obtain ⟨taken, htaken, heq⟩ := Option.map_eq_some_iff.mp h
    cases heq
    have := digits?_shorter htaken
    simp only [List.length_cons]
    omega
  · cases h
    exact Nat.le_refl _

theorem dropSign_le (cs : List Char) : (dropSign cs).length ≤ cs.length := by
  unfold dropSign
  split <;> simp

theorem exponent?_le {cs rest : List Char} {found : Bool}
    (h : exponent? cs = some (found, rest)) : rest.length ≤ cs.length := by
  unfold exponent? at h
  split at h
  · rename_i tail
    obtain ⟨taken, htaken, heq⟩ := Option.map_eq_some_iff.mp h
    cases heq
    have := digits?_shorter htaken
    have := dropSign_le tail
    simp only [List.length_cons]
    omega
  · rename_i tail
    obtain ⟨taken, htaken, heq⟩ := Option.map_eq_some_iff.mp h
    cases heq
    have := digits?_shorter htaken
    have := dropSign_le tail
    simp only [List.length_cons]
    omega
  · cases h
    exact Nat.le_refl _

theorem unsigned?_shorter {negative : Bool} {cs rest : List Char} {t : Token}
    (h : unsigned? negative cs = some (t, rest)) :
    rest.length < cs.length := by
  unfold unsigned? at h
  split at h
  · cases h
  · rename_i hdigits
    have hd := digits?_shorter hdigits
    split at h
    · cases h
    · split at h
      · cases h
      · rename_i hfraction
        have hf := fraction?_le hfraction
        split at h
        · cases h
        · rename_i hexponent
          have he := exponent?_le hexponent
          split at h
          · cases h
            omega
          · cases h
            omega

/-- Reading a token uses up some of the characters. -/
theorem token?_shorter {cs rest : List Char} {t : Token}
    (h : token? cs = some (t, rest)) : rest.length < cs.length := by
  unfold token? at h
  split at h
  case h_11 tail =>
    obtain ⟨taken, htaken, heq⟩ := Option.map_eq_some_iff.mp h
    cases heq
    have := stringRest?_shorter htaken
    simp only [List.length_cons]
    omega
  case h_12 tail =>
    have := unsigned?_shorter h
    simp only [List.length_cons]
    omega
  case h_13 =>
    exact unsigned?_shorter h
  all_goals
    cases h
    try simp only [List.length_cons]
    try omega

-- The equation is read in `decreasing_by` only.
set_option linter.unusedVariables false in
/-- Reads the tokens of a text after those already read. -/
def tokensFrom? (read : Array Token) (cs : List Char) : Option (Array Token) :=
  match cs with
  | [] => some read
  | c :: rest =>
      if isBlank c then tokensFrom? read rest
      else
        match htoken : token? (c :: rest) with
        | none => none
        | some (t, rest') => tokensFrom? (read.push t) rest'
termination_by cs.length
decreasing_by
  · simp
  · exact token?_shorter htoken

/-- The tokens of a text. -/
def tokens? (text : String) : Option (Array Token) :=
  tokensFrom? #[] text.toList

end Json
end EvmCheck
