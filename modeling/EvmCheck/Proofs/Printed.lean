import EvmCheck.Proofs.Listing
import EvmCheck.Proofs.Text

/-!
# The text of a listing

A listing is printed as text, one line for each instruction.  A line starts with the
position of the instruction; a colon, a blank and the name of the opcode follow, and
then the immediate bytes, if there are any.  `printedLines` reads this back: lines
end at line feeds, a position at its colon and a name at a blank.

Nothing is lost in print.  What is read from the text of a listing is what its lines
show, and so the walk of the survey can be compared with the text itself: with the
positions for which a line is printed, and with the bytes that the lines show.

**Results.**
* `Shown.ofText_text`, `printedLines_intercalate`: lines are read back from their
  text.
* `Code.printedLines_disassemble`: and so is a listing.
* `Code.disassemble_eq_iff_shown`: listings with one text show the same.
* `Code.disassembly_cuts_like_survey`: the lines printed for a code and the
  positions at which the survey reads.
-/

namespace EvmCheck

/-- What a printed line shows of an instruction. -/
structure Shown where
  /-- Where the instruction starts. -/
  position : Nat
  /-- The name of its opcode. -/
  name : String
  /-- Its immediate bytes. -/
  data : List UInt8
  deriving DecidableEq

namespace Shown

variable {line : Shown} {c : Char}

/-- The immediate bytes as a line writes them. -/
def operandText (line : Shown) : String :=
  if line.data.isEmpty then "" else " 0x" ++ Text.bytes line.data

/-- A line as it is printed. -/
def text (line : Shown) : String :=
  Text.hexPadded 4 line.position ++ ": " ++ line.name ++ line.operandText

/-- Reads a line: the position ends at the first colon, and the name at the first
blank after it. -/
def ofText (cs : List Char) : Shown :=
  let rest := (cs.dropWhile (· ≠ ':')).drop ": ".length
  { position := Text.value 16 (cs.takeWhile (· ≠ ':'))
    name := String.ofList (rest.takeWhile (· ≠ ' '))
    data := Text.readBytes ((rest.dropWhile (· ≠ ' ')).drop " 0x".length) }

/-- The name is made of letters and digits. -/
def Plain (line : Shown) : Prop :=
  ∀ c ∈ line.name.toList, c.isAlphanum = true

theorem toList_text (line : Shown) :
    line.text.toList =
      (Text.hexPadded 4 line.position).toList ++
        (':' :: ' ' :: (line.name.toList ++ line.operandText.toList)) := by
  simp [text]

theorem Plain.not_mem_name (h : line.Plain) (hc : c.isAlphanum = false) :
    c ∉ line.name.toList := by
  intro hmem
  rw [h c hmem] at hc
  cases hc

/-- The immediate bytes, if there are any, come after a blank. -/
theorem operandText_cases (line : Shown) :
    line.operandText.toList = [] ∧ line.data = [] ∨
      line.operandText.toList = ' ' :: '0' :: 'x' :: (Text.bytes line.data).toList := by
  rw [operandText]
  split
  · rename_i hempty
    exact Or.inl ⟨rfl, List.isEmpty_iff.mp hempty⟩
  · right
    rw [String.toList_append]
    rfl

theorem readBytes_operandText (line : Shown) :
    Text.readBytes (line.operandText.toList.drop " 0x".length) = line.data := by
  rcases line.operandText_cases with ⟨htext, hdata⟩ | htext
  · rw [htext, hdata]
    rfl
  · rw [htext]
    exact Text.readBytes_bytes line.data

theorem takeWhile_operandText (line : Shown) :
    line.operandText.toList.takeWhile (· ≠ ' ') = [] ∧
      line.operandText.toList.dropWhile (· ≠ ' ') = line.operandText.toList := by
  rcases line.operandText_cases with ⟨htext, -⟩ | htext <;> simp [htext]

/-- A line is read back from its text. -/
theorem ofText_text (h : line.Plain) : ofText line.text.toList = line := by
  have hposition : ∀ c ∈ (Text.hexPadded 4 line.position).toList,
      decide (c ≠ ':') = true := Text.forall_mem_ne (Text.not_mem_hexPadded rfl)
  have hname : ∀ c ∈ line.name.toList, decide (c ≠ ' ') = true :=
    Text.forall_mem_ne (h.not_mem_name rfl)
  obtain ⟨htake, hdrop⟩ := line.takeWhile_operandText
  have hrest : (line.text.toList.dropWhile (· ≠ ':')).drop ": ".length =
      line.name.toList ++ line.operandText.toList := by
    rw [toList_text, List.dropWhile_append_of_pos hposition]
    rfl
  have hfirst : line.text.toList.takeWhile (· ≠ ':') =
      (Text.hexPadded 4 line.position).toList := by
    rw [toList_text, List.takeWhile_append_of_pos hposition]
    simp
  simp only [ofText, hrest, hfirst, Text.value_hexPadded,
    List.takeWhile_append_of_pos hname, List.dropWhile_append_of_pos hname, htake, hdrop,
    readBytes_operandText, List.append_nil, String.ofList_toList]

theorem toList_text_ne_nil (line : Shown) : line.text.toList ≠ [] := by
  rw [toList_text]
  simp

/-- A line feed is no part of a line. -/
theorem Plain.lineFeed_not_mem_text (h : line.Plain) : '\n' ∉ line.text.toList := by
  have hposition : '\n' ∉ (Text.hexPadded 4 line.position).toList :=
    Text.not_mem_hexPadded rfl
  have hname : '\n' ∉ line.name.toList := h.not_mem_name rfl
  have hdata : '\n' ∉ (Text.bytes line.data).toList := Text.not_mem_bytes rfl
  have hoperand : '\n' ∉ line.operandText.toList := by
    rcases line.operandText_cases with ⟨htext, -⟩ | htext <;> simp [htext, hdata]
  rw [toList_text]
  simp [hposition, hname, hoperand]

end Shown

/-- What the lines of a text show. -/
def printedLines (text : String) : List Shown :=
  ((text.toList.splitOn '\n').filter (· ≠ [])).map Shown.ofText

/-- A text is cut at its line feeds into the lines that it joins. -/
theorem splitOn_lineFeed (ls : List String) (hfeed : ∀ l ∈ ls, '\n' ∉ l.toList)
    (hne : ∀ l ∈ ls, l.toList ≠ []) :
    (("\n".intercalate ls).toList.splitOn '\n').filter (· ≠ []) =
      ls.map String.toList := by
  cases ls with
  | nil => rfl
  | cons l ls =>
      have hsplit : ("\n".intercalate (l :: ls)).toList.splitOn '\n' =
          (l :: ls).map String.toList := by
        rw [String.toList_intercalate]
        exact List.splitOn_intercalate '\n' (List.forall_mem_map.mpr hfeed) (by simp)
      rw [hsplit, List.filter_eq_self]
      exact List.forall_mem_map.mpr fun l hl => decide_eq_true (hne l hl)

/-- Lines are read back from the text that joins them. -/
theorem printedLines_intercalate {lines : List Shown} (h : ∀ line ∈ lines, line.Plain) :
    printedLines ("\n".intercalate (lines.map Shown.text)) = lines := by
  have hsplit := splitOn_lineFeed (lines.map Shown.text)
    (List.forall_mem_map.mpr fun line hline => (h line hline).lineFeed_not_mem_text)
    (List.forall_mem_map.mpr fun line _ => line.toList_text_ne_nil)
  rw [printedLines, hsplit, List.map_map, List.map_map]
  calc lines.map ((Shown.ofText ∘ String.toList) ∘ Shown.text)
      = lines.map id :=
        List.map_congr_left fun line hline => Shown.ofText_text (h line hline)
    _ = lines := List.map_id lines

namespace Line

variable {l l' : Line} {c : Char}

/-- What a line shows of its instruction. -/
def shown (l : Line) : Shown where
  position := l.position
  name := l.mnemonic
  data := l.data

theorem mnemonic_eq_iff :
    l.mnemonic = l'.mnemonic ↔
      l.opcode = l'.opcode ∨
        l.opcode.isDefined = false ∧ l'.opcode.isDefined = false := by
  rw [mnemonic, mnemonic, ← Opcode.mnemonic?_eq_none_iff, ← Opcode.mnemonic?_eq_none_iff]
  constructor
  · intro h
    cases hname : l.opcode.mnemonic? with
    | none =>
        cases hname' : l'.opcode.mnemonic? with
        | none => exact Or.inr ⟨rfl, rfl⟩
        | some name' =>
            rw [hname, hname'] at h
            exact absurd h.symm (Opcode.ne_undefined_of_mnemonic? hname')
    | some name =>
        cases hname' : l'.opcode.mnemonic? with
        | none =>
            rw [hname, hname'] at h
            exact absurd h (Opcode.ne_undefined_of_mnemonic? hname)
        | some name' =>
            rw [hname, hname'] at h
            obtain rfl : name = name' := h
            exact Or.inl (Opcode.mnemonic?_injective hname hname')
  · rintro (h | ⟨h, h'⟩)
    · rw [h]
    · rw [h, h']

theorem isAlphanum_of_mem_mnemonic (h : c ∈ l.mnemonic.toList) :
    c.isAlphanum = true := by
  rw [mnemonic] at h
  cases hname : l.opcode.mnemonic? with
  | none =>
      rw [hname, Option.getD_none] at h
      have hall : "UNDEFINED".toList.all Char.isAlphanum = true := by decide
      exact List.all_eq_true.mp hall c h
  | some name =>
      rw [hname, Option.getD_some] at h
      exact Opcode.isAlphanum_of_mnemonic? hname h

theorem plain_shown (l : Line) : l.shown.Plain :=
  fun _ => isAlphanum_of_mem_mnemonic

theorem render_eq_text (l : Line) : l.render = l.shown.text :=
  rfl

end Line

namespace Code

variable {code code' : Code} {line : Shown}

theorem disassemble_eq (code : Code) :
    code.disassemble = "\n".intercalate ((code.listing.map Line.shown).map Shown.text) := by
  rw [disassemble, List.map_map]
  exact congrArg _ (List.map_congr_left fun l _ => l.render_eq_text)

/-- A listing is read back from its text. -/
theorem printedLines_disassemble (code : Code) :
    printedLines code.disassemble = code.listing.map Line.shown := by
  rw [disassemble_eq]
  exact printedLines_intercalate (List.forall_mem_map.mpr fun l _ => l.plain_shown)

/-- Two listings have one text exactly when they show the same. -/
theorem disassemble_eq_iff_shown :
    code.disassemble = code'.disassemble ↔
      code.listing.map Line.shown = code'.listing.map Line.shown := by
  constructor
  · intro h
    rw [← printedLines_disassemble, h, printedLines_disassemble]
  · intro h
    rw [disassemble_eq, h, ← disassemble_eq]

/-! ### Lines printed and positions read -/

/-- The positions for which a line is printed, in order. -/
def printedPositions (code : Code) : List Nat :=
  (printedLines code.disassemble).map Shown.position

theorem printedPositions_eq_starts (code : Code) : code.printedPositions = code.starts := by
  rw [printedPositions, printedLines_disassemble, List.map_map, ← map_position_listing]
  rfl

theorem mem_printedLines_iff :
    line ∈ printedLines code.disassemble ↔ ∃ l ∈ code.listing, l.shown = line := by
  rw [printedLines_disassemble, List.mem_map]

/-- The opcodes and the immediate bytes of the lines are the code. -/
theorem flatMap_printedLines (code : Code) :
    ((printedLines code.disassemble).flatMap fun line =>
      code[line.position]?.toList ++ line.data) = code.toList := by
  rw [printedLines_disassemble, List.flatMap_map, ← flatMap_bytes_listing]
  refine List.flatMap_congr fun l hl => ?_
  simp only [Line.shown, getElem?_of_mem_listing hl]
  rfl

/-- **The disassembly cuts the code as the survey does.**  The text is made of lines,
each with the position of an instruction, the name of its opcode and its immediate
bytes.  The positions at which the survey reads an opcode are the first ones printed:
all of them when the survey comes to the end of the code, and those up to the reported
one when it stops at an instruction.  A line names the opcode at its position and shows
the immediate bytes as far as the code has them, and all lines together show the code.
For accepted code every line has the name of an opcode and all immediate bytes. -/
theorem disassembly_cuts_like_survey (code : Code) :
    code.disassemble = "\n".intercalate ((printedLines code.disassemble).map fun line =>
      Text.hexPadded 4 line.position ++ ": " ++ line.name ++
        (if line.data.isEmpty then "" else " 0x" ++ Text.bytes line.data)) ∧
    Survey.reads code <+: code.printedPositions ∧
    (code.validate.stoppedAt? = none → Survey.reads code = code.printedPositions) ∧
    (∀ p, code.validate.stoppedAt? = some p →
      p ∈ code.printedPositions ∧
      Survey.reads code = code.printedPositions.filter (· ≤ p)) ∧
    (∀ line ∈ printedLines code.disassemble, ∃ op : Opcode,
      code[line.position]? = some op ∧
      line.name = op.mnemonic?.getD "UNDEFINED" ∧
      line.data =
        (code.toList.drop (line.position + 1)).take
          (code.immediateLength line.position)) ∧
    ((printedLines code.disassemble).flatMap fun line =>
      code[line.position]?.toList ++ line.data) = code.toList ∧
    (∀ jumpdests, code.validate = .accepted jumpdests →
      ∀ line ∈ printedLines code.disassemble,
        line.name ≠ "UNDEFINED" ∧
        line.data.length = code.immediateLength line.position) := by
  rw [printedPositions_eq_starts]
  refine ⟨?text, Survey.readsFrom_isPrefix code _, ?ending, ?stopping, ?lines,
    code.flatMap_printedLines, ?accepted⟩
  case text =>
    rw [printedLines_disassemble]
    exact code.disassemble_eq
  case ending =>
    intro hnone
    rcases code.reads_cases with ⟨-, hreads⟩ | ⟨p, hstop, -, -⟩
    · exact hreads
    · rw [hnone] at hstop
      cases hstop
  case stopping =>
    intro p hsome
    rcases code.reads_cases with ⟨hstop, -⟩ | ⟨q, hstop, hq, hreads⟩
    · rw [hsome] at hstop
      cases hstop
    · rw [hsome, Option.some.injEq] at hstop
      subst hstop
      exact ⟨mem_starts_iff.mpr hq, hreads⟩
  case lines =>
    intro line hline
    obtain ⟨l, hl, rfl⟩ := mem_printedLines_iff.mp hline
    exact ⟨l.opcode, getElem?_of_mem_listing hl, rfl, data_of_mem_listing hl⟩
  case accepted =>
    intro jumpdests haccepted line hline
    obtain ⟨l, hl, rfl⟩ := mem_printedLines_iff.mp hline
    exact (validate_eq_accepted_iff.mp haccepted).line_complete hl

/-- The disassembly goes on after the undefined opcode at which the survey stops, and
both go on after the marker opcode that is data of a push. -/
theorem disassembly_past_undefined_opcode :
    (disassemble #[0x00, 0x0c, 0x00] = "0000: STOP\n0001: UNDEFINED\n0002: STOP" ∧
      printedPositions #[0x00, 0x0c, 0x00] = [0, 1, 2] ∧
      Survey.reads #[0x00, 0x0c, 0x00] = [0, 1]) ∧
    (disassemble #[0x60, 0x5b, 0x00] = "0000: PUSH1 0x5b\n0002: STOP" ∧
      printedPositions #[0x60, 0x5b, 0x00] = [0, 2] ∧
      Survey.reads #[0x60, 0x5b, 0x00] = [0, 2]) ∧
    ∀ line ∈ printedLines "0000: PUSH1 0x5b\n0002: STOP",
      line.name ≠ "UNDEFINED" ∧
      line.data.length = immediateLength #[0x60, 0x5b, 0x00] line.position := by
  have htext : disassemble #[0x00, 0x0c, 0x00] =
      "0000: STOP\n0001: UNDEFINED\n0002: STOP" := by
    decide +kernel
  have htext' : disassemble #[0x60, 0x5b, 0x00] = "0000: PUSH1 0x5b\n0002: STOP" := by
    decide +kernel
  have hpositions : printedPositions #[0x00, 0x0c, 0x00] = [0, 1, 2] := by
    rw [printedPositions, htext]
    decide +kernel
  have hpositions' : printedPositions #[0x60, 0x5b, 0x00] = [0, 2] := by
    rw [printedPositions, htext']
    decide +kernel
  have hstop : (validate #[0x00, 0x0c, 0x00]).stoppedAt? = some 1 := by decide +kernel
  have haccepted : validate #[0x60, 0x5b, 0x00] = .accepted (.empty 3) := by
    decide +kernel
  obtain ⟨-, -, -, hstopping, -⟩ := disassembly_cuts_like_survey #[0x00, 0x0c, 0x00]
  obtain ⟨-, -, hending, -, -, -, hlines⟩ :=
    disassembly_cuts_like_survey #[0x60, 0x5b, 0x00]
  refine ⟨⟨htext, hpositions, ?_⟩, ⟨htext', hpositions', ?_⟩, ?_⟩
  · rw [(hstopping 1 hstop).2, hpositions]
    rfl
  · rw [hending (by rw [haccepted]; rfl), hpositions']
  · rw [← htext']
    exact hlines _ haccepted

end Code
end EvmCheck
