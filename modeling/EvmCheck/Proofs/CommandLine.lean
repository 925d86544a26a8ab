import EvmCheck.Proofs.Runs
import Mathlib.Algebra.GroupWithZero.Nat

/-!
# Command lines

A command line is put together from pieces, in any order and number: groups of flags,
flags with a name, codes in either spelling, and a file name, which may also come last
after two dashes.  Each piece carries the proof that its text cannot be taken for
something else.

Reading the text of a piece adds what the piece asks for (`read_piece`), so reading
all pieces adds up everything they ask for (`read_pieces`).  The count of verbosity
stops at 255 and does not start again from zero, so that too high a verbosity is
noticed whatever it is.

**Results.**
* `Arguments.Reading.read_piece`, `Arguments.Reading.read_pieces`: one piece, and all.
* `Arguments.CommandLine.parse_render`: the arguments that a command line asks for.
* `Program.verbosity_failure_iff`: when the verbosity ends a run.
* `Program.command_line_recovered`: both for every command line.
-/

namespace EvmCheck
namespace Arguments

/-- A text that is no option: it starts with no dash, or is a dash alone. -/
def IsPlain (text : String) : Prop :=
  text.toList.head? ≠ some '-' ∨ text = "-"

/-- A part of a command line. -/
inductive Piece
  /-- One dash and `n` letters for verbosity. -/
  | group (n : Nat) (hn : 1 ≤ n)
  /-- The flag for verbosity with its name. -/
  | verbose
  /-- A code after an equals sign. -/
  | assigned (code : String)
  /-- A code as an argument of its own. -/
  | separate (code : String) (hcode : IsPlain code)
  /-- A file name. -/
  | file (name : String) (hne : name ≠ "") (hname : IsPlain name)

namespace Piece

/-- The arguments of a piece. -/
def render : Piece → List String
  | group n _ => [String.ofList ('-' :: List.replicate n 'v')]
  | verbose => ["--verbose"]
  | assigned code => ["--code=" ++ code]
  | separate code _ => ["--code", code]
  | file name _ _ => [name]

/-- How often a piece asks for more logging. -/
def loudness : Piece → Nat
  | group n _ => n
  | verbose => 1
  | _ => 0

/-- The code that a piece gives. -/
def code? : Piece → Option String
  | assigned code => some code
  | separate code _ => some code
  | _ => none

/-- The file that a piece names. -/
def file? : Piece → Option String
  | file name _ _ => some name
  | _ => none

end Piece

/-- A command line: pieces, and perhaps a file name after two dashes.  At most one
file is named, and its name is not empty. -/
structure CommandLine where
  /-- The pieces, in order. -/
  pieces : List Piece
  /-- The file name after two dashes. -/
  last : Option String
  last_ne : ∀ name ∈ last, name ≠ ""
  files_le : (pieces.filterMap Piece.file? ++ last.toList).length ≤ 1

namespace CommandLine

/-- The arguments of a command line. -/
def render (line : CommandLine) : List String :=
  line.pieces.flatMap Piece.render ++ (line.last.toList.flatMap fun name => ["--", name])

/-- How often a command line asks for more logging. -/
def loudness (line : CommandLine) : Nat :=
  (line.pieces.map Piece.loudness).sum

/-- The codes of a command line, in order. -/
def codes (line : CommandLine) : List String :=
  line.pieces.filterMap Piece.code?

/-- The file that a command line names. -/
def file? (line : CommandLine) : Option String :=
  (line.pieces.filterMap Piece.file? ++ line.last.toList).head?

end CommandLine

/-- What is asked for together with more pieces. -/
def extend (a : Arguments) (pieces : List Piece) : Arguments where
  verbosity := min 255 (a.verbosity + (pieces.map Piece.loudness).sum)
  codes := a.codes ++ pieces.filterMap Piece.code?
  fixture := (a.fixture.toList ++ pieces.filterMap Piece.file?).head?

/-! ### Forms of arguments -/

theorem form_group {n : Nat} (h : 1 ≤ n) :
    form (String.ofList ('-' :: List.replicate n 'v')) =
      .short (List.replicate n 'v') := by
  obtain ⟨n, rfl⟩ := Nat.exists_eq_add_of_le' h
  simp [form, List.replicate_succ]

theorem form_assigned (code : String) :
    form ("--code=" ++ code) = .long "code" (some code) := by
  simp [form, namePart, valuePart]

theorem form_of_isPlain {text : String} (h : IsPlain text) : form text = .plain := by
  rcases h with h | rfl
  · unfold form
    split <;> simp_all
  · rfl

/-! ### Reading -/

theorem Piece.file?_ne_empty {piece : Piece} {name : String} (h : piece.file? = some name) :
    name ≠ "" := by
  cases piece with
  | file name' hne _ =>
      cases h
      exact hne
  | _ => cases h

namespace Reading

/-- Arguments that more pieces can be read after: the file name, if there is one, is
not empty, and the count of verbosity has not passed its end. -/
structure Ready (a : Arguments) : Prop where
  fixture_ne : a.fixture ≠ some ""
  verbosity_le : a.verbosity ≤ 255

variable {a : Arguments}

theorem settle_of_ready (h : Ready a) (namesOnly : Bool) :
    settle { arguments := a, namesOnly := namesOnly } =
      .ok { arguments := a, namesOnly := namesOnly } := by
  simp [settle, h.fixture_ne]

theorem foldlM_append_of_ok {xs ys : List String} {r r' : Reading}
    (h : xs.foldlM read r = .ok r') : (xs ++ ys).foldlM read r = ys.foldlM read r' := by
  rw [List.foldlM_append, h]
  rfl

theorem foldlM_singleton_of_ok {x : String} {r r' : Reading} (h : r.read x = .ok r') :
    [x].foldlM read r = .ok r' := by
  rw [List.foldlM_cons, h]
  rfl

/-- Each letter of a group counts, until the count stops. -/
theorem foldlM_letter (h : Ready a) (n : Nat) :
    (List.replicate n 'v').foldlM letter { arguments := a } =
      .ok { arguments := { a with verbosity := min 255 (a.verbosity + n) } } := by
  induction n generalizing a with
  | zero => simp [Nat.min_eq_right h.verbosity_le, pure, Except.pure]
  | succ n ih =>
      have hready : Ready { a with verbosity := min 255 (a.verbosity + 1) } :=
        ⟨h.fixture_ne, Nat.min_le_left _ _⟩
      have hletter : letter { arguments := a } 'v' =
          .ok { arguments := { a with verbosity := min 255 (a.verbosity + 1) } } := by
        rw [letter, verboseFlag, settle_of_ready h]
        rfl
      have hcount : min 255 (min 255 (a.verbosity + 1) + n) =
          min 255 (a.verbosity + (n + 1)) := by
        omega
      rw [List.replicate_succ, List.foldlM_cons, hletter]
      exact (ih hready).trans (by rw [hcount])

/-- Reading a file name when there is none yet. -/
theorem fileName_of_none (h : a.fixture = none) (namesOnly : Bool) (name : String) :
    fileName { arguments := a, namesOnly := namesOnly } name =
      .ok { arguments := { a with fixture := some name }, namesOnly := namesOnly } := by
  simp [fileName, settle, h]

/-- Reading the arguments of a piece adds what it asks for. -/
theorem read_piece (h : Ready a) (piece : Piece)
    (hfile : (a.fixture.toList ++ [piece].filterMap Piece.file?).length ≤ 1) :
    piece.render.foldlM read { arguments := a } =
      .ok { arguments := a.extend [piece] } := by
  have hverbosity : min 255 a.verbosity = a.verbosity := Nat.min_eq_right h.verbosity_le
  cases piece with
  | group n hn =>
      have hextend : a.extend [.group n hn] =
          { a with verbosity := min 255 (a.verbosity + n) } := by
        simp [extend, Piece.loudness, Piece.code?, Piece.file?]
      rw [hextend]
      apply foldlM_singleton_of_ok
      simp only [read, form_group hn]
      exact foldlM_letter h n
  | verbose =>
      have hextend : a.extend [.verbose] =
          { a with verbosity := min 255 (a.verbosity + 1) } := by
        simp [extend, Piece.loudness, Piece.code?, Piece.file?]
      have hform : form "--verbose" = .long "verbose" none := rfl
      rw [hextend]
      apply foldlM_singleton_of_ok
      simp only [read, hform, option, verboseFlag, settle_of_ready h]
      rfl
  | assigned code =>
      have hextend : a.extend [.assigned code] = { a with codes := a.codes ++ [code] } := by
        simp [extend, Piece.loudness, Piece.code?, Piece.file?, hverbosity]
      rw [hextend]
      apply foldlM_singleton_of_ok
      simp only [read, form_assigned, option, settle_of_ready h]
      rfl
  | separate code hcode =>
      have hextend : a.extend [.separate code hcode] =
          { a with codes := a.codes ++ [code] } := by
        simp [extend, Piece.loudness, Piece.code?, Piece.file?, hverbosity]
      have hform : form "--code" = .long "code" none := rfl
      -- the name of the option leaves it waiting for the value that follows
      have hname : ["--code"].foldlM read { arguments := a } =
          .ok { arguments := a, awaitingCode := true } := by
        apply foldlM_singleton_of_ok
        simp only [read, hform, option, settle_of_ready h]
        rfl
      rw [hextend, Piece.render, ← List.singleton_append, foldlM_append_of_ok hname]
      apply foldlM_singleton_of_ok
      simp only [read, form_of_isPlain hcode]
      rfl
  | file name hne hname =>
      have hnone : a.fixture = none := by
        simpa [Piece.file?] using hfile
      have hextend : a.extend [.file name hne hname] = { a with fixture := some name } := by
        simp [extend, Piece.loudness, Piece.code?, Piece.file?, hverbosity, hnone]
      rw [hextend]
      apply foldlM_singleton_of_ok
      simp only [read, form_of_isPlain hname]
      exact fileName_of_none hnone false name

theorem extend_nil (h : Ready a) : a.extend [] = a := by
  simp [extend, Nat.min_eq_right h.verbosity_le]

theorem head?_toList_append (xs ys : List String) :
    (xs.head?.toList ++ ys).head? = (xs ++ ys).head? := by
  cases xs <;> rfl

theorem extend_append (a : Arguments) (pieces pieces' : List Piece) :
    (a.extend pieces).extend pieces' = a.extend (pieces ++ pieces') := by
  have hcount : ∀ m n : Nat, min 255 (min 255 (a.verbosity + m) + n) =
      min 255 (a.verbosity + (m + n)) := by
    omega
  simp only [extend, List.map_append, List.sum_append, List.filterMap_append, hcount,
    head?_toList_append, List.append_assoc]

theorem length_fixture_extend (a : Arguments) (pieces : List Piece) :
    (a.extend pieces).fixture.toList.length ≤
      (a.fixture.toList ++ pieces.filterMap Piece.file?).length := by
  rw [extend]
  cases a.fixture.toList ++ pieces.filterMap Piece.file? <;> simp

theorem ready_extend (h : Ready a) (pieces : List Piece) : Ready (a.extend pieces) := by
  refine ⟨?_, Nat.min_le_left _ _⟩
  intro hempty
  rcases List.mem_append.mp (List.mem_of_mem_head? hempty) with hmem | hmem
  · exact h.fixture_ne (Option.mem_toList.mp hmem)
  · obtain ⟨piece, -, hpiece⟩ := List.mem_filterMap.mp hmem
    exact Piece.file?_ne_empty hpiece rfl

/-- Reading the arguments of pieces adds all that they ask for. -/
theorem read_pieces (h : Ready a) (pieces : List Piece)
    (hfiles : (a.fixture.toList ++ pieces.filterMap Piece.file?).length ≤ 1) :
    (pieces.flatMap Piece.render).foldlM read { arguments := a } =
      .ok { arguments := a.extend pieces } := by
  induction pieces generalizing a with
  | nil =>
      rw [extend_nil h]
      rfl
  | cons piece pieces ih =>
      rw [← List.singleton_append, List.filterMap_append, ← List.append_assoc,
        List.length_append] at hfiles
      have hfixture := length_fixture_extend a [piece]
      have hrest := ih (ready_extend h [piece]) (by rw [List.length_append]; omega)
      rw [extend_append] at hrest
      rw [List.flatMap_cons, foldlM_append_of_ok (read_piece h piece (by omega))]
      exact hrest

/-- Reading a file name after two dashes, if there is one. -/
theorem read_last (a : Arguments) (last : Option String)
    (hlast : (a.fixture.toList ++ last.toList).length ≤ 1) :
    ∃ namesOnly,
      (last.toList.flatMap fun name => ["--", name]).foldlM read { arguments := a } =
        .ok { arguments := { a with fixture := (a.fixture.toList ++ last.toList).head? }
              namesOnly := namesOnly } := by
  cases last with
  | none => exact ⟨false, by simp [pure, Except.pure]⟩
  | some name =>
      have hnone : a.fixture = none := by
        simpa using hlast
      have hdashes : ["--"].foldlM read { arguments := a } =
          .ok { arguments := a, namesOnly := true } := rfl
      refine ⟨true, (foldlM_append_of_ok hdashes).trans (foldlM_singleton_of_ok ?_)⟩
      rw [read, if_pos rfl, fileName_of_none hnone true name, hnone]
      rfl

end Reading

namespace CommandLine

/-- What a command line asks for. -/
def arguments (line : CommandLine) : Arguments where
  verbosity := min 255 line.loudness
  codes := line.codes
  fixture := line.file?

theorem ready_arguments (line : CommandLine) : Reading.Ready line.arguments := by
  refine ⟨?_, Nat.min_le_left _ _⟩
  intro hempty
  rcases List.mem_append.mp (List.mem_of_mem_head? hempty) with hmem | hmem
  · obtain ⟨piece, -, hpiece⟩ := List.mem_filterMap.mp hmem
    exact Piece.file?_ne_empty hpiece rfl
  · exact line.last_ne "" (Option.mem_toList.mp hmem) rfl

/-- What the pieces ask for, with the file name after two dashes, if there is one. -/
theorem arguments_eq (line : CommandLine) :
    line.arguments =
      { extend {} line.pieces with
        fixture := ((extend {} line.pieces).fixture.toList ++ line.last.toList).head? } := by
  simp only [extend, Reading.head?_toList_append]
  simp [arguments, loudness, codes, file?]

/-- All arguments of a command line are read. -/
theorem read_render (line : CommandLine) :
    ∃ namesOnly, line.render.foldlM Reading.read {} =
      .ok { arguments := line.arguments, namesOnly := namesOnly } := by
  have hready : Reading.Ready {} := ⟨nofun, Nat.zero_le 255⟩
  have hle := line.files_le
  rw [List.length_append] at hle
  have hpieces := Reading.read_pieces hready line.pieces (Nat.le_of_add_right_le hle)
  have hfixture := Reading.length_fixture_extend {} line.pieces
  obtain ⟨namesOnly, hlast⟩ := Reading.read_last (extend {} line.pieces) line.last (by
    rw [List.length_append]
    exact Nat.le_trans (Nat.add_le_add_right hfixture _) hle)
  rw [← arguments_eq] at hlast
  exact ⟨namesOnly, (Reading.foldlM_append_of_ok hpieces).trans hlast⟩

/-- A command line is read as what it asks for. -/
theorem parse_render (line : CommandLine) : parse line.render = .ok line.arguments := by
  obtain ⟨namesOnly, hread⟩ := line.read_render
  rw [parse, hread]
  dsimp only
  rw [Reading.settle_of_ready line.ready_arguments]
  rfl

end CommandLine
end Arguments

namespace Program

/-- **Reading a command line recovers what it asks for.**  From pieces in any order
and number come the count of all wishes for more logging, which stops at 255, the
codes in their order, and the file, if one is named.  The run fails for its verbosity
exactly when the wishes are more than four, however many they are. -/
theorem command_line_recovered (line : Arguments.CommandLine)
    (read : String → Option ByteArray) :
    Arguments.parse line.render =
      .ok { verbosity := min 255 line.loudness
            codes := line.codes
            fixture := line.file? } ∧
    ((execute read line.render).status = 1 ∧
        (execute read line.render).message = "Don't be crazy with verbose" ↔
      4 < line.loudness) := by
  have hcount : 4 < min 255 line.loudness ↔ 4 < line.loudness := by
    omega
  exact ⟨line.parse_render, (verbosity_failure_iff read line.parse_render).trans hcount⟩

/-- More letters than the count can hold, codes that look like options, and a file
name after two dashes. -/
theorem three_hundred_letters_recovered :
    Arguments.parse [String.ofList ('-' :: List.replicate 300 'v'), "--code=--x",
      "--verbose", "--code", "-", "--", "-f"] =
      .ok { verbosity := 255, codes := ["--x", "-"], fixture := some "-f" } :=
  (command_line_recovered
    { pieces := [.group 300 (by simp), .assigned "--x", .verbose, .separate "-" (.inr rfl)]
      last := some "-f"
      last_ne := by simp
      files_le := by simp [Arguments.Piece.file?] } fun _ => none).1

end Program
end EvmCheck
