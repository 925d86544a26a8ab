import EvmCheck.Program
import EvmCheck.Proofs.Members

/-!
# Whole runs

A run reports codes, or checks the cases of a fixture, one after the other up to the
first failure.  What it leaves behind is stated with `Yields`, which gives the text
printed and the failure of a transcript and is composed like the transcripts
themselves.

The texts are written out here, down to the line feeds: `codeText` for a code,
`headerText` and `passedText` for cases up to the first one that does not pass, and
`reportText` for a case that did not come out as expected, with each field that its
fixture may give or leave out.

A step lemma says what one code or one case yields.  From it follows what codes that
decode or cases that pass yield before the rest of a run.  The rest starts with the
first failure, which ends the run, or is empty.

**Results.**
* `Expectation.isMetBy_iff`: when an outcome is as expected.
* `Program.lines_report`: what is printed about a case with another outcome.
* `Program.reportCodes_append`, `Program.checkCasesFrom_append`: what comes before the
  first failure.
* `Program.reportCodes_cases`, `Program.checkCases_cases`: what whole lists yield.
* `Program.execute_stops_at_first_failure`: output, exit status and message of a run.
-/

namespace EvmCheck

/-- What it means that an outcome is as expected: accepted code is expected to be
valid, with the jump destinations given in ascending order if they are given at all;
rejected code is expected to be invalid, for a cause of the kind given, if one is. -/
def Expectation.Met (e : Expectation) : Outcome → Prop
  | .accepted jumpdests =>
      e.valid = true ∧ ∀ ps, e.jumpdests = some ps →
        ps.Pairwise (· < ·) ∧ ∀ p, p ∈ ps ↔ jumpdests.contains p = true
  | .rejected cause =>
      e.valid = false ∧ ∀ kind, e.error = some kind → kind = cause.kind

/-- A list of positions is the list of members exactly when it is ascending and has
the same members. -/
theorem PositionSet.eq_toList_iff {s : PositionSet} {ps : List Nat} :
    ps = s.toList ↔ ps.Pairwise (· < ·) ∧ ∀ p, p ∈ ps ↔ s.contains p = true := by
  constructor
  · rintro rfl
    exact ⟨s.pairwise_toList, s.mem_toList⟩
  · rintro ⟨hordered, hmem⟩
    exact (toList_eq_of_mem_iff hordered hmem).symm

theorem Expectation.isMetBy_iff {e : Expectation} {outcome : Outcome} :
    e.isMetBy outcome = true ↔ e.Met outcome := by
  cases outcome with
  | accepted jumpdests =>
      simp only [isMetBy, Met, Bool.and_eq_true, Option.all_eq_true, decide_eq_true_eq,
        PositionSet.eq_toList_iff]
  | rejected cause =>
      simp only [isMetBy, Met, Bool.and_eq_true, Bool.not_eq_true', Option.all_eq_true,
        decide_eq_true_eq]

/-- A case passes when its code is hexadecimal and its outcome is as expected. -/
def Case.Passes (c : Case) : Prop :=
  ∃ code, Hex.decode c.code = .ok code ∧ c.expected.Met code.validate

namespace Text

theorem lines_nil : lines [] = "" :=
  rfl

theorem lines_cons (l : String) (ls : List String) :
    lines (l :: ls) = l ++ "\n" ++ lines ls := by
  rw [lines, List.map_cons, String.join_cons]
  rfl

theorem lines_append (ls ls' : List String) : lines (ls ++ ls') = lines ls ++ lines ls' := by
  rw [lines, lines, lines, List.map_append, String.join_append]

theorem lines_singleton (l : String) : lines [l] = l ++ "\n" := by
  rw [lines_cons, lines_nil, String.append_empty]

/-- The lines about something that is given print nothing when it is not. -/
theorem lines_flatMap_toList {α : Type} (o : Option α) (f : α → List String) :
    lines (o.toList.flatMap f) = o.elim "" fun x => lines (f x) := by
  cases o with
  | none => rfl
  | some x => simp

theorem lines_map_toList {α : Type} (o : Option α) (f : α → String) :
    lines (o.toList.map f) = o.elim "" fun x => f x ++ "\n" := by
  cases o with
  | none => rfl
  | some x => exact lines_singleton (f x)

end Text

theorem Level.ofVerbosity?_eq_none_iff {verbosity : Nat} :
    Level.ofVerbosity? verbosity = none ↔ 4 < verbosity := by
  match verbosity with
  | 0 | 1 | 2 | 3 | 4 => simp [Level.ofVerbosity?]
  | n + 5 => simp [Level.ofVerbosity?]

/-- All items of a list have a property, or there is a first one that does not. -/
theorem forall_or_first {α : Type} (P : α → Prop) (xs : List α) :
    (∀ x ∈ xs, P x) ∨
      ∃ before x rest, xs = before ++ x :: rest ∧ (∀ y ∈ before, P y) ∧ ¬ P x := by
  induction xs with
  | nil => exact Or.inl (List.forall_mem_nil P)
  | cons x xs ih =>
      by_cases hx : P x
      · rcases ih with hall | ⟨before, y, rest, rfl, hbefore, hy⟩
        · exact Or.inl (List.forall_mem_cons.mpr ⟨hx, hall⟩)
        · exact Or.inr ⟨x :: before, y, rest, rfl,
            List.forall_mem_cons.mpr ⟨hx, hbefore⟩, hy⟩
      · exact Or.inr ⟨[], x, xs, rfl, List.forall_mem_nil P, hx⟩

namespace Program

open Transcript

/-- A transcript prints a text and ends with a failure, if it does. -/
structure Yields (t : Transcript) (output : String) (failure : Option Failure) :
    Prop where
  output_eq : t.output = output
  failure_eq : t.failure = failure

namespace Yields

variable {t next : Transcript} {output output' : String} {failure : Option Failure}

theorem andThen (h : Yields t output none) (h' : Yields next output' failure) :
    Yields (t.andThen next) (output ++ output') failure := by
  rw [Transcript.andThen, h.failure_eq]
  exact ⟨by rw [h.output_eq, h'.output_eq], h'.failure_eq⟩

/-- Nothing comes after a failure. -/
theorem stop {f : Failure} (h : Yields t output (some f)) :
    Yields (t.andThen next) output (some f) := by
  rw [Transcript.andThen, h.failure_eq]
  exact h

theorem printing (ls : List String) : Yields (printing ls) (Text.lines ls) none :=
  ⟨rfl, rfl⟩

theorem failing (f : Failure) : Yields (failing f) "" (some f) :=
  ⟨rfl, rfl⟩

theorem line (l : String) : Yields (Transcript.printing [l]) (l ++ "\n") none := by
  rw [← Text.lines_singleton]
  exact printing [l]

theorem printing_failing (ls : List String) (f : Failure) :
    Yields ((Transcript.printing ls).andThen (Transcript.failing f)) (Text.lines ls)
      (some f) := by
  simpa using (printing ls).andThen (failing f)

/-- The log of a validation is not part of the text printed. -/
theorem logging (v : Validation) (h : Yields next output failure) :
    Yields ((logging v).andThen next) output failure := by
  have hlog : Yields (Transcript.logging v) "" none := ⟨rfl, rfl⟩
  simpa using hlog.andThen h

end Yields

/-! ### Codes on the command line -/

/-- What is printed for a code: its digest, and its outcome in words. -/
def codeText (code : Code) : String :=
  "0x" ++ Text.hexPadded 64 code.digest.value.toNat ++ ": " ++ code.validate.describe ++ "\n"

theorem reportCodes_cons_of_error {text : String} {fault : Hex.Fault}
    (h : Hex.decode text = .error fault) (rest : List String) :
    Yields (reportCodes (text :: rest)) "" (some (.hex text fault)) := by
  rw [reportCodes, h]
  exact .failing _

theorem reportCodes_cons_of_ok {text : String} {code : Code} {rest : List String}
    {output : String} {failure : Option Failure} (h : Hex.decode text = .ok code)
    (hrest : Yields (reportCodes rest) output failure) :
    Yields (reportCodes (text :: rest)) (codeText code ++ output) failure := by
  rw [reportCodes, h]
  exact (Yields.logging _ (.line _)).andThen hrest

/-- Codes that decode are reported before the rest. -/
theorem reportCodes_append {before after : List String} {codes : List Code}
    {output : String} {failure : Option Failure}
    (h : before.map Hex.decode = codes.map .ok)
    (hafter : Yields (reportCodes after) output failure) :
    Yields (reportCodes (before ++ after)) (String.join (codes.map codeText) ++ output)
      failure := by
  induction before generalizing codes with
  | nil =>
      obtain rfl : codes = [] := by simpa using h.symm
      simpa using hafter
  | cons text before ih =>
      cases codes with
      | nil => cases h
      | cons code codes =>
          rw [List.map_cons, List.map_cons, List.cons.injEq] at h
          rw [List.map_cons, String.join_cons, String.append_assoc]
          exact reportCodes_cons_of_ok h.1 (ih h.2)

theorem exists_decoded {texts : List String}
    (h : ∀ text ∈ texts, ∃ code, Hex.decode text = .ok code) :
    ∃ codes : List Code, texts.map Hex.decode = codes.map .ok := by
  induction texts with
  | nil => exact ⟨[], rfl⟩
  | cons text texts ih =>
      rw [List.forall_mem_cons] at h
      obtain ⟨code, hcode⟩ := h.1
      obtain ⟨codes, hcodes⟩ := ih h.2
      exact ⟨code :: codes, by rw [List.map_cons, List.map_cons, hcode, hcodes]⟩

/-- What a list of codes yields: a line for each code, up to the first one that does
not decode. -/
theorem reportCodes_cases (texts : List String) :
    (∃ codes : List Code, texts.map Hex.decode = codes.map .ok ∧
      Yields (reportCodes texts) (String.join (codes.map codeText)) none) ∨
    (∃ before text rest fault, ∃ codes : List Code, texts = before ++ text :: rest ∧
      before.map Hex.decode = codes.map .ok ∧ Hex.decode text = .error fault ∧
      Yields (reportCodes texts) (String.join (codes.map codeText))
        (some (.hex text fault))) := by
  rcases forall_or_first (fun text => ∃ code, Hex.decode text = .ok code) texts with
    hall | ⟨before, text, rest, rfl, hbefore, htext⟩
  · obtain ⟨codes, hcodes⟩ := exists_decoded hall
    have hnil : Yields (reportCodes []) "" none := .printing []
    have hyields := reportCodes_append hcodes hnil
    rw [List.append_nil, String.append_empty] at hyields
    exact Or.inl ⟨codes, hcodes, hyields⟩
  · obtain ⟨codes, hcodes⟩ := exists_decoded hbefore
    cases hdecode : Hex.decode text with
    | ok code => exact absurd ⟨code, hdecode⟩ htext
    | error fault =>
        have hyields := reportCodes_append hcodes (reportCodes_cons_of_error hdecode rest)
        rw [String.append_empty] at hyields
        exact Or.inr ⟨before, text, rest, fault, codes, rfl, hcodes, hdecode, hyields⟩

/-! ### Cases of a fixture -/

section Cases

variable {index total : Nat} {c : Case}

/-- What is printed before a case, which is counted from one. -/
def headerText (index total : Nat) (c : Case) : String :=
  "Test " ++ Text.decimal (index + 1) ++ " of " ++ Text.decimal total ++ ": " ++ c.name ++
    "\n"

/-- What is printed for cases that pass, the first of which has the given index. -/
def passedText (index total : Nat) (cases : List Case) : String :=
  String.join ((cases.zipIdx index).map fun (c, i) => headerText i total c ++ "PASS\n")

/-- What is printed about a case that did not come out as expected.  Its instructions
are those of the fixture or else the disassembly, and of the expectation the kind of the
cause and the jump destinations are printed if the fixture gives them. -/
def reportText (index total : Nat) (c : Case) (code : Code) : String :=
  "Code hash: 0x" ++ Text.hexPadded 64 code.digest.value.toNat ++ "\n" ++
  "Instructions: \n" ++ c.assembly.getD code.disassemble ++ "\n\n" ++
  "Expected valid: " ++ (if c.expected.valid then "true" else "false") ++ "\n" ++
  (c.expected.error.elim "" fun kind => "Expected error: " ++ kind ++ "\n") ++
  (c.expected.jumpdests.elim "" fun ps =>
    "Expected jumpdests: [" ++ ", ".intercalate (ps.map Text.decimal) ++ "]\n") ++
  "Actual: " ++ code.validate.describe ++ "\n\n" ++
  (c.hint.elim "" fun hint => "\nHint: " ++ hint ++ "\n\n") ++
  "Progress: " ++ Text.decimal index ++ "/" ++ Text.decimal total ++ "\n\n\n"

theorem boolean_eq (b : Bool) : Text.boolean b = if b then "true" else "false" := by
  cases b <;> rfl

theorem lines_report (index total : Nat) (c : Case) (code : Code) :
    Text.lines (report index total c code code.validate) = reportText index total c code := by
  unfold reportText
  simp only [report, Text.lines_append, Text.lines_map_toList, Text.lines_flatMap_toList,
    Text.lines_cons, Text.lines_nil, boolean_eq, Text.positions, Digest.text]
  generalize code.digest.value.toNat = digest
  -- the two sides only cut the fixed words in different places
  rcases c with ⟨name, hint, assembly, text, valid, error, jumpdests⟩
  simp only [← String.toList_inj, String.toList_append, List.append_assoc]
  cases error <;> cases jumpdests <;> cases hint <;> simp

theorem checkCase_of_passes (h : c.Passes) :
    Yields (checkCase index total c) (headerText index total c ++ "PASS\n") none := by
  obtain ⟨code, hdecode, hmet⟩ := h
  have hmet' : c.expected.isMetBy code.validateLogged.outcome = true :=
    Expectation.isMetBy_iff.mpr hmet
  rw [checkCase, hdecode]
  refine (Yields.line _).andThen (.logging _ ?_)
  rw [if_pos hmet']
  exact .line "PASS"

/-- How a case fails: the text printed about it, and the failure. -/
inductive Fails (index total : Nat) (c : Case) : String → Failure → Prop
  /-- Its code is not hexadecimal. -/
  | undecodable {fault : Hex.Fault} (hdecode : Hex.decode c.code = .error fault) :
      Fails index total c (headerText index total c) (.hex c.code fault)
  /-- Its outcome is not as expected. -/
  | unexpected {code : Code} (hdecode : Hex.decode c.code = .ok code)
      (hmet : ¬ c.expected.Met code.validate) :
      Fails index total c (headerText index total c ++ reportText index total c code)
        .unexpectedOutcome

theorem exists_fails_of_not_passes (index total : Nat) (h : ¬ c.Passes) :
    ∃ text f, Fails index total c text f := by
  cases hdecode : Hex.decode c.code with
  | error fault => exact ⟨_, _, .undecodable hdecode⟩
  | ok code => exact ⟨_, _, .unexpected hdecode fun hmet => h ⟨code, hdecode, hmet⟩⟩

theorem checkCase_of_fails {text : String} {f : Failure} (h : Fails index total c text f) :
    Yields (checkCase index total c) text (some f) := by
  cases h with
  | @undecodable fault hdecode =>
      rw [checkCase, hdecode]
      have hyields := (Yields.line (header index total c)).andThen (.failing (.hex c.code fault))
      rw [String.append_empty] at hyields
      exact hyields
  | @unexpected code hdecode hmet =>
      have hmet' : ¬ c.expected.isMetBy code.validateLogged.outcome = true :=
        fun hmet' => hmet (Expectation.isMetBy_iff.mp hmet')
      rw [checkCase, hdecode, ← lines_report]
      refine (Yields.line _).andThen (.logging _ ?_)
      rw [if_neg hmet']
      exact .printing_failing _ _

/-- Cases that pass are reported before the rest. -/
theorem checkCasesFrom_append {before after : List Case} {output : String}
    {failure : Option Failure} (h : ∀ c ∈ before, c.Passes)
    (hafter : Yields (checkCasesFrom (index + before.length) total after) output failure) :
    Yields (checkCasesFrom index total (before ++ after))
      (passedText index total before ++ output) failure := by
  induction before generalizing index with
  | nil => simpa [passedText] using hafter
  | cons c before ih =>
      rw [List.forall_mem_cons] at h
      rw [List.length_cons, Nat.add_comm before.length, ← Nat.add_assoc] at hafter
      rw [passedText, List.zipIdx_cons, List.map_cons, String.join_cons, String.append_assoc]
      exact (checkCase_of_passes h.1).andThen (ih h.2 hafter)

/-- What the cases of a fixture yield: the text for those before the first one that
does not pass, and then what is printed about this one or, if all pass, their
number. -/
theorem checkCases_cases (cases : List Case) :
    ((∀ c ∈ cases, c.Passes) ∧
      Yields (checkCases cases)
        (passedText 0 cases.length cases ++
          ("All " ++ Text.decimal cases.length ++ " cases passed\n")) none) ∨
    (∃ before c rest text f, cases = before ++ c :: rest ∧ (∀ c' ∈ before, c'.Passes) ∧
      Fails before.length cases.length c text f ∧
      Yields (checkCases cases) (passedText 0 cases.length before ++ text) (some f)) := by
  unfold checkCases
  generalize cases.length = total
  rcases forall_or_first Case.Passes cases with
    hall | ⟨before, c, rest, rfl, hbefore, hc⟩
  · have hend : Yields (checkCasesFrom (0 + cases.length) total [])
        ("All " ++ Text.decimal total ++ " cases passed\n") none := by
      have htext : "All " ++ Text.decimal total ++ " cases passed" ++ "\n" =
          "All " ++ Text.decimal total ++ " cases passed\n" := String.append_assoc
      rw [← htext]
      exact .line _
    have hyields := checkCasesFrom_append hall hend
    rw [List.append_nil] at hyields
    exact Or.inl ⟨hall, hyields⟩
  · obtain ⟨text, f, hfails⟩ := exists_fails_of_not_passes before.length total hc
    have hyields : Yields (checkCasesFrom (0 + before.length) total (c :: rest)) text
        (some f) := by
      rw [Nat.zero_add, checkCasesFrom]
      exact (checkCase_of_fails hfails).stop
    exact Or.inr ⟨before, c, rest, text, f, rfl, hbefore, hfails,
      checkCasesFrom_append hbefore hyields⟩

end Cases

/-! ### Runs -/

/-- The program ends with a status, a text printed and a message. -/
def Ending.EndsWith (e : Ending) (status : Nat) (output message : String) : Prop :=
  e.status = status ∧ e.output = output ∧ e.message = message

section Runs

variable {read : String → Option ByteArray} {argv : List String} {args : Arguments}
  {output : String} {failure : Option Failure}

/-- How the program ends after some work. -/
theorem execute_of_yields (hparse : Arguments.parse argv = .ok args)
    (hverbosity : args.verbosity ≤ 4) (h : Yields (work read args) output failure) :
    (execute read argv).EndsWith (if failure.isSome then 1 else 0) output
      ((failure.map Failure.message).getD "") := by
  obtain ⟨limit, hlimit⟩ : ∃ limit, Level.ofVerbosity? args.verbosity = some limit := by
    rw [← Option.ne_none_iff_exists', Ne, Level.ofVerbosity?_eq_none_iff]
    omega
  simp only [Ending.EndsWith, execute, hparse, run, hlimit, h.output_eq, h.failure_eq,
    and_self]

theorem fileToRead?_of_codes (h : args.codes ≠ []) : fileToRead? args = none := by
  simp [fileToRead?, h]

theorem work_of_codes (read : String → Option ByteArray) (h : args.codes ≠ []) :
    work read args = reportCodes args.codes := by
  rw [work, fileToRead?_of_codes h]

theorem work_of_cases {contents : ByteArray} {text : String} {cases : List Case}
    (hcodes : args.codes = [])
    (hread : read (args.fixture.getD defaultFixture) = some contents)
    (htext : String.fromUTF8? contents = some text)
    (hcases : Case.ofText? text = some cases) : work read args = checkCases cases := by
  have hfile : fileToRead? args = some (args.fixture.getD defaultFixture) := by
    simp [fileToRead?, hcodes]
  simp only [work, hfile, checkFixture, hread, Option.bind_some, htext, hcases]

/-- The work itself never fails for the verbosity. -/
theorem failure_work_ne_verbosity (read : String → Option ByteArray) (args : Arguments) :
    (work read args).failure ≠ some .verbosity := by
  unfold work
  split
  · unfold checkFixture
    split
    · simp [failing]
    · split
      · simp [failing]
      · rename_i cases _
        rcases checkCases_cases cases with
          ⟨-, hyields⟩ | ⟨before, c, rest, text, f, -, -, hfails, hyields⟩
        · simp [hyields.failure_eq]
        · rw [hyields.failure_eq]
          cases hfails <;> simp
  · rcases reportCodes_cases args.codes with
      ⟨codes, -, hyields⟩ | ⟨before, text, rest, fault, codes, -, -, -, hyields⟩
    · simp [hyields.failure_eq]
    · simp [hyields.failure_eq]

/-- No other message starts like the one about the verbosity. -/
theorem eq_verbosity_of_message {f : Failure} (h : f.message = Failure.verbosity.message) :
    f = .verbosity := by
  have hfirst : f.message.toList.head? = some 'D' := by
    rw [h]
    rfl
  unfold Failure.message at hfirst
  cases f with
  | verbosity => rfl
  | hex text fault =>
      change ("invalid hex " ++ text ++ ": " ++ fault.reason).toList.head? = _ at hfirst
      simp at hfirst
  | unreadable path => simp at hfirst
  | unparsable path => simp at hfirst
  | unexpectedOutcome => simp at hfirst

/-- A run fails for its verbosity exactly when this is above four. -/
theorem verbosity_failure_iff (read : String → Option ByteArray)
    (hparse : Arguments.parse argv = .ok args) :
    (execute read argv).status = 1 ∧
        (execute read argv).message = "Don't be crazy with verbose" ↔
      4 < args.verbosity := by
  constructor
  · rintro ⟨-, hmessage⟩
    by_contra hle
    obtain ⟨-, -, hwork⟩ := execute_of_yields hparse (Nat.le_of_not_lt hle)
      (⟨rfl, rfl⟩ : Yields (work read args) _ _)
    rw [hmessage] at hwork
    cases hfailure : (work read args).failure with
    | none =>
        rw [hfailure] at hwork
        simp at hwork
    | some f =>
        rw [hfailure] at hwork
        have hf := eq_verbosity_of_message hwork.symm
        rw [hf] at hfailure
        exact failure_work_ne_verbosity read args hfailure
  · intro hlt
    have hnone := Level.ofVerbosity?_eq_none_iff.mpr hlt
    simp only [execute, hparse, run, hnone]
    exact ⟨rfl, rfl⟩

/-- **A run stops at the first failure and reports exactly what came before.**  With
codes on the command line it reads no file and prints a line for each code up to the
first one that does not decode; this one gives the message, and otherwise the run
succeeds.  With a fixture it prints the header of each case and `PASS` up to the first
case that does not pass.  Of this one it prints the header, when its code does not
decode, or the header and the report, when its outcome is not as expected; if there is
none, the number of cases is printed last and the run succeeds. -/
theorem execute_stops_at_first_failure (read : String → Option ByteArray)
    (hparse : Arguments.parse argv = .ok args) (hverbosity : args.verbosity ≤ 4) :
    (args.codes ≠ [] →
      (fileToRead? args = none ∧ ∀ read', execute read' argv = execute read argv) ∧
      ((∃ codes : List Code, args.codes.map Hex.decode = codes.map .ok ∧
        (execute read argv).EndsWith 0 (String.join (codes.map codeText)) "") ∨
      (∃ before text rest fault, ∃ codes : List Code,
        args.codes = before ++ text :: rest ∧ before.map Hex.decode = codes.map .ok ∧
        Hex.decode text = .error fault ∧
        (execute read argv).EndsWith 1 (String.join (codes.map codeText))
          (fault.message text)))) ∧
    (∀ contents text cases, args.codes = [] →
      read (args.fixture.getD "./validate.json") = some contents →
      String.fromUTF8? contents = some text → Case.ofText? text = some cases →
      ((∀ c ∈ cases, c.Passes) ∧
        (execute read argv).EndsWith 0
          (passedText 0 cases.length cases ++
            ("All " ++ Text.decimal cases.length ++ " cases passed\n")) "") ∨
      (∃ before c rest, cases = before ++ c :: rest ∧ (∀ c' ∈ before, c'.Passes) ∧
        ((∃ fault, Hex.decode c.code = .error fault ∧
          (execute read argv).EndsWith 1
            (passedText 0 cases.length before ++ headerText before.length cases.length c)
            (fault.message c.code)) ∨
        (∃ code, Hex.decode c.code = .ok code ∧ ¬ c.expected.Met code.validate ∧
          (execute read argv).EndsWith 1
            (passedText 0 cases.length before ++
              (headerText before.length cases.length c ++
                reportText before.length cases.length c code))
            "Test failed")))) := by
  constructor
  · intro hcodes
    refine ⟨⟨fileToRead?_of_codes hcodes, ?unread⟩, ?reported⟩
    case unread =>
      intro read'
      simp only [execute, hparse, run, work_of_codes _ hcodes]
    case reported =>
      rcases reportCodes_cases args.codes with
        ⟨codes, hdecode, hyields⟩ |
        ⟨before, text, rest, fault, codes, heq, hdecode, hfault, hyields⟩
      · rw [← work_of_codes read hcodes] at hyields
        exact Or.inl ⟨codes, hdecode, execute_of_yields hparse hverbosity hyields⟩
      · rw [← work_of_codes read hcodes] at hyields
        exact Or.inr ⟨before, text, rest, fault, codes, heq, hdecode, hfault,
          execute_of_yields hparse hverbosity hyields⟩
  · intro contents text cases hcodes hread htext hcases
    have hwork := work_of_cases hcodes hread htext hcases
    rcases checkCases_cases cases with
      ⟨hall, hyields⟩ | ⟨before, c, rest, printed, f, heq, hbefore, hfails, hyields⟩
    · rw [← hwork] at hyields
      exact Or.inl ⟨hall, execute_of_yields hparse hverbosity hyields⟩
    · rw [← hwork] at hyields
      refine Or.inr ⟨before, c, rest, heq, hbefore, ?_⟩
      cases hfails with
      | undecodable hdecode =>
          exact Or.inl ⟨_, hdecode, execute_of_yields hparse hverbosity hyields⟩
      | unexpected hdecode hmet =>
          exact Or.inr ⟨_, hdecode, hmet, execute_of_yields hparse hverbosity hyields⟩

/-- Four runs.  Of two codes the first is rejected and the second ends in the middle of
a byte, and so does the code of the only case of a fixture; one fixture passes, and of
another one the second case, in which everything but the instructions is given, does
not. -/
theorem execute_prints :
    (execute (fun _ => none) ["--code", "0x0c", "--code=0"]).EndsWith 1
      ("0x4de0e96b0a8886e42a2c35b57df8a9d58a93b5bff655bc37a30e2ab8e29dc066" ++
        ": invalid (UndefinedOpcode): undefined opcode 0x0c at 0x0\n")
      "invalid hex 0: Odd number of digits" ∧
    (execute (fun _ => some "[[\"a\", null, [null, \"0\"], [true, null, null]]]".toUTF8)
      ["-v"]).EndsWith 1 "Test 1 of 1: a\n" "invalid hex 0: Odd number of digits" ∧
    (execute (fun _ => some "[[\"a\", null, [null, \"0x00\"], [true, null, []]]]".toUTF8)
      []).EndsWith 0 "Test 1 of 1: a\nPASS\nAll 1 cases passed\n" "" ∧
    (execute (fun _ => some ("[[\"a\", null, [null, \"0x00\"], [true, null, []]], " ++
        "[\"b\", \"look\", [null, \"0x00\"], [false, \"UndefinedOpcode\", [1, 2]]]]").toUTF8)
      []).EndsWith 1
      ("Test 1 of 2: a\nPASS\nTest 2 of 2: b\n" ++
        "Code hash: 0xbc36789e7a1e281436464229828f817d6612f7b477d66591ff96a9e064bcc98a\n" ++
        "Instructions: \n0000: STOP\n\n" ++
        "Expected valid: false\n" ++
        "Expected error: UndefinedOpcode\n" ++
        "Expected jumpdests: [1, 2]\n" ++
        "Actual: valid, jumpdests []\n\n" ++
        "\nHint: look\n\n" ++
        "Progress: 1/2\n\n\n") "Test failed" := by
  have hodd : Hex.decode "0" = .error .oddLength := rfl
  have hstop : Hex.decode "0x00" = .ok #[0x00] := by decide +kernel
  have hpasses : ∀ {p : Hex.Fault → Prop} {q : Code → Prop},
      ¬ ((∃ fault, Hex.decode "0x00" = .error fault ∧ p fault) ∨
        ∃ code, Hex.decode "0x00" = .ok code ∧
          ¬ Expectation.Met ⟨true, none, some []⟩ code.validate ∧ q code) := by
    rintro p q (⟨fault, hfault, -⟩ | ⟨code, hcode, hnot, -⟩)
    · rw [hstop] at hfault
      cases hfault
    · rw [hstop] at hcode
      cases hcode
      exact hnot (Expectation.isMetBy_iff.mp (by decide +kernel))
  have hunexpected : ¬ Expectation.Met ⟨false, some "UndefinedOpcode", some [1, 2]⟩
      (Code.validate #[0x00]) := by
    rw [← Expectation.isMetBy_iff]
    decide +kernel
  have hempty : Arguments.parse [] = .ok {} := rfl
  refine ⟨?codes, ?undecodable, ?passing, ?unexpected⟩
  case codes =>
    have hparse : Arguments.parse ["--code", "0x0c", "--code=0"] =
        .ok { codes := ["0x0c", "0"] } := rfl
    have hdecode : Hex.decode "0x0c" = .ok #[0x0c] := by decide +kernel
    have hdigest : (Code.digest #[0x0c]).value.toNat =
        0x4de0e96b0a8886e42a2c35b57df8a9d58a93b5bff655bc37a30e2ab8e29dc066 := by
      decide +kernel
    rcases ((execute_stops_at_first_failure (fun _ => none) hparse (Nat.zero_le 4)).1
      (List.cons_ne_nil _ _)).2 with
      ⟨codes, hcodes, -⟩ | ⟨before, text, rest, fault, codes, heq, hcodes, hfault, hends⟩
    · have hok : Hex.decode "0" ∈ codes.map Except.ok := hcodes ▸ by simp
      simp [hodd] at hok
    · rcases before with _ | ⟨first, _ | ⟨second, before⟩⟩
      · obtain rfl : "0x0c" = text := (List.cons.inj heq).1
        rw [hdecode] at hfault
        cases hfault
      · obtain ⟨rfl, rfl, rfl⟩ : "0x0c" = first ∧ "0" = text ∧ rest = [] := by
          simpa using heq
        rw [hodd] at hfault
        cases hfault
        obtain rfl : codes = [#[0x0c]] := by
          rw [List.map_singleton, hdecode] at hcodes
          simpa [eq_comm] using hcodes
        refine ⟨hends.1, hends.2.1.trans ?_, hends.2.2⟩
        rw [List.map_singleton]
        unfold codeText
        rw [hdigest]
        decide +kernel
      · simp at heq
  case undecodable =>
    have hparse : Arguments.parse ["-v"] = .ok { verbosity := 1 } := rfl
    generalize htext : "[[\"a\", null, [null, \"0\"], [true, null, null]]]" = text
    have hcases : Case.ofText? text =
        some [⟨"a", none, none, "0", ⟨true, none, none⟩⟩] := by
      rw [← htext]
      decide +kernel
    rcases (execute_stops_at_first_failure (fun _ => some text.toUTF8) hparse
      (by simp)).2 _ text _ rfl rfl (dif_pos text.isValidUTF8) hcases with
      ⟨hall, -⟩ | ⟨before, c, rest, heq, -, hfirst⟩
    · obtain ⟨code, hcode, -⟩ := hall _ (List.mem_singleton_self _)
      rw [hodd] at hcode
      cases hcode
    · obtain ⟨rfl, rfl, rfl⟩ : before = [] ∧ c = ⟨"a", none, none, "0", ⟨true, none, none⟩⟩ ∧
          rest = [] := by
        cases before <;> simp_all
      rcases hfirst with ⟨fault, hfault, hends⟩ | ⟨code, hcode, -⟩
      · rw [hodd] at hfault
        cases hfault
        exact hends
      · rw [hodd] at hcode
        cases hcode
  case passing =>
    generalize htext : "[[\"a\", null, [null, \"0x00\"], [true, null, []]]]" = text
    have hcases : Case.ofText? text =
        some [⟨"a", none, none, "0x00", ⟨true, none, some []⟩⟩] := by
      rw [← htext]
      decide +kernel
    rcases (execute_stops_at_first_failure (fun _ => some text.toUTF8) hempty
      (Nat.zero_le 4)).2 _ text _ rfl rfl (dif_pos text.isValidUTF8) hcases with
      ⟨-, hends⟩ | ⟨before, c, rest, heq, -, hfirst⟩
    · exact hends
    · obtain ⟨rfl, rfl, rfl⟩ : before = [] ∧
          c = ⟨"a", none, none, "0x00", ⟨true, none, some []⟩⟩ ∧ rest = [] := by
        cases before <;> simp_all
      exact absurd hfirst hpasses
  case unexpected =>
    generalize htext : "[[\"a\", null, [null, \"0x00\"], [true, null, []]], " ++
        "[\"b\", \"look\", [null, \"0x00\"], [false, \"UndefinedOpcode\", [1, 2]]]]" = text
    have hcases : Case.ofText? text = some [
        ⟨"a", none, none, "0x00", ⟨true, none, some []⟩⟩,
        ⟨"b", some "look", none, "0x00", ⟨false, some "UndefinedOpcode", some [1, 2]⟩⟩] := by
      rw [← htext]
      decide +kernel
    have hdigest : (Code.digest #[0x00]).value.toNat =
        0xbc36789e7a1e281436464229828f817d6612f7b477d66591ff96a9e064bcc98a := by
      decide +kernel
    rcases (execute_stops_at_first_failure (fun _ => some text.toUTF8) hempty
      (Nat.zero_le 4)).2 _ text _ rfl rfl (dif_pos text.isValidUTF8) hcases with
      ⟨hall, -⟩ | ⟨before, c, rest, heq, -, hfirst⟩
    · obtain ⟨code, hcode, hmet⟩ := hall _ (List.mem_cons_of_mem _ (List.mem_singleton_self _))
      rw [hstop] at hcode
      cases hcode
      exact absurd hmet hunexpected
    · rcases before with _ | ⟨first, _ | ⟨second, before⟩⟩
      · obtain ⟨rfl, -⟩ := List.cons.inj heq
        exact absurd hfirst hpasses
      · obtain ⟨rfl, hrest⟩ := List.cons.inj heq
        obtain ⟨rfl, rfl⟩ := List.cons.inj hrest
        rcases hfirst with ⟨fault, hfault, -⟩ | ⟨code, hcode, -, hends⟩
        · rw [hstop] at hfault
          cases hfault
        · rw [hstop] at hcode
          cases hcode
          refine ⟨hends.1, hends.2.1.trans ?_, hends.2.2⟩
          unfold reportText
          rw [hdigest]
          decide +kernel
      · simp at heq

end Runs

end Program
end EvmCheck
