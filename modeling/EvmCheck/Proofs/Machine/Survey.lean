import EvmCheck.Proofs.Machine.Bitmap
import EvmCheck.Proofs.Machine.Reading
import EvmCheck.Proofs.Verdict

/-!
# The survey on machine words

Here the survey is written as a machine carries it out: positions are words of 64
bits, targets are computed with the wraparound of the machine, the three sets are
a bitmap and two arrays of flags, and every operation that may have no result is
one of those with a `Fault`.

For code that fits the signed words of the machine no operation fails, and the
result is that of the survey on numbers and sets.

**Results.**
* `visit_of_next`, `visit_of_halt`: one instruction.
* `run_eq`: the rest of the survey from a state on.
* `validate_eq`: validation on machine words.
-/

namespace EvmCheck
namespace Machine

/-- The state of a survey in memory. -/
structure Scan where
  jumpdests : Bitmap
  immediates : Array Bool
  targets : Array Bool
  events : Array Event

namespace Scan

/-- The state before the first instruction. -/
def start (code : Code) : Scan where
  jumpdests := .clear (length code)
  immediates := Array.replicate code.size false
  targets := Array.replicate code.size false
  events := #[]

/-- Records the targets of the offsets written at `entries`, which count from
`base`, for the instruction at `p`, and goes on to `base`. -/
def follow (code : Code) (p base : UInt64) :
    Scan → List UInt64 → Checked (Scan × Except Rejection UInt64)
  | m, [] => return (m, .ok base)
  | m, entry :: entries => do
      let relative ← relativeOffset code entry
      match target? (length code) base relative with
      | some target => do
          let targets ← write m.targets target true
          let event := Event.jumpResolved p.toNat target.toNat
          follow code p base { m with targets, events := m.events.push event } entries
      | none => do
          let target ← addInt base.toInt64 relative.toInt64
          return (m, .error (.jumpTargetOutOfBounds p.toNat target.toInt))

/-- Reads the operand that starts at `first` and finds the position after it. -/
def readOperand (code : Code) (m : Scan) (p first : UInt64) (op : Opcode) :
    Checked (Scan × Except Rejection UInt64) := do
  match ← pushWidth? op with
  | some width => do
      let next ← add first width
      return (m, .ok next)
  | none =>
      if op = .rjump ∨ op = .rjumpi then do
        let next ← add first 2
        if length code < next then return (m, .error (.truncatedImmediate p.toNat op))
        else m.follow code p next [first]
      else if op = .rjumpv then do
        let entry ← add first 1
        if length code < entry then return (m, .error (.truncatedImmediate p.toNat op))
        else do
          let entries ← tableSize code first
          if entries = 0 then return (m, .error (.emptyJumpTable p.toNat))
          else do
            let next ← add first (← tableLength entries)
            if length code < next then return (m, .error (.truncatedImmediate p.toNat op))
            else m.follow code p next (everySecond entry next)
      else return (m, .ok first)

/-- Reads the instruction with opcode `op` at `p`. -/
def step (code : Code) (m : Scan) (p : UInt64) (op : Opcode) :
    Checked (Scan × Except Rejection UInt64) := do
  let first ← add p 1
  match ← m.readOperand code p first op with
  | (m, .error cause) => return (m, .error cause)
  | (m, .ok next) => do
      let immediates ← fill m.immediates first (min next (length code)) true
      return ({ m with immediates }, .ok next)

/-- Marks `p` as a jump destination if the kind of its opcode says so. -/
def mark (m : Scan) (p : UInt64) (kind : Opcode.Kind) : Checked Scan :=
  if kind = .marker then do
    let jumpdests ← m.jumpdests.set p
    return { m with jumpdests }
  else return m

/-- Reads the instruction at `p`, and says whether it is terminal. -/
def visit (code : Code) (m : Scan) (p : UInt64) :
    Checked (Scan × Except Rejection (Bool × UInt64)) := do
  let op ← read code p
  let kind ← kindOf op
  if kind = .undefined then return (m, .error (.undefinedOpcode p.toNat op))
  else do
    let m ← m.mark p kind
    match ← m.step code p op with
    | (m, .error cause) => return (m, .error cause)
    | (m, .ok next) => return (m, .ok (kind = .terminal, next))

/-- The outcome at the end of the code. -/
def outcome (m : Scan) (terminated : Bool) : Except Rejection Bitmap :=
  if terminated then
    match (m.targets.zip m.immediates).findIdx? (fun both => both.1 && both.2) with
    | some target => .error (.jumpIntoImmediateData target)
    | none => .ok m.jumpdests
  else .error .missingTerminator

theorem step_advances {code : Code} {m m' : Scan} {p next : UInt64} {op : Opcode}
    (h : m.step code p op = .ok (m', .ok next)) : p.toNat < next.toNat := by
  obtain ⟨first, hfirst, h⟩ := bind_eq_ok_iff.mp h
  obtain ⟨⟨m'', result⟩, -, h⟩ := bind_eq_ok_iff.mp h
  have hlt : first.toNat = p.toNat + 1 := toNat_of_add_eq_ok hfirst
  cases result with
  | error cause => cases h
  | ok next' =>
      obtain ⟨immediates, hfill, h⟩ := bind_eq_ok_iff.mp h
      cases h
      have hle := UInt64.le_iff_toNat_le.mp (le_of_fill_eq_ok hfill)
      have hmin : (min next (length code)).toNat ≤ next.toNat :=
        UInt64.le_iff_toNat_le.mp (Std.min_le_left)
      omega

theorem visit_advances {code : Code} {m m' : Scan} {p next : UInt64} {terminated : Bool}
    (h : m.visit code p = .ok (m', .ok (terminated, next))) : p.toNat < next.toNat := by
  obtain ⟨op, -, h⟩ := bind_eq_ok_iff.mp h
  obtain ⟨kind, -, h⟩ := bind_eq_ok_iff.mp h
  split at h
  · cases h
  · obtain ⟨marked, -, h⟩ := bind_eq_ok_iff.mp h
    obtain ⟨⟨m'', result⟩, hstep, h⟩ := bind_eq_ok_iff.mp h
    cases result with
    | error cause => cases h
    | ok next' =>
        cases h
        exact step_advances hstep

-- The equation is read in `decreasing_by` only.
set_option linter.unusedVariables false in
/-- Surveys the code from `p` on. -/
def run (code : Code) (m : Scan) (terminated : Bool) (p : UInt64) :
    Checked (Except Rejection Bitmap × Array Event) :=
  if hp : p < length code then
    match hvisit : m.visit code p with
    | .error fault => .error fault
    | .ok (m', .error cause) => .ok (.error cause, m'.events)
    | .ok (m', .ok (terminated', next)) => run code m' terminated' next
  else .ok (m.outcome terminated, m.events)
termination_by (length code).toNat - p.toNat
decreasing_by
  have := visit_advances hvisit
  have := UInt64.lt_iff_toNat_lt.mp hp
  omega

end Scan

/-- Validates code and gives the events that this logs. -/
def validate (code : Code) : Checked (Except Rejection Bitmap × Array Event) := do
  let (outcome, events) ← (Scan.start code).run code false 0
  match outcome with
  | .ok jumpdests => do
      let count ← jumpdests.count
      return (outcome, events.push (.accepted (length code).toNat count.toNat))
  | .error cause =>
      return (outcome, events.push (.rejected (length code).toNat cause))

/-! ### One instruction -/

/-- The finding as the result of an operation: the position after it, or why the
survey stops. -/
def resultOf (found : Finding) : Except Rejection UInt64 :=
  match found.fault with
  | some cause => .error cause
  | none => .ok (word found.next)

/-- The state with more targets of the instruction at `p`; `old` are those that it
has already. -/
def Scan.record (m : Scan) (old : PositionSet) (p : Nat) (targets : List Nat) : Scan where
  jumpdests := m.jumpdests
  immediates := m.immediates
  targets := (old.insertAll targets).flags
  events := m.events ++ (targets.map (Event.jumpResolved p)).toArray

section Instruction

variable {code : Code} {p : Nat} {op : Opcode} {m : Scan} {old : PositionSet}
  (hsize : code.size ≤ sizeLimit) (hp : p < code.size)
  (hold : old.size = code.size) (hm : m.targets = old.flags)

theorem record_nil (hm : m.targets = old.flags) : m.record old p [] = m := by
  cases m
  simp only at hm
  simp [Scan.record, PositionSet.insertAll, hm]

theorem record_cons (t : Nat) (ts : List Nat) :
    Scan.record { m with
        targets := (old.insert t).flags
        events := m.events.push (.jumpResolved p t) } (old.insert t) p ts =
      m.record old p (t :: ts) := by
  simp [Scan.record, PositionSet.insertAll]

include hsize hp hold hm

theorem follow_eq {base q n : Nat} {offsets : List Int} (hbase : base ≤ code.size)
    (hread : code.relativeOffsets? q n = some offsets) :
    m.follow code (word p) (word base) ((List.range n).map fun i => word (q + 2 * i)) =
      .ok (m.record old p (Survey.resolve code.size base offsets).1,
        resultOf (Survey.jumps code.size p base offsets)) := by
  have hword := add_lt_size_of_le hsize
  induction n generalizing q offsets m old with
  | zero =>
      cases hread
      simp only [Survey.resolve, record_nil hm]
      rfl
  | succ n ih =>
      unfold Code.relativeOffsets? at hread
      split at hread
      · rename_i offset rest hoffset hrest
        cases hread
        obtain ⟨relative, hrelative, rfl⟩ := relativeOffset_word (by omega) hoffset
        -- the entries after the first are those of a table two bytes further on
        rw [map_word_range_succ]
        simp only [Scan.follow, hrelative, ok_bind, length, target?_eq hsize hbase]
        by_cases hin : 0 ≤ (base : Int) + relative.toInt ∧
            (base : Int) + relative.toInt < code.size
        · have hlt : ((base : Int) + relative.toInt).toNat < old.size := by omega
          rw [if_pos hin]
          simp only [hm, write_flags (show old.size < UInt64.size by omega) hlt, ok_bind,
            toNat_word (show p < UInt64.size by omega),
            toNat_word (show ((base : Int) + relative.toInt).toNat < UInt64.size by omega)]
          rw [ih (by rw [old.size_insert, hold]) rfl hrest, record_cons]
          simp only [Survey.resolve, Survey.jumps, if_pos hin]
          rfl
        · -- the sum that is reported is computed apart from the one that was tested
          obtain ⟨sum, hsum, hvalue⟩ := addInt_word (Nat.le_trans hbase hsize) relative
          rw [if_neg hin]
          simp only [hsum, ok_bind, Survey.resolve, Survey.jumps, if_neg hin, record_nil hm,
            resultOf, hvalue, toNat_word (show p < UInt64.size by omega), Option.map_some]
          rfl
      · cases hread

theorem readOperand_of_offset (hkind : op.kind ≠ .undefined) (hoffset : op.operand = .offset) :
    m.readOperand code (word p) (word (p + 1)) op =
      .ok (m.record old p (Survey.examine code p op).targets,
        resultOf (Survey.examine code p op)) := by
  have hword := add_lt_size_of_le hsize
  have hnext : add (word (p + 1)) 2 = .ok (word (p + 3)) := add_word (n := 2) (by omega)
  have hcut : length code < word (p + 3) ↔ code.size < p + 3 :=
    word_lt_word_iff (by omega) (by omega)
  have hwidth : pushWidth? op = .ok none := pushWidth?_of_ne_data (by simp [hoffset])
  simp only [Scan.readOperand, hwidth, ok_bind,
    if_pos (Opcode.operand_eq_offset_iff.mp hoffset), hnext, Survey.examine, if_neg hkind,
    hoffset]
  by_cases hlt : code.size < p + 3
  · rw [if_pos (hcut.mpr hlt), Code.relativeOffset?_of_lt hlt]
    simp only [Survey.stop, record_nil hm, toNat_word (show p < UInt64.size by omega)]
    rfl
  · have hle : p + 1 + 2 ≤ code.size := Nat.le_of_not_lt hlt
    obtain ⟨offset, hread⟩ := Code.relativeOffset?_of_le hle
    have hreads : code.relativeOffsets? (p + 1) 1 = some [offset] := by
      simp only [Code.relativeOffsets?, hread]
    rw [if_neg (mt hcut.mp hlt), hread]
    exact follow_eq hsize hp hold hm (by omega) hreads

theorem readOperand_of_table (hkind : op.kind ≠ .undefined) (htable : op.operand = .table) :
    m.readOperand code (word p) (word (p + 1)) op =
      .ok (m.record old p (Survey.examine code p op).targets,
        resultOf (Survey.examine code p op)) := by
  have hword := add_lt_size_of_le hsize
  have hp' : (word p).toNat = p := toNat_word (by omega)
  have hentry : add (word (p + 1)) 1 = .ok (word (p + 2)) := add_word (n := 1) (by omega)
  have hcut : length code < word (p + 2) ↔ code.size < p + 2 :=
    word_lt_word_iff (by omega) (by omega)
  have hjump : ¬ (op = .rjump ∨ op = .rjumpi) := by
    simp [← Opcode.operand_eq_offset_iff, htable]
  have hwidth : pushWidth? op = .ok none := pushWidth?_of_ne_data (by simp [htable])
  simp only [Scan.readOperand, hwidth, ok_bind, if_neg hjump,
    if_pos (Opcode.operand_eq_table_iff.mp htable), hentry, Survey.examine, if_neg hkind,
    htable]
  by_cases hlt : code.size < p + 2
  · rw [if_pos (hcut.mpr hlt), Code.tableSize?_of_lt hlt]
    simp only [Survey.stop, record_nil hm, hp']
    rfl
  · have hcount := Code.tableSize?_of_le (Nat.le_of_not_lt hlt)
    have hbyte : code.entryCount p < 256 := tableSize?_lt hcount
    rw [if_neg (mt hcut.mp hlt), tableSize_word (by omega) hcount, hcount]
    have hzero : word (code.entryCount p) = 0 ↔ code.entryCount p = 0 := by
      rw [← UInt64.toNat_inj, toNat_word (by omega)]
      rfl
    generalize code.entryCount p = n at hbyte hzero
    cases n with
    | zero =>
        simp only [ok_bind, if_pos (hzero.mpr rfl), Survey.stop, record_nil hm, hp']
        rfl
    | succ n =>
        have hnext : add (word (p + 1)) (word (Code.tableLength (n + 1))) =
            .ok (word (p + 2 + 2 * (n + 1))) := by
          rw [add_word (by unfold Code.tableLength; omega)]
          congr 2
          unfold Code.tableLength
          omega
        have hcut' : length code < word (p + 2 + 2 * (n + 1)) ↔
            code.size < p + 2 + 2 * (n + 1) :=
          word_lt_word_iff (by omega) (by omega)
        simp only [ok_bind, if_neg (mt hzero.mp (Nat.succ_ne_zero n)),
          tableLength_word hbyte, hnext]
        by_cases hlt' : code.size < p + 2 + 2 * (n + 1)
        · rw [if_pos (hcut'.mpr hlt'), Code.relativeOffsets?_of_lt (Nat.succ_pos n) hlt']
          simp only [Survey.stop, record_nil hm, hp']
          rfl
        · have hreads := Code.relativeOffsets?_of_le (Nat.le_of_not_lt hlt')
          rw [if_neg (mt hcut'.mp hlt'), everySecond_word (by omega), hreads]
          exact follow_eq hsize hp hold hm (by omega) hreads

/-- Reading the operand of a defined opcode gives what the survey finds. -/
theorem readOperand_eq (hkind : op.kind ≠ .undefined) :
    m.readOperand code (word p) (word (p + 1)) op =
      .ok (m.record old p (Survey.examine code p op).targets,
        resultOf (Survey.examine code p op)) := by
  have hword := add_lt_size_of_le hsize
  cases hoperand : op.operand with
  | none =>
      obtain ⟨-, hrjump, hrjumpi, htable⟩ := Opcode.operand_eq_none_iff.mp hoperand
      have hwidth : pushWidth? op = .ok none := pushWidth?_of_ne_data (by simp [hoperand])
      simp only [Scan.readOperand, hwidth, ok_bind, hrjump, hrjumpi, htable, or_self,
        if_false, Survey.examine, if_neg hkind, hoperand, record_nil hm]
      rfl
  | data width =>
      obtain ⟨-, -, hwidth⟩ := Opcode.operand_eq_data_iff.mp hoperand
      have hnext : add (word (p + 1)) (word width) = .ok (word (p + 1 + width)) :=
        add_word (by omega)
      simp only [Scan.readOperand, pushWidth?_of_data hoperand, ok_bind, hnext,
        Survey.examine, if_neg hkind, hoperand, record_nil hm]
      rfl
  | offset =>
      exact readOperand_of_offset hsize hp hold hm hkind hoperand
  | table =>
      exact readOperand_of_table hsize hp hold hm hkind hoperand

end Instruction

/-! ### The whole survey -/

section Whole

variable {code : Code} {p : Nat} {op : Opcode} {s s' : Survey}

/-- A state of the survey in memory. -/
def Scan.ofSurvey (s : Survey) : Scan where
  jumpdests := s.jumpdests.packed
  immediates := s.immediates.flags
  targets := s.targets.flags
  events := s.events

/-- The sets are those for the code, and its position is a word. -/
structure Fits (code : Code) (s : Survey) : Prop where
  position_le : s.position ≤ code.size + 512
  size_jumpdests : s.jumpdests.size = code.size
  size_immediates : s.immediates.size = code.size
  size_targets : s.targets.size = code.size

theorem fits_start (code : Code) : Fits code (Survey.start code) where
  position_le := Nat.zero_le _
  size_jumpdests := rfl
  size_immediates := rfl
  size_targets := rfl

theorem Fits.step (h : Fits code s) (hop : code[s.position]? = some op)
    (hstep : s.step code op = .next s') : Fits code s' := by
  obtain ⟨-, rfl⟩ := Survey.step_eq_next hop hstep
  refine ⟨?_, ?_, ?_, ?_⟩
  · have hlt : s.position < code.size := (Array.getElem?_eq_some_iff.mp hop).1
    have hle := immediateLength_le hop
    simp only [Survey.advance, Code.next]
    omega
  · simp only [Survey.advance]
    split
    · rw [PositionSet.size_insert, h.size_jumpdests]
    · exact h.size_jumpdests
  · rw [Survey.advance, PositionSet.size_insertRange, h.size_immediates]
  · rw [Survey.advance, PositionSet.size_insertAll, h.size_targets]

variable (hsize : code.size ≤ sizeLimit) (h : Fits code s)
  (hop : code[s.position]? = some op)
include hsize h hop

theorem mark_ofSurvey :
    (Scan.ofSurvey s).mark (word s.position) op.kind =
      .ok { Scan.ofSurvey s with
        jumpdests := (if op.isMarker then s.jumpdests.insert s.position
          else s.jumpdests).packed } := by
  have hlt : s.position < code.size := (Array.getElem?_eq_some_iff.mp hop).1
  have hword := add_lt_size_of_le hsize
  have hset : s.jumpdests.size < UInt64.size := by
    rw [h.size_jumpdests]
    omega
  unfold Scan.mark
  by_cases hmarker : op.kind = .marker
  · simp only [Opcode.isMarker, hmarker, decide_true, if_true, Scan.ofSurvey,
      set_packed hset (h.size_jumpdests ▸ hlt), ok_bind]
    rfl
  · simp only [Opcode.isMarker, hmarker, decide_false]
    rfl

theorem step_marked (hkind : op.kind ≠ .undefined) (jumpdests : Bitmap) :
    Scan.step code { Scan.ofSurvey s with jumpdests } (word s.position) op = do
      let found := Survey.examine code s.position op
      let m := Scan.record { Scan.ofSurvey s with jumpdests } s.targets s.position found.targets
      match found.fault with
      | some cause => return (m, .error cause)
      | none =>
          let immediates := s.immediates.insertRange (s.position + 1) (min found.next code.size)
          return ({ m with immediates := immediates.flags }, .ok (word found.next)) := by
  have hlt : s.position < code.size := (Array.getElem?_eq_some_iff.mp hop).1
  have hword := add_lt_size_of_le hsize
  have hfirst : add (word s.position) 1 = .ok (word (s.position + 1)) :=
    add_word (n := 1) (by omega)
  simp only [Scan.step, hfirst, ok_bind,
    readOperand_eq (m := { Scan.ofSurvey s with jumpdests }) hsize hlt h.size_targets rfl hkind,
    resultOf]
  cases hfault : (Survey.examine code s.position op).fault with
  | some cause => rfl
  | none =>
      -- the end of the slice is cut off, its start is not: it is never after the end
      have hnext := Survey.lt_next_examine code s.position op
      have hle : (Survey.examine code s.position op).next ≤ code.size + 512 := by
        have := immediateLength_le hop
        rw [Survey.examine_of_sound hop (Survey.fault_examine hop ▸ hfault)]
        simp only [Code.next]
        omega
      generalize (Survey.examine code s.position op).next = next at hnext hle
      have hmin : min (word next) (length code) = word (min next code.size) :=
        word_min (by omega) (by omega)
      have hfill : fill s.immediates.flags (word (s.position + 1))
          (word (min next code.size)) true =
          .ok (s.immediates.insertRange (s.position + 1) (min next code.size)).flags :=
        fill_flags (by rw [h.size_immediates]; omega) (by omega)
          (by rw [h.size_immediates]; omega)
      simp only [Scan.record, Scan.ofSurvey, hmin, hfill, ok_bind]

theorem visit_of_halt {cause : Rejection} {events : Array Event}
    (hstep : s.step code op = .halt cause events) :
    ∃ m, (Scan.ofSurvey s).visit code (word s.position) = .ok (m, .error cause) ∧
      m.events = events := by
  have hlt : s.position < code.size := (Array.getElem?_eq_some_iff.mp hop).1
  have hword := add_lt_size_of_le hsize
  simp only [Scan.visit, read_word (show s.position < UInt64.size by omega) hop, ok_bind,
    kindOf_eq]
  by_cases hkind : op.kind = .undefined
  · simp only [Survey.step, Survey.examine, if_pos hkind, Survey.stop, Survey.logging,
      Survey.Step.halt.injEq, List.map_nil] at hstep
    obtain ⟨rfl, rfl⟩ := hstep
    refine ⟨Scan.ofSurvey s, ?_, (Array.append_empty).symm⟩
    rw [if_pos hkind, toNat_word (by omega)]
    rfl
  · simp only [if_neg hkind, mark_ofSurvey hsize h hop, ok_bind,
      step_marked hsize h hop hkind]
    cases hfault : (Survey.examine code s.position op).fault with
    | some cause' =>
        simp only [Survey.step, hfault, Survey.Step.halt.injEq] at hstep
        obtain ⟨rfl, rfl⟩ := hstep
        exact ⟨_, rfl, rfl⟩
    | none =>
        simp [Survey.step, hfault] at hstep

theorem visit_of_next (hstep : s.step code op = .next s') :
    (Scan.ofSurvey s).visit code (word s.position) =
      .ok (.ofSurvey s', .ok (s'.terminated, word s'.position)) := by
  have hlt : s.position < code.size := (Array.getElem?_eq_some_iff.mp hop).1
  have hword := add_lt_size_of_le hsize
  cases hfault : (Survey.examine code s.position op).fault with
  | some cause =>
      simp [Survey.step, hfault] at hstep
  | none =>
      simp only [Survey.step, hfault, Survey.Step.next.injEq] at hstep
      subst hstep
      have hkind : op.kind ≠ .undefined := by
        intro hkind
        simp [Survey.examine, if_pos hkind, Survey.stop] at hfault
      simp only [Scan.visit, read_word (show s.position < UInt64.size by omega) hop, ok_bind,
        kindOf_eq, if_neg hkind, mark_ofSurvey hsize h hop, step_marked hsize h hop hkind,
        hfault]
      rfl

end Whole

/-! ### The outcome -/

/-- The outcome with the accepted set in memory. -/
def packOutcome : Outcome → Except Rejection Bitmap
  | .accepted jumpdests => .ok jumpdests.packed
  | .rejected cause => .error cause

section Run

variable {code : Code} {s : Survey}

theorem outcome_ofSurvey (h : Fits code s) :
    (Scan.ofSurvey s).outcome s.terminated = packOutcome s.outcome := by
  have hsizes : s.immediates.size = s.targets.size :=
    h.size_immediates.trans h.size_targets.symm
  simp only [Scan.outcome, Scan.ofSurvey, findIdx?_zip_flags hsizes, Survey.outcome]
  cases s.terminated with
  | false => rfl
  | true =>
      cases s.targets.toList.find? s.immediates.contains with
      | some target => rfl
      | none => rfl

theorem run_of_le {m : Scan} {terminated : Bool} {p : UInt64} (hp : ¬ p < length code) :
    m.run code terminated p = .ok (m.outcome terminated, m.events) := by
  rw [Scan.run, dif_neg hp]

theorem run_of_lt {m : Scan} {terminated : Bool} {p : UInt64} (hp : p < length code) :
    m.run code terminated p = (m.visit code p >>= fun
      | (m', .error cause) => .ok (.error cause, m'.events)
      | (m', .ok (terminated', next)) => m'.run code terminated' next) := by
  rw [Scan.run, dif_pos hp]
  split
  · rename_i hvisit
    rw [hvisit]
    rfl
  · rename_i hvisit
    rw [hvisit]
    rfl
  · rename_i hvisit
    rw [hvisit]
    rfl

theorem Fits.word_position_lt_iff (hsize : code.size ≤ sizeLimit)
    (h : Fits code s) : word s.position < length code ↔ s.position < code.size := by
  have hword := add_lt_size_of_le hsize
  exact word_lt_word_iff (Nat.lt_of_le_of_lt h.position_le hword) (by omega)

/-- From a state of the survey on, the machine comes to the same end. -/
theorem run_eq (hsize : code.size ≤ sizeLimit) (h : Fits code s) :
    (Scan.ofSurvey s).run code s.terminated (word s.position) =
      .ok (packOutcome (Survey.complete code s).outcome,
        (Survey.complete code s).events) := by
  have hin := h.word_position_lt_iff hsize
  induction hp : s.position using Code.walk_induction code generalizing s with
  | done p hle =>
      subst hp
      rw [run_of_le (mt hin.mp (Nat.not_lt.mpr hle)), outcome_ofSurvey h,
        Survey.complete_eq, Array.getElem?_eq_none hle]
      rfl
  | step p hlt ih =>
      subst hp
      have hop : code[s.position]? = some code[s.position] :=
        Array.getElem?_eq_getElem hlt
      rw [run_of_lt (hin.mpr hlt), Survey.complete_eq, hop]
      cases hstep : s.step code code[s.position] with
      | halt cause events =>
          obtain ⟨m, hvisit, rfl⟩ := visit_of_halt hsize h hop hstep
          simp only [hvisit, ok_bind, hstep, packOutcome]
      | next s' =>
          have hs' : Fits code s' := h.step hop hstep
          have hposition : s'.position = code.next s.position := by
            obtain ⟨-, rfl⟩ := Survey.step_eq_next hop hstep
            rfl
          have hrest := ih hs' (hs'.word_position_lt_iff hsize) hposition
          rw [← hposition] at hrest
          simp only [visit_of_next hsize h hop hstep, ok_bind, hstep]
          exact hrest

/-- Validation on machine words does not fail, and gives outcome and log. -/
theorem validate_eq (hsize : code.size ≤ sizeLimit) :
    validate code =
      .ok (packOutcome code.validate, code.validateLogged.events) := by
  have hword := add_lt_size_of_le hsize
  have hstart : Scan.start code = .ofSurvey (.start code) := by
    simp only [Scan.start, Scan.ofSurvey, Survey.start, length,
      clear_eq_packed (show code.size < UInt64.size by omega), replicate_false_eq_flags]
  have hrun := run_eq hsize (fits_start code)
  have hlength : (length code).toNat = code.size := toNat_word (by omega)
  rw [validate, hstart]
  have hzero : (0 : UInt64) = word (Survey.start code).position := rfl
  have hfalse : false = (Survey.start code).terminated := rfl
  rw [hzero, hfalse, hrun, ok_bind]
  cases houtcome : (Survey.complete code (Survey.start code)).outcome with
  | accepted jumpdests =>
      have haccepted : code.validate = .accepted jumpdests := houtcome
      have hset : jumpdests.size = code.size :=
        (Code.validate_eq_accepted_iff.mp haccepted).size_eq
      have hcount : jumpdests.packed.count = .ok (word jumpdests.count) :=
        count_packed (by omega)
      have hle : jumpdests.count ≤ jumpdests.size := by
        rw [jumpdests.count_eq_length_toList]
        exact Nat.le_trans (List.length_filter_le _ _) (Nat.le_of_eq List.length_range)
      simp only [packOutcome, hlength, Code.validate, Code.validateLogged, houtcome,
        Code.closingEvent, hcount, ok_bind,
        toNat_word (show jumpdests.count < UInt64.size by omega)]
      rfl
  | rejected cause =>
      simp only [packOutcome, hlength, Code.validate, Code.validateLogged, houtcome,
        Code.closingEvent]
      rfl

end Run

end Machine
end EvmCheck
