import EvmCheck.Proofs.Listing
import Mathlib.Algebra.GroupWithZero.Nat

/-!
# The log of a validation

A validation logs every relative jump when it has resolved it, and its outcome
at the end.  The entries of a jump table are resolved one after the other, so
that a survey can stop in the middle of a table: the entries before the one that
leads outside the code have then been logged, and this one and those after it
have not.

`passed` are the instructions that the survey gets past, and `resolvedJumps` are
the jumps that a validation resolves: those of the instructions it gets past,
and those of the table in which it stops, if it stops in one.  Both are stated
with the outcome and without the survey.

**Results.**
* `Survey.Reached.events_eq`: what is logged up to a state.
* `events_complete`: a survey logs the resolved jumps, in order.
* `length_jumpTargets`: how many jumps an instruction without violation has.
* `log_of_validation`: the records of a validation.
-/

namespace EvmCheck

/-- What the record of an event shows: its level and its text. -/
def Event.record (e : Event) : Level × String :=
  (e.level, e.message)

/-- The event for a relative jump, given by its position and its target. -/
def Event.ofJump (jump : Nat × Nat) : Event :=
  .jumpResolved jump.1 jump.2

namespace Code

variable {code : Code} {p : Nat} {op : Opcode}

/-- The instructions that a validation gets past: all of them, or those before
the one at which it stops. -/
def passed (code : Code) : List Nat :=
  code.starts.filter fun p => code.validate.stoppedAt?.all (p < ·)

/-- The jumps from `p` to the given targets. -/
def jumpsTo (p : Nat) (targets : List Int) : List (Nat × Nat) :=
  targets.map fun target => (p, target.toNat)

/-- The jumps of the instruction at fault that come before a stray one. -/
def jumpsAtFault (code : Code) : Outcome → List (Nat × Nat)
  | .rejected (.jumpTargetOutOfBounds offset _) =>
      jumpsTo offset (code.targetsInside offset)
  | _ => []

/-- The relative jumps that a validation resolves, each with its position and its
target. -/
def resolvedJumps (code : Code) : List (Nat × Nat) :=
  (code.passed.flatMap fun p => jumpsTo p (code.jumpTargets p)) ++
    code.jumpsAtFault code.validate

theorem map_ofJump_jumpsTo (p : Nat) (targets : List Int) :
    (jumpsTo p targets).map Event.ofJump =
      (targets.map Int.toNat).map (Event.jumpResolved p) := by
  rw [jumpsTo, List.map_map, List.map_map]
  rfl

theorem jumpsAtFault_of_stoppedAt? {outcome : Outcome}
    (h : outcome.stoppedAt? = none) : code.jumpsAtFault outcome = [] := by
  unfold jumpsAtFault
  split
  · cases h
  · rfl

/-- The targets of an instruction with a stray jump: those before it, the stray
one, and the rest. -/
theorem jumpTargets_of_strayJump? {offset : Nat} {target : Int}
    (h : code.strayJump? p = some (.jumpTargetOutOfBounds offset target)) :
    (target < 0 ∨ (code.size : Int) ≤ target) ∧
      ∃ rest, code.jumpTargets p = code.targetsInside p ++ target :: rest := by
  obtain ⟨target, hfind, heq⟩ := Option.map_eq_some_iff.mp h
  cases heq
  have houtside := List.find?_some hfind
  refine ⟨of_decide_eq_true houtside, ?_⟩
  rw [List.find?_eq_head?_dropWhile_not, List.head?_eq_some_iff] at hfind
  obtain ⟨rest, hrest⟩ := hfind
  exact ⟨rest, by rw [← hrest, targetsInside, List.takeWhile_append_dropWhile]⟩

theorem inside_of_mem_targetsInside {target : Int}
    (h : target ∈ code.targetsInside p) : 0 ≤ target ∧ target < code.size := by
  have hinside := List.mem_takeWhile_imp h
  exact isOutside_eq_false_iff.mp (by simpa using hinside)

end Code

namespace Survey

variable {code : Code} {visited : List Nat} {s : Survey} {op : Opcode}

theorem toList_logging (s : Survey) (found : Finding) :
    (s.logging found).toList =
      s.events.toList ++ found.targets.map (Event.jumpResolved s.position) := by
  simp [logging]

/-- Up to a state the survey has logged the jumps of the instructions visited. -/
theorem Reached.events_eq (h : Reached code visited s) :
    s.events.toList =
      (visited.flatMap fun p => Code.jumpsTo p (code.jumpTargets p)).map
        Event.ofJump := by
  induction h with
  | start => rfl
  | step _ hop hstep ih =>
      obtain ⟨-, rfl⟩ := step_eq_next hop hstep
      simp only [advance]
      rw [toList_logging, ih, ← Code.map_ofJump_jumpsTo, ← List.map_append,
        List.flatMap_append, List.flatMap_singleton]

/-- At an instruction at fault the survey logs the jumps before a stray one. -/
theorem targets_of_violation {p : Nat} {cause : Rejection}
    (hop : code[p]? = some op) (hv : code.violation? p = some cause) :
    (examine code p op).targets.map (Event.jumpResolved p) =
      (code.jumpsAtFault (.rejected cause)).map Event.ofJump := by
  rcases examine_cases hop with ⟨cause', hstop, hv', hother⟩ | ⟨hexamine, hv'⟩
  · -- stopping at once logs nothing, and its cause is never a stray jump
    rw [hv, Option.some.injEq] at hv'
    subst hv'
    have hnone : code.jumpsAtFault (.rejected cause) = [] := by
      unfold Code.jumpsAtFault
      split
      · rename_i heq
        cases heq
        exact absurd rfl (hother _ _)
      · rfl
    rw [hstop, hnone]
    rfl
  · -- the targets were resolved up to the stray one
    rw [hv] at hv'
    obtain ⟨target, -, rfl⟩ := Option.map_eq_some_iff.mp hv'.symm
    rw [hexamine, Code.jumpsAtFault, Code.map_ofJump_jumpsTo]

end Survey

namespace Code

variable {code : Code} {p : Nat} {op : Opcode}

theorem passed_of_end (h : code.validate.stoppedAt? = none) :
    code.passed = code.starts := by
  simp [passed, h]

theorem passed_of_stop (h : code.validate.stoppedAt? = some p) :
    code.passed = code.starts.filter (· < p) := by
  simp [passed, h]

/-- How the survey of the whole code ends: it has got past all instructions, or
past those before the one that breaks a rule. -/
theorem survey_cases (code : Code) :
    (∃ s, Survey.Reached code code.passed s ∧ code.size ≤ s.position ∧
      code.validate = s.outcome ∧
      (Survey.complete code (.start code)).events = s.events) ∨
    (∃ s op cause, Survey.Reached code code.passed s ∧
      code[s.position]? = some op ∧ code.violation? s.position = some cause ∧
      code.validate = .rejected cause ∧
      (Survey.complete code (.start code)).events =
        s.logging (Survey.examine code s.position op)) := by
  have hvalidate : code.validate =
      (Survey.complete code (Survey.start code)).outcome := rfl
  rcases Survey.complete_cases (.start : Survey.Reached code [] _) with
    ⟨visited, s, hs, hend, hcomplete⟩ | ⟨visited, s, op, cause, hs, hop, hv, hcomplete⟩
  · left
    rw [hcomplete] at hvalidate
    have hpassed : code.passed = visited := by
      rw [passed_of_end (by rw [hvalidate, s.stoppedAt?_outcome]),
        hs.invariant.starts_eq, startsFrom_of_le hend, List.append_nil]
    rw [hpassed, hcomplete]
    exact ⟨s, hs, hend, hvalidate, rfl⟩
  · right
    rw [hcomplete] at hvalidate
    have hstop : code.validate.stoppedAt? = some s.position := by
      rw [hvalidate]
      exact offset?_of_violation? hv
    have hpassed : code.passed = visited := by
      rw [passed_of_stop hstop, ← hs.invariant.visited_eq]
    rw [hpassed, hcomplete]
    exact ⟨s, op, cause, hs, hop, hv, hvalidate, rfl⟩

/-- The survey logs the resolved jumps, in order. -/
theorem events_complete (code : Code) :
    (Survey.complete code (.start code)).events.toList =
      code.resolvedJumps.map Event.ofJump := by
  rw [resolvedJumps, List.map_append]
  rcases code.survey_cases with
    ⟨s, hs, -, hvalidate, hevents⟩ | ⟨s, op, cause, hs, hop, hv, hvalidate, hevents⟩
  · rw [hevents, hvalidate, hs.events_eq, jumpsAtFault_of_stoppedAt? s.stoppedAt?_outcome,
      List.map_nil, List.append_nil]
  · rw [hevents, hvalidate, Survey.toList_logging, hs.events_eq,
      Survey.targets_of_violation hop hv]

/-- A validation logs the resolved jumps and its outcome. -/
theorem events_validateLogged (code : Code) :
    code.validateLogged.events.toList =
      code.resolvedJumps.map Event.ofJump ++ [code.closingEvent code.validate] := by
  rw [validateLogged, Array.toList_push, events_complete]
  rfl

theorem mem_events_validateLogged_iff {e : Event} :
    e ∈ code.validateLogged.events ↔
      (∃ jump ∈ code.resolvedJumps, Event.ofJump jump = e) ∨
        e = code.closingEvent code.validate := by
  rw [← Array.mem_toList_iff, events_validateLogged, List.mem_append, List.mem_map,
    List.mem_singleton]

/-- The survey reads at the instructions it gets past and at the one at which it
stops. -/
theorem reads_eq_passed (code : Code) :
    Survey.reads code = code.passed ++ code.validate.stoppedAt?.toList := by
  rcases code.survey_cases with
    ⟨s, hs, hend, hvalidate, -⟩ | ⟨s, op, cause, hs, hop, hv, hvalidate, -⟩
  · rw [hvalidate, s.stoppedAt?_outcome, hs.reads_eq, Survey.readsFrom_eq,
      Array.getElem?_eq_none hend]
    rfl
  · rw [hvalidate, Outcome.stoppedAt?, offset?_of_violation? hv, hs.reads_eq,
      Survey.readsFrom_eq, hop]
    simp only [Survey.step_of_violation hop hv, Option.toList_some]

theorem sound_of_mem_passed (h : p ∈ code.passed) : code.violation? p = none := by
  rcases code.survey_cases with ⟨s, hs, -⟩ | ⟨s, op, cause, hs, -⟩
  · exact hs.invariant.sound p h
  · exact hs.invariant.sound p h

theorem isStart_of_mem_passed (h : p ∈ code.passed) : code.IsStart p :=
  mem_starts_iff.mp (List.mem_of_mem_filter h)

theorem inside_of_mem_passed {target : Int} (hp : p ∈ code.passed)
    (h : target ∈ code.jumpTargets p) : 0 ≤ target ∧ target < code.size := by
  obtain ⟨op, hop⟩ := getElem?_of_isStart (isStart_of_mem_passed hp)
  obtain ⟨-, -, -, hinside⟩ :=
    (violation?_eq_none_iff hop).mp (sound_of_mem_passed hp)
  exact hinside target h

/-- Code that is rejected for a stray jump has it at the reported instruction. -/
theorem strayJump?_of_rejected {offset : Nat} {target : Int}
    (h : code.validate = .rejected (.jumpTargetOutOfBounds offset target)) :
    code.strayJump? offset = some (.jumpTargetOutOfBounds offset target) := by
  have hverdict := code.verdict_validate
  rw [h] at hverdict
  cases hverdict with
  | violation hp hv _ =>
      obtain ⟨op, hop⟩ := getElem?_of_isStart hp
      obtain rfl : offset = _ := Option.some.inj (offset?_of_violation? hv)
      rcases Survey.examine_cases hop with ⟨cause, -, hv', hother⟩ | ⟨-, hv'⟩
      · rw [hv, Option.some.injEq] at hv'
        exact absurd hv'.symm (hother offset target)
      · rw [← hv', hv]

/-! ### The jumps of accepted code -/

/-- An instruction that breaks no rule has one jump for its offset, or one for
each entry of its table. -/
theorem length_jumpTargets (h : code[p]? = some op)
    (hsound : code.violation? p = none) :
    (code.jumpTargets p).length =
      if op = Opcode.rjump ∨ op = Opcode.rjumpi then 1
      else if op = Opcode.rjumpv then code.entryCount p
      else 0 := by
  obtain ⟨-, hoffset, htable, -⟩ := (violation?_eq_none_iff h).mp hsound
  simp only [← Opcode.operand_eq_offset_iff, ← Opcode.operand_eq_table_iff]
  cases hop : op.operand with
  | none | data =>
      simp [jumpTargets_of_operand h (by simp [hop]) (by simp [hop])]
  | offset =>
      obtain ⟨offset, hread⟩ := relativeOffset?_of_le (hoffset hop)
      simp [jumpTargets, offsets_of_offset h hop hread]
  | table =>
      have hread := relativeOffsets?_table h hop (htable hop).2
      simp [jumpTargets, length_of_relativeOffsets? hread]

/-- The number of jumps of instructions that break no rule: one for each
relative jump without a table, and one for each entry of a table. -/
theorem length_flatMap_jumpsTo {positions : List Nat}
    (h : ∀ p ∈ positions, code.IsStart p ∧ code.violation? p = none) :
    (positions.flatMap fun p => jumpsTo p (code.jumpTargets p)).length =
      positions.countP (fun p =>
          code[p]? = some Opcode.rjump ∨ code[p]? = some Opcode.rjumpi) +
        ((positions.filter fun p => code[p]? = some Opcode.rjumpv).map
          code.entryCount).sum := by
  induction positions with
  | nil => rfl
  | cons p positions ih =>
      obtain ⟨hp, hsound⟩ := h p (List.mem_cons_self ..)
      obtain ⟨op, hop⟩ := getElem?_of_isStart hp
      have hlength := length_jumpTargets hop hsound
      have hrest := ih fun q hq => h q (List.mem_cons_of_mem p hq)
      rw [List.flatMap_cons, List.length_append, hrest, jumpsTo, List.length_map, hlength,
        List.countP_cons, List.filter_cons]
      simp only [hop, Option.some.injEq, decide_eq_true_eq]
      -- at most one of the two sums counts the instruction at `p`
      by_cases hoffset : op = Opcode.rjump ∨ op = Opcode.rjumpi
      · have htable : op ≠ Opcode.rjumpv := by
          rintro rfl
          exact absurd hoffset (by decide)
        rw [if_pos hoffset, if_pos hoffset, if_neg htable]
        omega
      · rw [if_neg hoffset, if_neg hoffset]
        by_cases htable : op = Opcode.rjumpv
        · rw [if_pos htable, if_pos htable, List.map_cons, List.sum_cons]
          omega
        · rw [if_neg htable, if_neg htable]
          omega

theorem passed_of_accepted {jumpdests : PositionSet}
    (h : code.validate = .accepted jumpdests) : code.passed = code.starts :=
  passed_of_end (by rw [h]; rfl)

theorem resolvedJumps_of_accepted {jumpdests : PositionSet}
    (h : code.validate = .accepted jumpdests) :
    code.resolvedJumps = code.starts.flatMap fun p => jumpsTo p (code.jumpTargets p) := by
  rw [resolvedJumps, passed_of_accepted h, h]
  exact List.append_nil _

/-- The resolved jumps of accepted code lead to instruction starts. -/
theorem isStart_of_mem_resolvedJumps {jumpdests : PositionSet} {jump : Nat × Nat}
    (haccepted : code.validate = .accepted jumpdests)
    (h : jump ∈ code.resolvedJumps) : code.IsStart jump.2 := by
  rw [resolvedJumps_of_accepted haccepted, ← passed_of_accepted haccepted] at h
  obtain ⟨p, hp, hjump⟩ := List.mem_flatMap.mp h
  obtain ⟨target, htarget, rfl⟩ := List.mem_map.mp hjump
  apply (validate_eq_accepted_iff.mp haccepted).isStart_of_isJumpTarget
  refine ⟨p, isStart_of_mem_passed hp, ?_⟩
  rw [Int.toNat_of_nonneg (inside_of_mem_passed hp htarget).1]
  exact htarget

theorem countP_trace_events (code : Code) :
    code.validateLogged.events.toList.countP (fun e => e.level = .trace) =
      code.resolvedJumps.length := by
  have hjumps : code.resolvedJumps.countP ((fun e => e.level = .trace) ∘ Event.ofJump) =
      code.resolvedJumps.length := by
    rw [List.countP_eq_length]
    intro jump _
    rfl
  have hclosing : [code.closingEvent code.validate].countP (fun e => e.level = .trace) = 0 := by
    cases code.validate <;> rfl
  rw [events_validateLogged, List.countP_append, List.countP_map, hjumps, hclosing,
    Nat.add_zero]

/-- **The log of a validation.**  Its records are one for each resolved relative
jump and one for the outcome.  The jumps are those of the instructions that the
survey gets past, in the order in which they are read, all of which lead into the
code; if the survey stops at a stray jump, they are also the entries before it in
the table.  The log of accepted code has a jump for each relative jump without a
table and for each entry of a table, and each leads to an instruction. -/
theorem log_of_validation (code : Code) :
    (code.validateLogged.events.toList.map Event.record =
      code.resolvedJumps.map (fun jump =>
        (Level.trace, "relative jump at " ++ ("0x" ++ Text.hex jump.1) ++
          " targets " ++ ("0x" ++ Text.hex jump.2))) ++
      [(Level.debug,
        match code.validate with
        | .accepted jumpdests =>
            "accepted " ++ Text.decimal code.size ++ " bytes of code with " ++
              Text.decimal jumpdests.count ++ " jump destinations"
        | .rejected cause =>
            "rejected " ++ Text.decimal code.size ++ " bytes of code: " ++
              cause.message)]) ∧
    (Survey.reads code = code.passed ++ code.validate.stoppedAt?.toList ∧
      (Survey.reads code).Pairwise (· < ·)) ∧
    (∀ p ∈ code.passed, ∀ target ∈ code.jumpTargets p,
      0 ≤ target ∧ target < code.size) ∧
    (∀ offset target,
      code.validate = .rejected (.jumpTargetOutOfBounds offset target) →
        ((target < 0 ∨ (code.size : Int) ≤ target) ∧
          ∃ rest, code.jumpTargets offset =
            code.targetsInside offset ++ target :: rest) ∧
        ∀ target' ∈ code.targetsInside offset, 0 ≤ target' ∧ target' < code.size) ∧
    (∀ jumpdests, code.validate = .accepted jumpdests →
      code.validateLogged.events.toList.countP (fun e => e.level = .trace) =
        code.starts.countP (fun p =>
            code[p]? = some Opcode.rjump ∨ code[p]? = some Opcode.rjumpi) +
          ((code.starts.filter fun p => code[p]? = some Opcode.rjumpv).map
            code.entryCount).sum ∧
      ∀ p target, Event.jumpResolved p target ∈ code.validateLogged.events →
        code.IsStart target) := by
  refine ⟨?records, ⟨code.reads_eq_passed, ?ordered⟩, ?inside, ?stray, ?counted⟩
  case records =>
    rw [events_validateLogged, List.map_append, List.map_map, List.map_singleton]
    cases code.validate <;> rfl
  case ordered =>
    exact (code.pairwise_startsFrom 0).sublist (Survey.readsFrom_isPrefix code _).sublist
  case inside =>
    intro p hp target htarget
    exact inside_of_mem_passed hp htarget
  case stray =>
    intro offset target hrejected
    have hstray := strayJump?_of_rejected hrejected
    exact ⟨jumpTargets_of_strayJump? hstray, fun _ h => inside_of_mem_targetsInside h⟩
  case counted =>
    intro jumpdests haccepted
    constructor
    · rw [countP_trace_events, resolvedJumps_of_accepted haccepted]
      refine length_flatMap_jumpsTo fun p hp => ?_
      rw [← passed_of_accepted haccepted] at hp
      exact ⟨isStart_of_mem_passed hp, sound_of_mem_passed hp⟩
    · intro p target h
      rcases mem_events_validateLogged_iff.mp h with ⟨jump, hjump, heq⟩ | hclosing
      · cases heq
        exact isStart_of_mem_resolvedJumps haccepted hjump
      · rw [haccepted] at hclosing
        cases hclosing

/-- The survey stops in a table whose second entry leads outside the code, and the
first one has been logged; accepted code with an offset and a table of one entry
has two jumps in its log. -/
theorem log_of_cut_table :
    ((validateLogged #[0x5e, 0x02, 0x00, 0x00, 0x7f, 0xff, 0x00]).events.toList.map
        Event.record =
      [(.trace, "relative jump at 0x0 targets 0x6"),
        (.debug, "rejected 7 bytes of code: " ++
          "relative jump at 0x0 targets 32773, outside of the code")] ∧
      ∃ rest, jumpTargets #[0x5e, 0x02, 0x00, 0x00, 0x7f, 0xff, 0x00] 0 =
        targetsInside #[0x5e, 0x02, 0x00, 0x00, 0x7f, 0xff, 0x00] 0 ++ 32773 :: rest) ∧
    (validateLogged #[0x5c, 0x00, 0x00, 0x5e, 0x01, 0x00, 0x00, 0x00]).events.toList.countP
      (fun e => e.level = .trace) = 2 := by
  have hrejected : validate #[0x5e, 0x02, 0x00, 0x00, 0x7f, 0xff, 0x00] =
      .rejected (.jumpTargetOutOfBounds 0 32773) := by
    decide +kernel
  have hjumps : resolvedJumps #[0x5e, 0x02, 0x00, 0x00, 0x7f, 0xff, 0x00] = [(0, 6)] := by
    decide +kernel
  have haccepted : validate #[0x5c, 0x00, 0x00, 0x5e, 0x01, 0x00, 0x00, 0x00] =
      .accepted (.empty 8) := by
    decide +kernel
  obtain ⟨hrecords, -, -, hstray, -⟩ :=
    log_of_validation #[0x5e, 0x02, 0x00, 0x00, 0x7f, 0xff, 0x00]
  obtain ⟨-, -, -, -, hcounted⟩ :=
    log_of_validation #[0x5c, 0x00, 0x00, 0x5e, 0x01, 0x00, 0x00, 0x00]
  refine ⟨⟨?_, (hstray 0 32773 hrejected).1.2⟩, ?_⟩
  · rw [hrecords, hjumps, hrejected]
    rfl
  · rw [(hcounted _ haccepted).1]
    decide +kernel

end Code
end EvmCheck
