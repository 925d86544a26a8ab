import EvmCheck.Code
import EvmCheck.Log
import EvmCheck.Outcome

/-!
# The survey that validates code

Validation reads the code once from left to right.  A `Survey` is its state
between two instructions: the position of the next one, whether the last one
was terminal, and three sets of positions, namely the jump destinations, the
bytes of immediate data and the targets of relative jumps met so far.

* `examine` looks at one instruction.  It finds the position after it and the
  targets of its relative jumps, or the fault for which the survey stops; the
  targets before a stray one are kept, since they have been logged.
* `step` adds what was found to the state.
* `complete` repeats `step` to the end of the code, where `outcome` checks the
  two conditions that only the whole code can decide.

**Results.**
* `step_advances`: every step moves to a later position.
* `complete_eq`: one step of the survey.
-/

namespace EvmCheck

/-- What the survey finds out about one instruction. -/
structure Finding where
  /-- The position after the instruction, which may lie past the end. -/
  next : Nat
  /-- The relative jump targets inside the code, in order, up to a stray one. -/
  targets : List Nat
  /-- The reason to stop at this instruction, if there is one. -/
  fault : Option Rejection

/-- State of a survey between two instructions. -/
structure Survey where
  /-- The position of the next instruction. -/
  position : Nat
  /-- Whether the last instruction was terminal; `false` before the first. -/
  terminated : Bool
  /-- The markers of dynamic jump destinations seen so far. -/
  jumpdests : PositionSet
  /-- The immediate bytes seen so far. -/
  immediates : PositionSet
  /-- The targets of the relative jumps seen so far. -/
  targets : PositionSet
  /-- What has been logged so far. -/
  events : Array Event

/-- An outcome together with the events that were logged on the way to it. -/
structure Validation where
  /-- The result. -/
  outcome : Outcome
  /-- The events, in the order of their emission. -/
  events : Array Event

namespace Survey

/-- The positions that offsets from `base` lead to, as long as they lie below
`size`, and the first one that does not. -/
def resolve (size base : Nat) : List Int → List Nat × Option Int
  | [] => ([], none)
  | offset :: offsets =>
      let target : Int := base + offset
      if 0 ≤ target ∧ target < size then
        let rest := resolve size base offsets
        (target.toNat :: rest.1, rest.2)
      else ([], some target)

/-- The finding for an instruction at `p` whose relative offsets have been
read and count from `base`, the position after it. -/
def jumps (size p base : Nat) (offsets : List Int) : Finding :=
  let resolved := resolve size base offsets
  { next := base
    targets := resolved.1
    fault := resolved.2.map (Rejection.jumpTargetOutOfBounds p) }

/-- The finding for an instruction at which the survey stops at once. -/
def stop (p : Nat) (cause : Rejection) : Finding :=
  { next := p + 1, targets := [], fault := some cause }

/-- Looks at the instruction at `p`, whose opcode is `op`. -/
def examine (code : Code) (p : Nat) (op : Opcode) : Finding :=
  if op.kind = .undefined then stop p (.undefinedOpcode p op)
  else
    match op.operand with
    | .none => { next := p + 1, targets := [], fault := none }
    | .data width => { next := p + 1 + width, targets := [], fault := none }
    | .offset =>
        match code.relativeOffset? (p + 1) with
        | none => stop p (.truncatedImmediate p op)
        | some offset => jumps code.size p (p + 3) [offset]
    | .table =>
        match code.tableSize? (p + 1) with
        | none => stop p (.truncatedImmediate p op)
        | some 0 => stop p (.emptyJumpTable p)
        | some (n + 1) =>
            match code.relativeOffsets? (p + 2) (n + 1) with
            | none => stop p (.truncatedImmediate p op)
            | some offsets =>
                jumps code.size p (p + 2 + 2 * (n + 1)) offsets

/-- The state before the first instruction. -/
def start (code : Code) : Survey where
  position := 0
  terminated := false
  jumpdests := .empty code.size
  immediates := .empty code.size
  targets := .empty code.size
  events := #[]

/-- The events so far and those for the targets of the next instruction. -/
def logging (s : Survey) (found : Finding) : Array Event :=
  s.events ++ (found.targets.map (Event.jumpResolved s.position)).toArray

/-- Adds an instruction without fault to the state. -/
def advance (code : Code) (s : Survey) (op : Opcode) (found : Finding) : Survey where
  position := found.next
  terminated := op.isTerminal
  jumpdests := if op.isMarker then s.jumpdests.insert s.position else s.jumpdests
  immediates :=
    s.immediates.insertRange (s.position + 1) (min found.next code.size)
  targets := s.targets.insertAll found.targets
  events := s.logging found

/-- What a step of the survey leads to. -/
inductive Step
  /-- The survey goes on from the next state. -/
  | next (s : Survey)
  /-- The survey stops at this instruction. -/
  | halt (cause : Rejection) (events : Array Event)

/-- Reads the instruction with opcode `op` at the position of the survey. -/
def step (code : Code) (s : Survey) (op : Opcode) : Step :=
  let found := examine code s.position op
  match found.fault with
  | some cause => .halt cause (s.logging found)
  | none => .next (s.advance code op found)

/-- The outcome at the end of the code: the last instruction must be terminal,
and no relative jump may lead into immediate data. -/
def outcome (s : Survey) : Outcome :=
  if s.terminated then
    match s.targets.toList.find? s.immediates.contains with
    | some target => .rejected (.jumpIntoImmediateData target)
    | none => .accepted s.jumpdests
  else .rejected .missingTerminator

theorem lt_next_jumps {size p base : Nat} (h : p < base) (offsets : List Int) :
    p < (jumps size p base offsets).next := by
  exact h

theorem lt_next_stop (p : Nat) (cause : Rejection) :
    p < (stop p cause).next := by
  exact Nat.lt_succ_self p

/-- An instruction ends after the position at which it starts. -/
theorem lt_next_examine (code : Code) (p : Nat) (op : Opcode) :
    p < (examine code p op).next := by
  unfold examine
  split
  · exact lt_next_stop p _
  · split
    · exact Nat.lt_succ_self p
    · show p < p + 1 + _
      omega
    · split
      · exact lt_next_stop p _
      · exact lt_next_jumps (by omega) _
    · split
      · exact lt_next_stop p _
      · exact lt_next_stop p _
      · split
        · exact lt_next_stop p _
        · exact lt_next_jumps (by omega) _

/-- Every step moves to a later position. -/
theorem step_advances {code : Code} {s s' : Survey} {op : Opcode}
    (h : s.step code op = .next s') : s.position < s'.position := by
  unfold step at h
  simp only at h
  split at h
  · cases h
  · cases h
    exact lt_next_examine code s.position op

-- The two equations are read in `decreasing_by` only.
set_option linter.unusedVariables false in
/-- Surveys the code from a state on. -/
def complete (code : Code) (s : Survey) : Validation :=
  match hop : code[s.position]? with
  | none => { outcome := s.outcome, events := s.events }
  | some op =>
      match hstep : s.step code op with
      | .halt cause events => { outcome := .rejected cause, events := events }
      | .next s' => complete code s'
termination_by code.size - s.position
decreasing_by
  have hlt : s.position < code.size := (Array.getElem?_eq_some_iff.mp hop).1
  have := step_advances hstep
  omega

/-- One step of the survey. -/
theorem complete_eq (code : Code) (s : Survey) :
    complete code s =
      match code[s.position]? with
      | none => { outcome := s.outcome, events := s.events }
      | some op =>
          match s.step code op with
          | .halt cause events =>
              { outcome := .rejected cause, events := events }
          | .next s' => complete code s' := by
  rw [complete]
  split
  · rename_i h
    rw [h]
  · rename_i op h
    rw [h]
    simp only
    split
    · rename_i h'
      rw [h']
    · rename_i h'
      rw [h']

end Survey

namespace Code

/-- The event that ends the log of a validation. -/
def closingEvent (code : Code) : Outcome → Event
  | .accepted jumpdests => .accepted code.size jumpdests.count
  | .rejected cause => .rejected code.size cause

/-- Validates code and gives the events that this logs. -/
def validateLogged (code : Code) : Validation :=
  let surveyed := Survey.complete code (Survey.start code)
  { outcome := surveyed.outcome
    events := surveyed.events.push (code.closingEvent surveyed.outcome) }

/-- Validates code. -/
def validate (code : Code) : Outcome :=
  code.validateLogged.outcome

/-- Whether code is valid. -/
def isValid (code : Code) : Bool :=
  code.validate.isAccepted

end Code
end EvmCheck
