import EvmCheck.Listing
import EvmCheck.Proofs.Verdict

/-!
# Listings and surveys

A listing and a survey walk over the same code on their own: the listing goes by
the length of the immediate bytes of each instruction, whatever they are, while
the survey reads these bytes and stops where it cannot go on.  Here the two walks
are compared.

`reads` are the positions at which the survey reads an opcode.  They are the
first positions of the listing: all of them when the survey comes to the end of
the code, and those up to the instruction at fault when it stops there.

**Results.**
* `readsFrom_isPrefix`: the survey reads at the first positions of the walk.
* `reads_cases`: at all of them, or at those up to the instruction at fault.
* `flatMap_bytes_listing`: the lines of a listing hold the bytes of the code.
* `getElem?_of_mem_listing`, `data_of_mem_listing`: what a line holds of the code.
* `Accepted.line_complete`: what the lines of accepted code are.
-/

namespace EvmCheck

/-- The position of the instruction for which code is rejected, if it is rejected
for one instruction. -/
def Rejection.offset? : Rejection → Option Nat
  | undefinedOpcode offset _ => some offset
  | truncatedImmediate offset _ => some offset
  | emptyJumpTable offset => some offset
  | jumpTargetOutOfBounds offset _ => some offset
  | missingTerminator => none
  | jumpIntoImmediateData _ => none

/-- Where validation stopped before the end of the code, if it did. -/
def Outcome.stoppedAt? : Outcome → Option Nat
  | accepted _ => none
  | rejected cause => cause.offset?

/-- The bytes of a line: the opcode and the immediate bytes. -/
def Line.bytes (l : Line) : List UInt8 :=
  l.opcode :: l.data

namespace Survey

variable {code : Code} {visited : List Nat} {s s' : Survey} {op : Opcode}

-- The two equations are read in `decreasing_by` only.
set_option linter.unusedVariables false in
/-- The positions at which the survey reads an opcode, from a state on. -/
def readsFrom (code : Code) (s : Survey) : List Nat :=
  match hop : code[s.position]? with
  | none => []
  | some op =>
      match hstep : s.step code op with
      | .halt _ _ => [s.position]
      | .next s' => s.position :: readsFrom code s'
termination_by code.size - s.position
decreasing_by
  have hlt : s.position < code.size := (Array.getElem?_eq_some_iff.mp hop).1
  have := step_advances hstep
  omega

/-- The positions at which the survey reads an opcode. -/
def reads (code : Code) : List Nat :=
  readsFrom code (start code)

theorem readsFrom_eq (code : Code) (s : Survey) :
    readsFrom code s =
      match code[s.position]? with
      | none => []
      | some op =>
          match s.step code op with
          | .halt _ _ => [s.position]
          | .next s' => s.position :: readsFrom code s' := by
  rw [readsFrom]
  split
  · rename_i h
    rw [h]
  · rename_i op h
    rw [h]
    simp only
    split
    · rename_i h'
      rw [h']
    · rename_i h'
      rw [h']

/-- From any state on, the survey reads at the first positions of the walk. -/
theorem readsFrom_isPrefix (code : Code) (s : Survey) :
    readsFrom code s <+: code.startsFrom s.position := by
  induction hp : s.position using Code.walk_induction code generalizing s with
  | done p hle =>
      rw [readsFrom_eq, hp, Array.getElem?_eq_none hle]
      exact List.nil_prefix
  | step p hlt ih =>
      subst hp
      have hop : code[s.position]? = some code[s.position] :=
        Array.getElem?_eq_getElem hlt
      rw [readsFrom_eq, hop, Code.startsFrom_of_lt hlt]
      cases hv : code.violation? s.position with
      | some cause =>
          simp only [step_of_violation hop hv]
          exact List.prefix_append _ _
      | none =>
          obtain ⟨s', hstep⟩ := step_of_sound hop hv
          have hposition : s'.position = code.next s.position := by
            obtain ⟨-, rfl⟩ := step_eq_next hop hstep
            rfl
          simp only [hstep]
          exact List.cons_prefix_cons.mpr ⟨rfl, ih s' hposition⟩

/-- What has been read up to a state comes before what is read from there on. -/
theorem Reached.reads_eq (h : Reached code visited s) :
    reads code = visited ++ readsFrom code s := by
  induction h with
  | start => rfl
  | step _ hop hstep ih =>
      rw [ih, readsFrom_eq, hop]
      simp only [hstep, List.append_assoc, List.cons_append, List.nil_append]

/-- A survey that comes to the end of the code has read at all starts. -/
theorem Reached.reads_of_end (h : Reached code visited s)
    (hend : code.size ≤ s.position) : reads code = code.starts := by
  rw [h.reads_eq, readsFrom_eq, Array.getElem?_eq_none hend, h.invariant.starts_eq,
    Code.startsFrom_of_le hend]

/-- A survey that stops at an instruction has read at the starts up to it. -/
theorem Reached.reads_of_violation {cause : Rejection} (h : Reached code visited s)
    (hop : code[s.position]? = some op)
    (hv : code.violation? s.position = some cause) :
    reads code = code.starts.filter (· ≤ s.position) := by
  have hlt : s.position < code.size := (Array.getElem?_eq_some_iff.mp hop).1
  have hbefore : visited.filter (· ≤ s.position) = visited := by
    rw [List.filter_eq_self]
    intro p hp
    simpa using Nat.le_of_lt (h.invariant.lt_position_of_mem hp)
  have hafter : (code.startsFrom (code.next s.position)).filter (· ≤ s.position) = [] := by
    rw [List.filter_eq_nil_iff]
    intro p hp
    have := Code.le_of_mem_startsFrom hp
    have := code.lt_next s.position
    simp only [decide_eq_true_eq]
    omega
  rw [h.reads_eq, readsFrom_eq, hop, h.invariant.starts_eq, Code.startsFrom_of_lt hlt,
    List.filter_append, List.filter_cons_of_pos (by simp), hbefore, hafter]
  simp only [step_of_violation hop hv]

/-- At the end of the code no single instruction is at fault. -/
theorem stoppedAt?_outcome (s : Survey) : s.outcome.stoppedAt? = none := by
  unfold outcome
  split
  · split <;> rfl
  · rfl

end Survey

namespace Code

variable {code : Code} {p : Nat}

/-- A rule that an instruction breaks is reported with its position. -/
theorem offset?_of_violation? {cause : Rejection}
    (h : code.violation? p = some cause) : cause.offset? = some p := by
  have hstray : code.strayJump? p = some cause → cause.offset? = some p := by
    intro h
    obtain ⟨target, -, rfl⟩ := Option.map_eq_some_iff.mp h
    rfl
  unfold violation? at h
  split at h
  · cases h
  · split_ifs at h
    all_goals first
      | exact hstray h
      | cases h; rfl

/-- What a survey has read when it comes to the end, and when it stops before. -/
theorem reads_cases (code : Code) :
    (code.validate.stoppedAt? = none ∧ Survey.reads code = code.starts) ∨
    ∃ p, code.validate.stoppedAt? = some p ∧ code.IsStart p ∧
      Survey.reads code = code.starts.filter (· ≤ p) := by
  have hvalidate : code.validate =
      (Survey.complete code (Survey.start code)).outcome := rfl
  rcases Survey.complete_cases (.start : Survey.Reached code [] _) with
    ⟨visited, s, hs, hend, hcomplete⟩ | ⟨visited, s, op, cause, hs, hop, hv, hcomplete⟩
  · left
    rw [hvalidate, hcomplete]
    exact ⟨s.stoppedAt?_outcome, hs.reads_of_end hend⟩
  · right
    have hlt : s.position < code.size := (Array.getElem?_eq_some_iff.mp hop).1
    rw [hvalidate, hcomplete]
    exact ⟨s.position, offset?_of_violation? hv, hs.invariant.isStart_position hlt,
      hs.reads_of_violation hop hv⟩

/-! ### The lines of a listing -/

theorem map_position_listing (code : Code) :
    code.listing.map Line.position = code.starts := by
  rw [listing, List.map_map]
  exact List.map_id _

theorem mem_listing_iff {line : Line} :
    line ∈ code.listing ↔ ∃ p, code.IsStart p ∧ code.lineAt p = line := by
  simp only [listing, List.mem_map, mem_starts_iff]

theorem immediate_eq (code : Code) (p : Nat) :
    code.immediate p =
      (code.toList.drop (p + 1)).take (code.immediateLength p) := by
  rw [immediate, Array.toList_extract, List.extract_eq_take_drop, next,
    Nat.add_sub_cancel_left]

/-- The code from an instruction on is its line and the code after it. -/
theorem drop_eq_bytes_append (h : p < code.size) :
    code.toList.drop p =
      (code.lineAt p).bytes ++ code.toList.drop (code.next p) := by
  have hopcode : (code.lineAt p).opcode = code[p] := by
    simp [lineAt, h]
  have hrest : code.immediate p ++ code.toList.drop (code.next p) =
      code.toList.drop (p + 1) := by
    have hsplit := List.take_append_drop (code.immediateLength p)
      (code.toList.drop (p + 1))
    rw [List.drop_drop] at hsplit
    rw [immediate_eq, next, hsplit]
  rw [Line.bytes, List.cons_append, hopcode, lineAt, hrest,
    List.drop_eq_getElem_cons (by simpa using h), Array.getElem_toList]

theorem flatMap_bytes_startsFrom (code : Code) (p : Nat) :
    (code.startsFrom p).flatMap (fun q => (code.lineAt q).bytes) =
      code.toList.drop p := by
  induction p using walk_induction code with
  | done p hle =>
      rw [startsFrom_of_le hle, List.drop_of_length_le (by simpa using hle)]
      rfl
  | step p hlt ih =>
      rw [startsFrom_of_lt hlt, List.flatMap_cons, ih, ← drop_eq_bytes_append hlt]

theorem flatMap_bytes_listing (code : Code) :
    code.listing.flatMap Line.bytes = code.toList := by
  rw [listing, List.flatMap_map]
  exact code.flatMap_bytes_startsFrom 0

theorem getElem?_of_mem_listing {line : Line} (h : line ∈ code.listing) :
    code[line.position]? = some line.opcode := by
  obtain ⟨p, hp, rfl⟩ := mem_listing_iff.mp h
  have hlt := hp.lt_size
  simp [lineAt, hlt]

theorem data_of_mem_listing {line : Line} (h : line ∈ code.listing) :
    line.data =
      (code.toList.drop (line.position + 1)).take
        (code.immediateLength line.position) := by
  obtain ⟨p, -, rfl⟩ := mem_listing_iff.mp h
  exact code.immediate_eq p

/-- A line of accepted code has a mnemonic and all its immediate bytes. -/
theorem Accepted.line_complete {s : PositionSet} {line : Line} (h : code.Accepted s)
    (hline : line ∈ code.listing) :
    line.mnemonic ≠ "UNDEFINED" ∧
      line.data.length = code.immediateLength line.position := by
  have hop := getElem?_of_mem_listing hline
  have hdata := data_of_mem_listing hline
  obtain ⟨p, hp, rfl⟩ := mem_listing_iff.mp hline
  constructor
  · obtain ⟨hdefined, -⟩ := (violation?_eq_none_iff hop).mp (h.sound p hp)
    obtain ⟨name, hname⟩ := Option.isSome_iff_exists.mp (Opcode.isSome_mnemonic? hdefined)
    rw [Line.mnemonic, hname]
    exact Opcode.ne_undefined_of_mnemonic? hname
  · have hle : p + 1 + code.immediateLength p ≤ code.size := h.next_le_size hp
    rw [hdata, List.length_take, List.length_drop, Array.length_toList]
    exact Nat.min_eq_left (by simp only [lineAt]; omega)

end Code
end EvmCheck
