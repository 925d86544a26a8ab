import EvmCheck.Proofs.Violation

/-!
# The states of a survey

`Reached code visited s` says that the survey of `code` comes to the state `s`
after it has read an opcode at each of the positions `visited`, in that order.

`Invariant` says what such a state holds: the positions visited are the first
instruction starts, none of their instructions breaks a rule, and the three
sets of the state are the marker instructions, the immediate bytes and the
targets of the relative jumps of the instructions visited.

**Results.**
* `invariant_step`: one step keeps the invariant.
* `Reached.invariant`: it holds in every state that the survey comes to.
* `complete_cases`: how a survey ends.
-/

namespace EvmCheck
namespace Survey

variable {code : Code} {visited : List Nat} {s s' : Survey} {op : Opcode}

/-- The states that the survey comes to, each with the positions at which it
has read an opcode. -/
inductive Reached (code : Code) : List Nat → Survey → Prop
  | start : Reached code [] (Survey.start code)
  | step {visited : List Nat} {s s' : Survey} {op : Opcode}
      (hs : Reached code visited s) (hop : code[s.position]? = some op)
      (hstep : s.step code op = .next s') :
      Reached code (visited ++ [s.position]) s'

/-- What the state holds after the instructions at `visited`. -/
structure Invariant (code : Code) (visited : List Nat) (s : Survey) : Prop where
  starts_eq : code.starts = visited ++ code.startsFrom s.position
  position_eq : s.position = (visited.getLast?.map code.next).getD 0
  terminated_eq :
    s.terminated = (visited.getLast?.bind (code[·]?)).any Opcode.isTerminal
  sound : ∀ p ∈ visited, code.violation? p = none
  size_jumpdests : s.jumpdests.size = code.size
  size_immediates : s.immediates.size = code.size
  size_targets : s.targets.size = code.size
  mem_jumpdests : ∀ i, s.jumpdests.contains i = true ↔
    i ∈ visited ∧ code[i]? = some Opcode.jumpdest
  mem_immediates : ∀ i, s.immediates.contains i = true ↔
    (i < s.position ∧ i < code.size) ∧ i ∉ visited
  mem_targets : ∀ i : Nat, s.targets.contains i = true ↔
    ∃ p ∈ visited, (i : Int) ∈ code.jumpTargets p

namespace Invariant

variable {p : Nat}

theorem isStart_of_mem (hinv : Invariant code visited s) (h : p ∈ visited) :
    code.IsStart p := by
  rw [← Code.mem_starts_iff, hinv.starts_eq]
  exact List.mem_append_left _ h

theorem isStart_position (hinv : Invariant code visited s)
    (h : s.position < code.size) : code.IsStart s.position := by
  rw [← Code.mem_starts_iff, hinv.starts_eq, Code.startsFrom_of_lt h]
  simp

theorem lt_position_of_mem (hinv : Invariant code visited s)
    (h : p ∈ visited) : p < s.position := by
  by_cases hlt : s.position < code.size
  · have hsorted := code.pairwise_startsFrom 0
    rw [show code.startsFrom 0 = code.starts from rfl, hinv.starts_eq,
      Code.startsFrom_of_lt hlt] at hsorted
    exact (List.pairwise_append.mp hsorted).2.2 p h s.position (by simp)
  · have := (hinv.isStart_of_mem h).lt_size
    omega

/-- The positions visited, in order, are the starts before the next one. -/
theorem visited_eq (hinv : Invariant code visited s) :
    visited = code.starts.filter (· < s.position) := by
  have hbefore : visited.filter (· < s.position) = visited := by
    rw [List.filter_eq_self]
    intro p hp
    simpa using hinv.lt_position_of_mem hp
  have hafter : (code.startsFrom s.position).filter (· < s.position) = [] := by
    rw [List.filter_eq_nil_iff]
    intro p hp
    simpa using Code.le_of_mem_startsFrom hp
  rw [hinv.starts_eq, List.filter_append, hbefore, hafter, List.append_nil]

theorem mem_visited_iff (hinv : Invariant code visited s) :
    p ∈ visited ↔ code.IsStart p ∧ p < s.position := by
  rw [hinv.visited_eq, List.mem_filter, Code.mem_starts_iff, decide_eq_true_eq]

/-- At the end of the code all instruction starts have been visited. -/
theorem mem_visited_of_end (hinv : Invariant code visited s)
    (hend : code.size ≤ s.position) : p ∈ visited ↔ code.IsStart p := by
  rw [hinv.mem_visited_iff, and_iff_left_of_imp]
  intro h
  exact Nat.lt_of_lt_of_le h.lt_size hend

end Invariant

theorem invariant_start (code : Code) : Invariant code [] (start code) where
  starts_eq := rfl
  position_eq := rfl
  terminated_eq := rfl
  sound := by simp
  size_jumpdests := rfl
  size_immediates := rfl
  size_targets := rfl
  mem_jumpdests := by simp [start]
  mem_immediates := by simp [start]
  mem_targets := by simp [start]

/-- A step goes on exactly from an instruction that breaks no rule, to the
state with this instruction added. -/
theorem step_eq_next (hop : code[s.position]? = some op)
    (hstep : s.step code op = .next s') :
    code.violation? s.position = none ∧
      s' = s.advance code op
        { next := code.next s.position
          targets := (code.jumpTargets s.position).map Int.toNat
          fault := none } := by
  have hfault := fault_examine hop
  unfold step at hstep
  cases hv : code.violation? s.position with
  | some cause =>
      rw [hv] at hfault
      simp [hfault] at hstep
  | none =>
      have hexamine := examine_of_sound hop hv
      simp only [hexamine, Step.next.injEq] at hstep
      exact ⟨rfl, hstep.symm⟩

/-- A step stops at an instruction for the rule that it breaks. -/
theorem step_of_violation {cause : Rejection} (hop : code[s.position]? = some op)
    (hv : code.violation? s.position = some cause) :
    s.step code op = .halt cause (s.logging (examine code s.position op)) := by
  have hfault := fault_examine hop
  rw [hv] at hfault
  simp only [step, hfault]

theorem step_of_sound (hop : code[s.position]? = some op)
    (hv : code.violation? s.position = none) : ∃ s', s.step code op = .next s' := by
  have hfault := fault_examine hop
  rw [hv] at hfault
  simp only [step, hfault]
  exact ⟨_, rfl⟩

theorem mem_map_toNat_iff {p t : Nat}
    (hin : ∀ target ∈ code.jumpTargets p, 0 ≤ target ∧ target < code.size) :
    t ∈ (code.jumpTargets p).map Int.toNat ∧ t < code.size ↔
      (t : Int) ∈ code.jumpTargets p := by
  constructor
  · rintro ⟨ht, -⟩
    obtain ⟨target, hmem, rfl⟩ := List.mem_map.mp ht
    rw [Int.toNat_of_nonneg (hin target hmem).1]
    exact hmem
  · intro hmem
    have := (hin t hmem).2
    exact ⟨List.mem_map.mpr ⟨t, hmem, Int.toNat_natCast t⟩, by omega⟩

theorem Invariant.mem_jumpdests_step (hinv : Invariant code visited s)
    (hop : code[s.position]? = some op) (i : Nat) :
    (if op.isMarker then s.jumpdests.insert s.position
        else s.jumpdests).contains i = true ↔
      i ∈ visited ++ [s.position] ∧ code[i]? = some Opcode.jumpdest := by
  have hlt : s.position < code.size := (Array.getElem?_eq_some_iff.mp hop).1
  rw [List.mem_append, List.mem_singleton, or_and_right, ← hinv.mem_jumpdests]
  by_cases hmarker : op.isMarker = true
  · have hjumpdest : code[s.position]? = some Opcode.jumpdest := by
      rw [hop, Opcode.isMarker_iff.mp hmarker]
    rw [if_pos hmarker, PositionSet.contains_insert, hinv.size_jumpdests]
    by_cases hi : s.position = i
    · subst hi
      rw [hjumpdest]
      simp [hlt]
    · have hi' : i ≠ s.position := fun h => hi h.symm
      simp [hi, hi']
  · rw [if_neg hmarker]
    have hother : ¬ (i = s.position ∧ code[i]? = some Opcode.jumpdest) := by
      rintro ⟨rfl, hjumpdest⟩
      rw [hop] at hjumpdest
      exact hmarker (Opcode.isMarker_iff.mpr (Option.some.inj hjumpdest))
    simp [hother]

theorem Invariant.mem_immediates_step (hinv : Invariant code visited s)
    (i : Nat) :
    (s.immediates.insertRange (s.position + 1)
        (min (code.next s.position) code.size)).contains i = true ↔
      (i < code.next s.position ∧ i < code.size) ∧ i ∉ visited ++ [s.position] := by
  have hnext := code.lt_next s.position
  have hbefore : i ∈ visited → i < s.position := hinv.lt_position_of_mem
  rw [PositionSet.contains_insertRange, hinv.size_immediates, Bool.or_eq_true,
    decide_eq_true_eq, hinv.mem_immediates, List.mem_append, List.mem_singleton]
  by_cases hi : i ∈ visited
  · have := hbefore hi
    simp only [hi, not_true, and_false, or_false, true_or, iff_false]
    omega
  · simp only [hi, not_false_iff, and_true, false_or]
    omega

theorem Invariant.mem_targets_step (hinv : Invariant code visited s)
    (hin : ∀ target ∈ code.jumpTargets s.position,
      0 ≤ target ∧ target < code.size) (i : Nat) :
    (s.targets.insertAll
        ((code.jumpTargets s.position).map Int.toNat)).contains i = true ↔
      ∃ p ∈ visited ++ [s.position], (i : Int) ∈ code.jumpTargets p := by
  rw [PositionSet.contains_insertAll, hinv.size_targets, Bool.or_eq_true,
    decide_eq_true_eq, mem_map_toNat_iff hin, hinv.mem_targets]
  constructor
  · rintro (h | ⟨p, hp, h⟩)
    · exact ⟨s.position, by simp, h⟩
    · exact ⟨p, List.mem_append_left _ hp, h⟩
  · rintro ⟨p, hp, h⟩
    rcases List.mem_append.mp hp with hp | hp
    · exact Or.inr ⟨p, hp, h⟩
    · rw [List.mem_singleton.mp hp] at h
      exact Or.inl h

/-- One step keeps the invariant. -/
theorem invariant_step (hinv : Invariant code visited s)
    (hop : code[s.position]? = some op) (hstep : s.step code op = .next s') :
    Invariant code (visited ++ [s.position]) s' := by
  obtain ⟨hsound, rfl⟩ := step_eq_next hop hstep
  have hlt : s.position < code.size := (Array.getElem?_eq_some_iff.mp hop).1
  have hnext := code.lt_next s.position
  obtain ⟨-, -, -, hin⟩ := (Code.violation?_eq_none_iff hop).mp hsound
  refine
    { starts_eq := ?starts
      position_eq := ?position
      terminated_eq := ?terminated
      sound := ?sound
      size_jumpdests := ?sizeJumpdests
      size_immediates := ?sizeImmediates
      size_targets := ?sizeTargets
      mem_jumpdests := ?jumpdests
      mem_immediates := ?immediates
      mem_targets := ?targets }
  case starts =>
    rw [hinv.starts_eq, Code.startsFrom_of_lt hlt]
    simp [advance]
  case position =>
    simp [advance]
  case terminated =>
    simp [advance, hop]
  case sound =>
    intro p hp
    rcases List.mem_append.mp hp with hp | hp
    · exact hinv.sound p hp
    · rw [List.mem_singleton.mp hp]
      exact hsound
  case sizeJumpdests =>
    simp only [advance]
    split <;> simp [hinv.size_jumpdests]
  case sizeImmediates =>
    simp [advance, hinv.size_immediates]
  case sizeTargets =>
    simp [advance, hinv.size_targets]
  case jumpdests =>
    exact hinv.mem_jumpdests_step hop
  case immediates =>
    exact hinv.mem_immediates_step
  case targets =>
    exact hinv.mem_targets_step hin

/-- The invariant holds in every state that the survey comes to. -/
theorem Reached.invariant (h : Reached code visited s) :
    Invariant code visited s := by
  induction h with
  | start =>
      exact invariant_start code
  | step _ hop hstep ih =>
      exact invariant_step ih hop hstep

/-- The survey from a state that it comes to either reads all instructions or
stops at the first one that breaks a rule. -/
theorem complete_cases (h : Reached code visited s) :
    (∃ visited' s', Reached code visited' s' ∧ code.size ≤ s'.position ∧
      complete code s = { outcome := s'.outcome, events := s'.events }) ∨
    (∃ visited' s' op cause, Reached code visited' s' ∧
      code[s'.position]? = some op ∧
      code.violation? s'.position = some cause ∧
      complete code s =
        { outcome := .rejected cause
          events := s'.logging (examine code s'.position op) }) := by
  induction hp : s.position using Code.walk_induction code generalizing s visited with
  | done p hle =>
      left
      have hnone : code[s.position]? = none := Array.getElem?_eq_none (by omega)
      refine ⟨visited, s, h, by omega, ?_⟩
      rw [complete_eq, hnone]
  | step p hlt ih =>
      subst hp
      obtain ⟨op, hop⟩ : ∃ op, code[s.position]? = some op :=
        ⟨_, Array.getElem?_eq_getElem hlt⟩
      cases hv : code.violation? s.position with
      | some cause =>
          right
          refine ⟨visited, s, op, cause, h, hop, hv, ?_⟩
          rw [complete_eq, hop]
          simp only [step_of_violation hop hv]
      | none =>
          obtain ⟨s', hstep⟩ := step_of_sound hop hv
          have hposition : s'.position = code.next s.position := by
            obtain ⟨-, rfl⟩ := step_eq_next hop hstep
            rfl
          have hcomplete : complete code s = complete code s' := by
            rw [complete_eq, hop]
            simp only [hstep]
          rw [hcomplete]
          exact ih (.step h hop hstep) hposition

end Survey
end EvmCheck
