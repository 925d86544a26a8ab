import EvmCheck.Proofs.Members
import EvmCheck.Proofs.Reached
import Mathlib.Order.Bounds.Basic

/-!
# The verdict on code

`Verdict` states the rules for the whole code without a survey: the first
instruction that breaks a rule decides; if there is none, the last instruction
must be terminal; and then the least target that is no instruction start
decides.  Code that passes all of this is accepted with its marker
instructions.

**Results.**
* `Verdict.unique`: the rules give no code two verdicts.
* `verdict_validate`: validation gives the verdict of the rules.
* `validate_eq_iff_verdict`: it gives this one and no other, and it finds no
  terminator in code that ends within the data of a push.
-/

namespace EvmCheck
namespace Code

variable {code : Code} {p : Nat}

/-- No instruction of the code breaks a rule. -/
def Sound (code : Code) : Prop :=
  ∀ p, code.IsStart p → code.violation? p = none

/-- The last instruction start. -/
def IsLast (code : Code) (p : Nat) : Prop :=
  code.IsStart p ∧ ∀ q, code.IsStart q → q ≤ p

/-- The last instruction exists and is terminal. -/
def EndsTerminal (code : Code) : Prop :=
  ∃ p op, code.IsLast p ∧ code[p]? = some op ∧ Opcode.isTerminal op = true

/-- The position is the target of a relative jump. -/
def IsJumpTarget (code : Code) (t : Nat) : Prop :=
  ∃ p, code.IsStart p ∧ (t : Int) ∈ code.jumpTargets p

/-- The code keeps all rules, and the members of `s` are its marker
instructions. -/
structure Accepted (code : Code) (s : PositionSet) : Prop where
  sound : code.Sound
  endsTerminal : code.EndsTerminal
  isStart_of_isJumpTarget : ∀ t, code.IsJumpTarget t → code.IsStart t
  size_eq : s.size = code.size
  contains_iff : ∀ p, s.contains p = true ↔
    code.IsStart p ∧ code[p]? = some Opcode.jumpdest

/-- What the rules say about code. -/
inductive Verdict (code : Code) : Outcome → Prop
  /-- The first instruction that breaks a rule decides. -/
  | violation {p : Nat} {cause : Rejection} (hp : code.IsStart p)
      (hcause : code.violation? p = some cause)
      (hfirst : ∀ q, code.IsStart q → q < p → code.violation? q = none) :
      Verdict code (.rejected cause)
  /-- There is no instruction, or the last one is not terminal. -/
  | unterminated (hsound : code.Sound)
      (hend : code.size = 0 ∨
        ∃ p op, code.IsLast p ∧ code[p]? = some op ∧
          Opcode.isTerminal op = false) :
      Verdict code (.rejected .missingTerminator)
  /-- The least target that is no instruction start decides. -/
  | intoImmediate {t : Nat} (hsound : code.Sound) (hend : code.EndsTerminal)
      (ht : IsLeast {t | code.IsJumpTarget t ∧ ¬ code.IsStart t} t) :
      Verdict code (.rejected (.jumpIntoImmediateData t))
  /-- All rules are kept. -/
  | accepted {s : PositionSet} (h : code.Accepted s) : Verdict code (.accepted s)

theorem isLast_iff :
    code.IsLast p ↔ code.IsStart p ∧ code.size ≤ code.next p := by
  constructor
  · rintro ⟨hp, hgreatest⟩
    refine ⟨hp, Nat.le_of_not_lt fun hlt => ?_⟩
    have := hgreatest _ (.next hp hlt)
    have := code.lt_next p
    omega
  · rintro ⟨hp, hsize⟩
    exact ⟨hp, fun q hq => hq.le_last hp hsize⟩

theorem IsLast.eq {q : Nat} (hp : code.IsLast p) (hq : code.IsLast q) : p = q :=
  Nat.le_antisymm (hq.2 p hp.1) (hp.2 q hq.1)

/-- Code does not end with a terminal instruction when it is empty or when its
last instruction is not terminal. -/
theorem not_endsTerminal_iff :
    ¬ code.EndsTerminal ↔
      code.size = 0 ∨
        ∃ p op, code.IsLast p ∧ code[p]? = some op ∧
          Opcode.isTerminal op = false := by
  constructor
  · intro h
    by_cases hsize : code.size = 0
    · exact Or.inl hsize
    · right
      obtain ⟨p, hlast⟩ := exists_last (Nat.pos_of_ne_zero hsize)
      obtain ⟨op, hop⟩ := getElem?_of_isStart hlast.1
      refine ⟨p, op, isLast_iff.mpr hlast, hop, ?_⟩
      rw [← Bool.not_eq_true]
      exact fun hterminal => h ⟨p, op, isLast_iff.mpr hlast, hop, hterminal⟩
  · rintro (hsize | ⟨p, op, hlast, hop, hfalse⟩) ⟨q, op', hq, hop', hterminal⟩
    · have := hq.1.lt_size
      omega
    · obtain rfl := hlast.eq hq
      rw [hop, Option.some.injEq] at hop'
      rw [← hop', hfalse] at hterminal
      exact Bool.false_ne_true hterminal

theorem Accepted.eq {s s' : PositionSet} (h : code.Accepted s)
    (h' : code.Accepted s') : s = s' := by
  apply PositionSet.ext_of_contains (h.size_eq.trans h'.size_eq.symm)
  intro p
  rw [Bool.eq_iff_iff, h.contains_iff, h'.contains_iff]

/-- In code that ends with a terminal instruction, every other one is followed by
another instruction. -/
theorem EndsTerminal.next_isStart (h : code.EndsTerminal) {op : Opcode}
    (hp : code.IsStart p) (hop : code[p]? = some op)
    (hterminal : op.isTerminal = false) : code.IsStart (code.next p) := by
  by_cases hlt : code.next p < code.size
  · exact .next hp hlt
  · -- otherwise `p` is the last start, and the last instruction is terminal
    obtain ⟨q, op', hlast, hop', hterminal'⟩ := h
    obtain rfl := hlast.eq (isLast_iff.mpr ⟨hp, Nat.le_of_not_lt hlt⟩)
    rw [hop, Option.some.injEq] at hop'
    rw [← hop', hterminal] at hterminal'
    exact absurd hterminal' Bool.false_ne_true

/-- In code that ends with a terminal instruction, no instruction is cut off. -/
theorem EndsTerminal.next_le_size (h : code.EndsTerminal) (hp : code.IsStart p) :
    code.next p ≤ code.size := by
  obtain ⟨op, hop⟩ := getElem?_of_isStart hp
  by_cases hterminal : op.isTerminal = true
  · rw [next_of_isTerminal hop hterminal]
    exact hp.lt_size
  · exact Nat.le_of_lt (h.next_isStart hp hop (by simpa using hterminal)).lt_size

theorem Accepted.next_isStart {s : PositionSet} (h : code.Accepted s)
    {op : Opcode} (hp : code.IsStart p) (hop : code[p]? = some op)
    (hterminal : op.isTerminal = false) : code.IsStart (code.next p) :=
  h.endsTerminal.next_isStart hp hop hterminal

theorem Accepted.next_le_size {s : PositionSet} (h : code.Accepted s)
    (hp : code.IsStart p) : code.next p ≤ code.size :=
  h.endsTerminal.next_le_size hp

/-- The rules give no code two verdicts. -/
theorem Verdict.unique {o o' : Outcome} (h : code.Verdict o)
    (h' : code.Verdict o') : o = o' := by
  cases h with
  | @violation p cause hp hcause hfirst =>
      cases h' with
      | @violation q cause' hq hcause' hfirst' =>
          rcases Nat.lt_trichotomy p q with hlt | rfl | hlt
          · have hnone := hfirst' p hp hlt
            rw [hcause] at hnone
            cases hnone
          · rw [hcause, Option.some.injEq] at hcause'
            rw [hcause']
          · have hnone := hfirst q hq hlt
            rw [hcause'] at hnone
            cases hnone
      | unterminated hsound _ => simp [hsound p hp] at hcause
      | intoImmediate hsound _ _ => simp [hsound p hp] at hcause
      | accepted h => simp [h.sound p hp] at hcause
  | unterminated hsound hend =>
      have hnot := not_endsTerminal_iff.mpr hend
      cases h' with
      | violation hp hcause _ => simp [hsound _ hp] at hcause
      | unterminated => rfl
      | intoImmediate _ hend' _ => exact absurd hend' hnot
      | accepted h => exact absurd h.endsTerminal hnot
  | intoImmediate hsound hend ht =>
      cases h' with
      | violation hp hcause _ => simp [hsound _ hp] at hcause
      | unterminated _ hend' => exact absurd hend (not_endsTerminal_iff.mpr hend')
      | intoImmediate _ _ ht' => rw [ht.unique ht']
      | accepted h => exact absurd (h.isStart_of_isJumpTarget _ ht.1.1) ht.1.2
  | accepted h =>
      cases h' with
      | violation hp hcause _ => simp [h.sound _ hp] at hcause
      | unterminated _ hend =>
          exact absurd h.endsTerminal (not_endsTerminal_iff.mpr hend)
      | intoImmediate _ _ ht =>
          exact absurd (h.isStart_of_isJumpTarget _ ht.1.1) ht.1.2
      | accepted h' => rw [h.eq h']

theorem Sound.lt_size_of_isJumpTarget {t : Nat} (hsound : code.Sound)
    (ht : code.IsJumpTarget t) : t < code.size := by
  obtain ⟨p, hp, hmem⟩ := ht
  obtain ⟨op, hop⟩ := getElem?_of_isStart hp
  obtain ⟨-, -, -, hin⟩ := (violation?_eq_none_iff hop).mp (hsound p hp)
  have := (hin t hmem).2
  omega

end Code

namespace Survey

variable {code : Code} {visited : List Nat} {s : Survey}

theorem Invariant.sound_of_end (hinv : Invariant code visited s)
    (hend : code.size ≤ s.position) : code.Sound := by
  intro p hp
  exact hinv.sound p ((hinv.mem_visited_of_end hend).mpr hp)

/-- At the end of the code the state knows whether the last instruction is
terminal. -/
theorem Invariant.terminated_iff (hinv : Invariant code visited s)
    (hend : code.size ≤ s.position) :
    s.terminated = true ↔ code.EndsTerminal := by
  have hposition := hinv.position_eq
  rw [hinv.terminated_eq]
  cases hlast : visited.getLast? with
  | none =>
      rw [hlast] at hposition
      have hsize : code.size = 0 := by
        simp only [Option.map_none, Option.getD_none] at hposition
        omega
      have hnot := Code.not_endsTerminal_iff.mpr (Or.inl hsize)
      simp [hnot]
  | some p =>
      rw [hlast] at hposition
      simp only [Option.map_some, Option.getD_some] at hposition
      have hp := hinv.isStart_of_mem (List.mem_of_getLast? hlast)
      have hlast : code.IsLast p := Code.isLast_iff.mpr ⟨hp, by omega⟩
      obtain ⟨op, hop⟩ := Code.getElem?_of_isStart hp
      simp only [Option.bind_some, hop, Option.any_some]
      constructor
      · intro hterminal
        exact ⟨p, op, hlast, hop, hterminal⟩
      · rintro ⟨q, op', hq, hop', hterminal⟩
        obtain rfl := hlast.eq hq
        rw [hop, Option.some.injEq] at hop'
        rw [hop']
        exact hterminal

/-- At the end of the code the targets in immediate data are those that are no
instruction starts. -/
theorem Invariant.target_in_immediate_iff (hinv : Invariant code visited s)
    (hend : code.size ≤ s.position) (t : Nat) :
    s.targets.contains t = true ∧ s.immediates.contains t = true ↔
      code.IsJumpTarget t ∧ ¬ code.IsStart t := by
  have hvisited := fun p => hinv.mem_visited_of_end (p := p) hend
  have htarget : s.targets.contains t = true ↔ code.IsJumpTarget t := by
    simp only [hinv.mem_targets, hvisited, Code.IsJumpTarget]
  rw [htarget, hinv.mem_immediates, hvisited]
  constructor
  · rintro ⟨ht, -, hstart⟩
    exact ⟨ht, hstart⟩
  · rintro ⟨ht, hstart⟩
    have hlt := (hinv.sound_of_end hend).lt_size_of_isJumpTarget ht
    exact ⟨ht, ⟨by omega, hlt⟩, hstart⟩

theorem verdict_outcome (hinv : Invariant code visited s)
    (hend : code.size ≤ s.position) : code.Verdict s.outcome := by
  have hsound := hinv.sound_of_end hend
  have hinside := hinv.target_in_immediate_iff hend
  unfold outcome
  by_cases hterm : s.terminated = true
  · have hends := (hinv.terminated_iff hend).mp hterm
    rw [if_pos hterm]
    cases hfind : s.targets.toList.find? s.immediates.contains with
    | some t =>
        obtain ⟨ht, hleast⟩ := PositionSet.find?_toList_eq_some_iff.mp hfind
        refine .intoImmediate hsound hends ⟨(hinside t).mp ht, ?_⟩
        intro u hu
        refine Nat.le_of_not_lt fun hlt => hleast u hlt ?_
        exact (hinside u).mpr hu
    | none =>
        have hnone := PositionSet.find?_toList_eq_none_iff.mp hfind
        refine .accepted ⟨hsound, hends, ?_, hinv.size_jumpdests, ?_⟩
        · intro t ht
          by_contra hstart
          exact hnone t ((hinside t).mpr ⟨ht, hstart⟩)
        · intro p
          rw [hinv.mem_jumpdests, hinv.mem_visited_of_end hend]
  · have hnot := mt (hinv.terminated_iff hend).mpr hterm
    rw [if_neg hterm]
    exact .unterminated hsound (Code.not_endsTerminal_iff.mp hnot)

end Survey

namespace Code

variable {code : Code} {p : Nat}

/-- Validation gives the verdict of the rules. -/
theorem verdict_validate (code : Code) : code.Verdict code.validate := by
  have hvalidate : code.validate =
      (Survey.complete code (Survey.start code)).outcome := rfl
  have hstart : Survey.Reached code [] (Survey.start code) := .start
  rcases Survey.complete_cases hstart with
    ⟨visited, s, hreached, hend, hcomplete⟩ |
      ⟨visited, s, op, cause, hreached, hop, hcause, hcomplete⟩
  · rw [hvalidate, hcomplete]
    exact Survey.verdict_outcome hreached.invariant hend
  · rw [hvalidate, hcomplete]
    have hinv := hreached.invariant
    have hlt : s.position < code.size := (Array.getElem?_eq_some_iff.mp hop).1
    refine .violation (hinv.isStart_position hlt) hcause ?_
    intro q hq hbefore
    exact hinv.sound q (hinv.mem_visited_iff.mpr ⟨hq, hbefore⟩)

/-- Code is accepted exactly when it keeps all rules. -/
theorem validate_eq_accepted_iff {s : PositionSet} :
    code.validate = .accepted s ↔ code.Accepted s := by
  have h := code.verdict_validate
  constructor
  · intro haccepted
    rw [haccepted] at h
    cases h with
    | accepted h => exact h
  · intro haccepted
    exact h.unique (.accepted haccepted)

/-- Code is accepted exactly when no instruction breaks a rule, the last one is
terminal, and all relative jumps lead to instructions. -/
theorem exists_accepted_iff :
    (∃ s, code.validate = .accepted s) ↔
      code.Sound ∧ code.EndsTerminal ∧
        ∀ t, code.IsJumpTarget t → code.IsStart t := by
  constructor
  · rintro ⟨s, hs⟩
    have h := validate_eq_accepted_iff.mp hs
    exact ⟨h.sound, h.endsTerminal, h.isStart_of_isJumpTarget⟩
  · rintro ⟨hsound, hend, htargets⟩
    have h := code.verdict_validate
    generalize code.validate = outcome at h
    cases h with
    | violation hp hcause _ => simp [hsound _ hp] at hcause
    | unterminated _ hend' => exact absurd hend (not_endsTerminal_iff.mpr hend')
    | intoImmediate _ _ ht => exact absurd (htargets _ ht.1.1) ht.1.2
    | @accepted s _ => exact ⟨s, rfl⟩

/-- **Exact rejection cause.**  Validation gives an outcome exactly when the
rules do; in particular, code without violations whose last instruction is a
push with data cut off by the end has no terminator. -/
theorem validate_eq_iff_verdict (code : Code) :
    (∀ outcome, code.validate = outcome ↔ code.Verdict outcome) ∧
    (∀ p op width, code.Sound → code.IsStart p → code[p]? = some op →
      Opcode.operand op = .data width → code.size < code.next p →
      code.validate = .rejected .missingTerminator) := by
  have hverdict : ∀ outcome, code.validate = outcome ↔ code.Verdict outcome := by
    intro outcome
    constructor
    · rintro rfl
      exact code.verdict_validate
    · intro h
      exact code.verdict_validate.unique h
  refine ⟨hverdict, ?_⟩
  intro p op width hsound hp hop _ hcut
  rw [hverdict]
  have hlast : code.IsLast p := isLast_iff.mpr ⟨hp, Nat.le_of_lt hcut⟩
  have hterminal : Opcode.isTerminal op = false := by
    rw [← Bool.not_eq_true]
    intro hterminal
    have := next_of_isTerminal hop hterminal
    have := hp.lt_size
    omega
  exact .unterminated hsound (Or.inr ⟨p, op, hlast, hop, hterminal⟩)

/-- A terminal opcode that is data of a push, which asks for 32 bytes; a relative jump
far behind the end; and one that goes back to its own last byte. -/
theorem validate_cut_push_and_jumps :
    validate #[0x7f, 0x00] = .rejected .missingTerminator ∧
    validate #[0x5c, 0x7f, 0xff, 0x00] = .rejected (.jumpTargetOutOfBounds 0 32770) ∧
    validate #[0x5c, 0xff, 0xff, 0x00] = .rejected (.jumpIntoImmediateData 2) := by
  refine ⟨?push, ?stray, ?back⟩
  case push =>
    have hsound : Sound #[0x7f, 0x00] := by
      intro p hp
      have hstarts : starts #[0x7f, 0x00] = [0] := by decide +kernel
      rw [← mem_starts_iff, hstarts, List.mem_singleton] at hp
      rw [hp]
      decide
    exact (validate_eq_iff_verdict #[0x7f, 0x00]).2 0 0x7f 32 hsound
      (.first (by decide)) rfl (by decide) (by decide)
  case stray =>
    have hfirst : ∀ q, IsStart #[0x5c, 0x7f, 0xff, 0x00] q → q < 0 →
        violation? #[0x5c, 0x7f, 0xff, 0x00] q = none :=
      fun q _ hlt => absurd hlt (Nat.not_lt_zero q)
    exact ((validate_eq_iff_verdict #[0x5c, 0x7f, 0xff, 0x00]).1 _).mpr
      (.violation (.first (by decide)) (by decide +kernel) hfirst)
  case back =>
    have hstart : ∀ p, IsStart #[0x5c, 0xff, 0xff, 0x00] p ↔ p = 0 ∨ p = 3 := by
      intro p
      have hstarts : starts #[0x5c, 0xff, 0xff, 0x00] = [0, 3] := by decide +kernel
      rw [← mem_starts_iff, hstarts]
      simp
    have hsound : Sound #[0x5c, 0xff, 0xff, 0x00] := by
      intro p hp
      rcases (hstart p).mp hp with rfl | rfl <;> decide +kernel
    have hend : EndsTerminal #[0x5c, 0xff, 0xff, 0x00] :=
      ⟨3, 0x00, isLast_iff.mpr ⟨(hstart 3).mpr (Or.inr rfl), by decide⟩, rfl, by decide⟩
    have hleast : IsLeast {t | IsJumpTarget #[0x5c, 0xff, 0xff, 0x00] t ∧
        ¬ IsStart #[0x5c, 0xff, 0xff, 0x00] t} 2 := by
      constructor
      · refine ⟨⟨0, (hstart 0).mpr (Or.inl rfl), by decide +kernel⟩, ?_⟩
        rw [hstart]
        decide
      · rintro t ⟨⟨p, hp, ht⟩, -⟩
        have htargets : jumpTargets #[0x5c, 0xff, 0xff, 0x00] 0 = [2] ∧
            jumpTargets #[0x5c, 0xff, 0xff, 0x00] 3 = [] := by
          decide +kernel
        rcases (hstart p).mp hp with rfl | rfl
        · rw [htargets.1, List.mem_singleton] at ht
          omega
        · rw [htargets.2] at ht
          cases ht
    exact ((validate_eq_iff_verdict #[0x5c, 0xff, 0xff, 0x00]).1 _).mpr
      (.intoImmediate hsound hend hleast)

end Code
end EvmCheck
