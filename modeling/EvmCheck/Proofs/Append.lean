import EvmCheck.Proofs.Listing
import EvmCheck.Proofs.Locality

/-!
# Code followed by more code

Bytes that are put after code change neither its instructions, as long as these
are not cut off by its end, nor, where accepted code comes first, those of the
code that is put after it.

In the first half `rest` is any code.  What is wrong with an instruction of
`code` may be mended by the bytes that follow, since they move the end of the
code; `Rejection.IsFinal` says which rejections no extension can mend.  In the
second half accepted code comes first.  The second code is then cut into
instructions as it is on its own, with all positions moved by the size of the
first, so its verdict moves with it, unless one of its jumps leads back into
the first code.

**Results.**
* `isStart_append_left_iff`: the starts before the end stay the same.
* `validate_append_final`: the rejections that no extension mends.
* `isStart_append_iff`: the starts of accepted code followed by other code.
* `validate_append`: the outcome for accepted code followed by other code.
-/

namespace EvmCheck
namespace Rejection

/-- No bytes that follow the code can mend what it is rejected for. -/
def IsFinal : Rejection → Prop
  | undefinedOpcode _ _ => True
  | emptyJumpTable _ => True
  | jumpTargetOutOfBounds _ target => target < 0
  | _ => False

/-- The rejection of code that is moved on by `n` bytes. -/
def shift (n : Nat) : Rejection → Rejection
  | undefinedOpcode offset opcode => undefinedOpcode (offset + n) opcode
  | truncatedImmediate offset opcode => truncatedImmediate (offset + n) opcode
  | emptyJumpTable offset => emptyJumpTable (offset + n)
  | jumpTargetOutOfBounds offset target =>
      jumpTargetOutOfBounds (offset + n) (target + n)
  | missingTerminator => missingTerminator
  | jumpIntoImmediateData target => jumpIntoImmediateData (target + n)

/-- A jump out of code of the given size does not lead into the `n` bytes before
it either. -/
def StaysOutside (n size : Nat) : Rejection → Prop
  | jumpTargetOutOfBounds _ target => (size : Int) ≤ target ∨ target + n < 0
  | _ => True

end Rejection

namespace Code

/-- When fewer targets are outside and the first one that was still is, it is
still the first one. -/
theorem find?_of_imp {f g : Int → Bool} {targets : List Int} {target : Int}
    (h : targets.find? f = some target) (hg : g target = true)
    (himp : ∀ t, g t = true → f t = true) : targets.find? g = some target := by
  obtain ⟨-, before, after, hsplit, hbefore⟩ := List.find?_eq_some_iff_append.mp h
  refine List.find?_eq_some_iff_append.mpr ⟨hg, before, after, hsplit, ?_⟩
  intro t ht
  have hf := hbefore t ht
  rw [Bool.not_eq_true'] at hf ⊢
  rw [← Bool.not_eq_true] at hf ⊢
  exact mt (himp t) hf

/-! ### Bytes after the code -/

section Extension

variable {code : Code} (rest : Code) {p : Nat} {op : Opcode}

theorem readsAs_append_left (hnext : code.next p ≤ code.size) :
    ReadsAs code p (code ++ rest) p where
  operand_eq := by
    have hlt := code.lt_next p
    rw [Array.getElem?_append_left (by omega)]
  bytes_eq := by
    intro _ k hk
    unfold next at hnext
    exact Array.getElem?_append_left (by omega)

theorem next_append_left (hnext : code.next p ≤ code.size) :
    (code ++ rest).next p = code.next p :=
  (readsAs_append_left rest hnext).next_eq

/-- Only a jump table without its size byte can become longer. -/
theorem next_le_next_append (h : code[p]? = some op) :
    code.next p ≤ (code ++ rest).next p := by
  have hlt : p < code.size := (Array.getElem?_eq_some_iff.mp h).1
  have h' : (code ++ rest)[p]? = some op := by
    rw [Array.getElem?_append_left hlt, h]
  rw [next_eq_of_getElem? h, next_eq_of_getElem? h']
  cases op.operand with
  | none | data | offset => exact Nat.le_refl _
  | table =>
      by_cases hsize : p + 1 < code.size
      · simp only [operandLength, tableSize?, Array.getElem?_append_left hsize,
          Nat.le_refl]
      · have hnone : code[p + 1]? = none := Array.getElem?_eq_none (by omega)
        simp only [operandLength, tableSize?, tableLength, hnone, Option.map_none,
          Option.getD_none]
        omega

theorem IsStart.append_left (h : code.IsStart p) : (code ++ rest).IsStart p := by
  induction h with
  | first h =>
      exact .first (by rw [Array.size_append]; omega)
  | @next p _ h ih =>
      have hnext := next_append_left rest (Nat.le_of_lt h)
      rw [← hnext]
      exact .next ih (by rw [hnext, Array.size_append]; omega)

/-- Bytes after the code leave the starts before its end as they are. -/
theorem isStart_append_left_iff (hlt : p < code.size) :
    (code ++ rest).IsStart p ↔ code.IsStart p := by
  constructor
  · intro h
    obtain ⟨r, hr, hle, hnext⟩ := exists_isStart_of_lt hlt
    obtain ⟨op, hop⟩ := getElem?_of_isStart hr
    have hmono := next_le_next_append rest hop
    rcases Nat.lt_or_eq_of_le hle with hbefore | rfl
    · -- `p` is an immediate byte of `r`, in the longer code as well
      exact absurd h ((hr.append_left rest).not_isStart hbefore (by omega))
    · exact hr
  · exact IsStart.append_left rest

theorem jumpTargets_append_left (hnext : code.next p ≤ code.size) :
    (code ++ rest).jumpTargets p = code.jumpTargets p := by
  rw [(readsAs_append_left rest hnext).jumpTargets_eq]
  simp

theorem isOutside_of_append {t : Int} (h : (code ++ rest).isOutside t = true) :
    code.isOutside t = true := by
  unfold isOutside at h ⊢
  rw [decide_eq_true_eq, Array.size_append] at h
  rw [decide_eq_true_eq]
  omega

/-- An instruction that breaks no rule and is not cut off still breaks none. -/
theorem violation?_append_of_none (hop : code[p]? = some op)
    (hnext : code.next p ≤ code.size) (h : code.violation? p = none) :
    (code ++ rest).violation? p = none := by
  have hreads := readsAs_append_left rest hnext
  have hop' : (code ++ rest)[p]? = some op := by
    rw [Array.getElem?_append_left (Array.getElem?_eq_some_iff.mp hop).1, hop]
  obtain ⟨hdefined, hoffset, htable, htargets⟩ := (violation?_eq_none_iff hop).mp h
  rw [violation?_eq_none_iff hop', jumpTargets_append_left rest hnext,
    Array.size_append]
  refine ⟨hdefined, ?_, ?_, ?_⟩
  · intro hcase
    have := hoffset hcase
    omega
  · intro hcase
    have := htable hcase
    rw [hreads.entryCount_eq hop hcase]
    omega
  · intro t ht
    have := htargets t ht
    omega

theorem strayJump?_append_of_isFinal {cause : Rejection}
    (hnext : code.next p ≤ code.size) (h : code.strayJump? p = some cause)
    (hfinal : cause.IsFinal) : (code ++ rest).strayJump? p = some cause := by
  obtain ⟨target, hfind, rfl⟩ := Option.map_eq_some_iff.mp h
  have hnegative : (code ++ rest).isOutside target = true :=
    decide_eq_true (Or.inl hfinal)
  rw [strayJump?, jumpTargets_append_left rest hnext,
    find?_of_imp hfind hnegative (fun t => isOutside_of_append rest)]
  rfl

/-- A final rejection of one instruction stays. -/
theorem violation?_append_of_isFinal {cause : Rejection} (hop : code[p]? = some op)
    (h : code.violation? p = some cause) (hfinal : cause.IsFinal) :
    (code ++ rest).violation? p = some cause := by
  have hop' : (code ++ rest)[p]? = some op := by
    rw [Array.getElem?_append_left (Array.getElem?_eq_some_iff.mp hop).1, hop]
  rw [violation?_eq hop] at h
  rw [violation?_eq hop']
  by_cases hdefined : op.isDefined = false
  · rw [if_pos hdefined] at h ⊢
    exact h
  · rw [if_neg hdefined] at h ⊢
    by_cases hcut : (op.operand = .offset ∨ op.operand = .table) ∧ code.size < code.next p
    · rw [if_pos hcut] at h
      cases h
      exact hfinal.elim
    · rw [if_neg hcut] at h
      by_cases hrelative : op.operand = .offset ∨ op.operand = .table
      · have hnext : code.next p ≤ code.size :=
          Nat.le_of_not_lt fun hlt => hcut ⟨hrelative, hlt⟩
        have hfits : ¬ (code ++ rest).size < (code ++ rest).next p := by
          rw [next_append_left rest hnext, Array.size_append]
          omega
        rw [if_neg (fun hcut' => hfits hcut'.2)]
        by_cases htable : op.operand = .table
        · rw [(readsAs_append_left rest hnext).entryCount_eq hop htable]
          split at h
          · rename_i hempty
            rw [if_pos hempty]
            exact h
          · rename_i hempty
            rw [if_neg hempty]
            exact strayJump?_append_of_isFinal rest hnext h hfinal
        · rw [if_neg (fun hempty => htable hempty.1)] at h ⊢
          exact strayJump?_append_of_isFinal rest hnext h hfinal
      · -- without relative offsets no jump goes astray
        obtain ⟨hoffset, htable⟩ := not_or.mp hrelative
        rw [if_neg (fun hempty => htable hempty.1), strayJump?,
          jumpTargets_of_operand hop hoffset htable] at h
        cases h

theorem Verdict.append_final {cause : Rejection} (h : code.Verdict (.rejected cause))
    (hfinal : cause.IsFinal) : (code ++ rest).Verdict (.rejected cause) := by
  cases h with
  | @violation p _ hp hcause hfirst =>
      obtain ⟨op, hop⟩ := getElem?_of_isStart hp
      refine .violation (hp.append_left rest)
        (violation?_append_of_isFinal rest hop hcause hfinal) ?_
      intro q hq hlt
      have hsize := hp.lt_size
      have hq' : code.IsStart q := (isStart_append_left_iff rest (by omega)).mp hq
      have hnext := hq'.next_le hp hlt
      obtain ⟨op', hop'⟩ := getElem?_of_isStart hq'
      exact violation?_append_of_none rest hop' (by omega) (hfirst q hq' hlt)
  | unterminated => exact hfinal.elim
  | intoImmediate => exact hfinal.elim

/-- A jump into immediate data stays one. -/
theorem not_accepted_append {t : Nat} {s : PositionSet}
    (h : code.Verdict (.rejected (.jumpIntoImmediateData t))) :
    ¬ (code ++ rest).Accepted s := by
  intro haccepted
  cases h with
  | violation _ hcause _ => cases offset?_of_violation? hcause
  | intoImmediate hsound hend ht =>
      obtain ⟨⟨p, hp, htarget⟩, hstart⟩ := ht.1
      have hlt := hsound.lt_size_of_isJumpTarget ⟨p, hp, htarget⟩
      have hnext := hend.next_le_size hp
      apply hstart
      rw [← isStart_append_left_iff rest hlt]
      apply haccepted.isStart_of_isJumpTarget
      refine ⟨p, hp.append_left rest, ?_⟩
      rw [jumpTargets_append_left rest hnext]
      exact htarget

/-- **Final rejections.**  Code that is rejected for an undefined opcode, an empty
jump table or a jump to a position before its first byte is rejected for the same
cause whatever follows it, and code with a jump into immediate data is never
accepted, whatever follows it. -/
theorem validate_append_final (code rest : Code) :
    (∀ cause, code.validate = .rejected cause → cause.IsFinal →
      (code ++ rest).validate = .rejected cause) ∧
    (∀ t, code.validate = .rejected (.jumpIntoImmediateData t) →
      ∃ cause, (code ++ rest).validate = .rejected cause) := by
  have hverdict := code.verdict_validate
  constructor
  · intro cause hcause hfinal
    rw [hcause] at hverdict
    exact (verdict_validate _).unique (hverdict.append_final rest hfinal)
  · intro t ht
    rw [ht] at hverdict
    cases houtcome : (code ++ rest).validate with
    | accepted s =>
        have haccepted := validate_eq_accepted_iff.mp houtcome
        exact absurd haccepted (not_accepted_append rest hverdict)
    | rejected cause => exact ⟨cause, rfl⟩

/-- A table without entries, and a jump back into the data of a push, each with
bytes after it that would be rejected, or accepted, on their own. -/
theorem final_before_more_bytes :
    validate (#[0x5e, 0x00] ++ #[0x0c]) = .rejected (.emptyJumpTable 0) ∧
    ∃ cause, validate (#[0x60, 0x00, 0x5c, 0xff, 0xfc, 0x00] ++ #[0x5b, 0x00]) =
      .rejected cause := by
  have htable : validate #[0x5e, 0x00] = .rejected (.emptyJumpTable 0) := by
    decide +kernel
  have hdata : validate #[0x60, 0x00, 0x5c, 0xff, 0xfc, 0x00] =
      .rejected (.jumpIntoImmediateData 1) := by
    decide +kernel
  exact ⟨(validate_append_final _ _).1 _ htable trivial,
    (validate_append_final _ _).2 1 hdata⟩

end Extension

/-! ### Accepted code first -/

section Concatenation

variable {first second : Code} {p : Nat} {op : Opcode}

theorem readsAs_append_right (first second : Code) (p : Nat) :
    ReadsAs second p (first ++ second) (first.size + p) where
  operand_eq := by
    rw [Array.getElem?_append_right (by omega), Nat.add_sub_cancel_left]
  bytes_eq := by
    intro _ k _
    rw [Array.getElem?_append_right (by omega)]
    congr 1
    omega

theorem getElem?_append_right (first second : Code) (p : Nat) :
    (first ++ second)[first.size + p]? = second[p]? := by
  rw [Array.getElem?_append_right (by omega), Nat.add_sub_cancel_left]

theorem next_append_right (first second : Code) (p : Nat) :
    (first ++ second).next (first.size + p) = first.size + second.next p := by
  rw [(readsAs_append_right first second p).next_eq, next]
  omega

theorem jumpTargets_append_right (first second : Code) (p : Nat) :
    (first ++ second).jumpTargets (first.size + p) =
      (second.jumpTargets p).map (· + (first.size : Int)) := by
  rw [(readsAs_append_right first second p).jumpTargets_eq]
  apply List.map_congr_left
  intro target _
  omega

theorem isOutside_of_append_right {t : Int}
    (h : (first ++ second).isOutside (t + first.size) = true) :
    second.isOutside t = true := by
  unfold isOutside at h ⊢
  rw [decide_eq_true_eq, Array.size_append] at h
  rw [decide_eq_true_eq]
  omega

theorem strayJump?_append_right {cause : Rejection}
    (h : second.strayJump? p = some cause)
    (hstays : cause.StaysOutside first.size second.size) :
    (first ++ second).strayJump? (first.size + p) = some (cause.shift first.size) := by
  obtain ⟨target, hfind, rfl⟩ := Option.map_eq_some_iff.mp h
  have houtside : (first ++ second).isOutside (target + first.size) = true := by
    refine decide_eq_true ?_
    rw [Array.size_append]
    simp only [Rejection.StaysOutside] at hstays
    omega
  have hfind' := find?_of_imp
    (g := (first ++ second).isOutside ∘ (· + (first.size : Int))) hfind houtside
    (fun t => isOutside_of_append_right)
  rw [strayJump?, jumpTargets_append_right, List.find?_map, hfind']
  simp [Rejection.shift, Nat.add_comm]

theorem strayJump?_append_right_of_none (h : second.strayJump? p = none) :
    (first ++ second).strayJump? (first.size + p) = none := by
  rw [strayJump?_eq_none_iff] at h ⊢
  rw [jumpTargets_append_right, Array.size_append]
  intro target htarget
  obtain ⟨t, ht, rfl⟩ := List.mem_map.mp htarget
  have := h t ht
  omega

/-- The rules for an instruction of the second code, but for stray jumps, are
those for the same instruction on its own. -/
theorem violation?_append_right_eq (first : Code) (hop : second[p]? = some op) :
    (first ++ second).violation? (first.size + p) =
      if op.isDefined = false then some (.undefinedOpcode (p + first.size) op)
      else if (op.operand = .offset ∨ op.operand = .table) ∧ second.size < second.next p then
        some (.truncatedImmediate (p + first.size) op)
      else if op.operand = .table ∧ second.entryCount p = 0 then
        some (.emptyJumpTable (p + first.size))
      else (first ++ second).strayJump? (first.size + p) := by
  have hreads := readsAs_append_right first second p
  have hop' := (getElem?_append_right first second p).trans hop
  have hcut : (first ++ second).size < (first ++ second).next (first.size + p) ↔
      second.size < second.next p := by
    rw [next_append_right, Array.size_append]
    omega
  have hempty : op.operand = .table ∧ (first ++ second).entryCount (first.size + p) = 0 ↔
      op.operand = .table ∧ second.entryCount p = 0 := by
    refine and_congr_right fun htable => ?_
    rw [hreads.entryCount_eq hop htable]
  rw [violation?_eq hop']
  simp only [hcut, hempty, Nat.add_comm p first.size]

theorem violation?_append_right {cause : Rejection} (hop : second[p]? = some op)
    (h : second.violation? p = some cause)
    (hstays : cause.StaysOutside first.size second.size) :
    (first ++ second).violation? (first.size + p) = some (cause.shift first.size) := by
  rw [violation?_eq hop] at h
  rw [violation?_append_right_eq first hop]
  split_ifs at h ⊢
  · cases h
    rfl
  · cases h
    rfl
  · cases h
    rfl
  · exact strayJump?_append_right h hstays

theorem violation?_append_right_of_none (hop : second[p]? = some op)
    (h : second.violation? p = none) :
    (first ++ second).violation? (first.size + p) = none := by
  rw [violation?_eq hop] at h
  rw [violation?_append_right_eq first hop]
  split_ifs at h ⊢
  exact strayJump?_append_right_of_none h

section Terminated

variable (hend : first.EndsTerminal)
include hend

theorem IsStart.append_right (h : second.IsStart p) :
    (first ++ second).IsStart (first.size + p) := by
  induction h with
  | first h =>
      -- the second code starts where the last instruction of the first one ends
      obtain ⟨q, op, hlast, hop, hterminal⟩ := hend
      obtain ⟨hq, hsize⟩ := isLast_iff.mp hlast
      have hnext : first.next q = first.size :=
        Nat.le_antisymm (EndsTerminal.next_le_size ⟨q, op, hlast, hop, hterminal⟩ hq) hsize
      have hstart := IsStart.next (hq.append_left second)
      rw [next_append_left second (Nat.le_of_eq hnext), hnext, Array.size_append] at hstart
      exact hstart (by omega)
  | @next p _ h ih =>
      rw [← next_append_right]
      refine .next ih ?_
      rw [next_append_right, Array.size_append]
      omega

theorem isStart_append_right_iff :
    (first ++ second).IsStart (first.size + p) ↔ second.IsStart p := by
  constructor
  · intro h
    have hlt : p < second.size := by
      have := h.lt_size
      rw [Array.size_append] at this
      omega
    obtain ⟨r, hr, hle, hnext⟩ := exists_isStart_of_lt hlt
    rcases Nat.lt_or_eq_of_le hle with hbefore | rfl
    · refine absurd h ((hr.append_right hend).not_isStart (by omega) ?_)
      rw [next_append_right]
      omega
    · exact hr
  · exact IsStart.append_right hend

/-- The starts of both codes, those of the second one moved, are all starts. -/
theorem isStart_append_iff :
    (first ++ second).IsStart p ↔
      first.IsStart p ∨ ∃ q, p = first.size + q ∧ second.IsStart q := by
  by_cases hlt : p < first.size
  · rw [isStart_append_left_iff second hlt]
    refine (or_iff_left ?_).symm
    rintro ⟨q, rfl, -⟩
    omega
  · obtain ⟨q, rfl⟩ := Nat.exists_eq_add_of_le (Nat.le_of_not_lt hlt)
    rw [isStart_append_right_iff hend]
    constructor
    · exact fun hq => Or.inr ⟨q, rfl, hq⟩
    · rintro (h | ⟨q', heq, hq'⟩)
      · exact absurd h.lt_size hlt
      · obtain rfl : q = q' := by omega
        exact hq'

theorem isLast_append_right (h : second.IsLast p) :
    (first ++ second).IsLast (first.size + p) := by
  obtain ⟨hp, hsize⟩ := isLast_iff.mp h
  refine isLast_iff.mpr ⟨hp.append_right hend, ?_⟩
  rw [next_append_right, Array.size_append]
  omega

end Terminated

section Accepted

variable {s : PositionSet} (h : first.Accepted s)
include h

/-- The instructions of accepted code break no rule in longer code either. -/
theorem Accepted.violation?_append (hp : first.IsStart p) :
    (first ++ second).violation? p = none := by
  obtain ⟨op, hop⟩ := getElem?_of_isStart hp
  exact violation?_append_of_none second hop (h.next_le_size hp) (h.sound p hp)

theorem Accepted.sound_append (hsound : second.Sound) : (first ++ second).Sound := by
  intro p hp
  rcases (isStart_append_iff h.endsTerminal).mp hp with hp | ⟨q, rfl, hq⟩
  · exact h.violation?_append hp
  · obtain ⟨op, hop⟩ := getElem?_of_isStart hq
    exact violation?_append_right_of_none hop (hsound q hq)

theorem Accepted.endsTerminal_append (hend : second.EndsTerminal) :
    (first ++ second).EndsTerminal := by
  obtain ⟨p, op, hlast, hop, hterminal⟩ := hend
  exact ⟨first.size + p, op, isLast_append_right h.endsTerminal hlast,
    (getElem?_append_right first second p).trans hop, hterminal⟩

/-- A target that is no start is one of the second code: those of accepted code
all are starts. -/
theorem Accepted.stray_target_append_iff (hsound : second.Sound) {t : Nat} :
    (first ++ second).IsJumpTarget t ∧ ¬ (first ++ second).IsStart t ↔
      ∃ u, t = first.size + u ∧ second.IsJumpTarget u ∧ ¬ second.IsStart u := by
  constructor
  · rintro ⟨⟨p, hp, htarget⟩, hstart⟩
    rcases (isStart_append_iff h.endsTerminal).mp hp with hp | ⟨q, rfl, hq⟩
    · rw [jumpTargets_append_left second (h.next_le_size hp)] at htarget
      have ht := h.isStart_of_isJumpTarget t ⟨p, hp, htarget⟩
      exact absurd (ht.append_left second) hstart
    · obtain ⟨op, hop⟩ := getElem?_of_isStart hq
      obtain ⟨-, -, -, hin⟩ := (violation?_eq_none_iff hop).mp (hsound q hq)
      rw [jumpTargets_append_right] at htarget
      obtain ⟨target, hmem, heq⟩ := List.mem_map.mp htarget
      obtain ⟨u, rfl⟩ := Int.eq_ofNat_of_zero_le (hin target hmem).1
      obtain rfl : t = first.size + u := by omega
      rw [isStart_append_right_iff h.endsTerminal] at hstart
      exact ⟨u, rfl, ⟨q, hq, hmem⟩, hstart⟩
  · rintro ⟨u, rfl, ⟨q, hq, hmem⟩, hstart⟩
    rw [isStart_append_right_iff h.endsTerminal]
    refine ⟨⟨first.size + q, hq.append_right h.endsTerminal, ?_⟩, hstart⟩
    rw [jumpTargets_append_right]
    exact List.mem_map.mpr ⟨u, hmem, by omega⟩

theorem Accepted.isLeast_stray_target_append (hsound : second.Sound) {t : Nat}
    (ht : IsLeast {t | second.IsJumpTarget t ∧ ¬ second.IsStart t} t) :
    IsLeast {t | (first ++ second).IsJumpTarget t ∧ ¬ (first ++ second).IsStart t}
      (t + first.size) := by
  refine ⟨(h.stray_target_append_iff hsound).mpr ⟨t, Nat.add_comm t _, ht.1⟩, ?_⟩
  intro v hv
  obtain ⟨u, rfl, hu⟩ := (h.stray_target_append_iff hsound).mp hv
  have := ht.2 hu
  omega

/-- The verdict on the second code moves with it. -/
theorem Accepted.verdict_append_rejected {cause : Rejection} (hsize : 0 < second.size)
    (hverdict : second.Verdict (.rejected cause))
    (hstays : cause.StaysOutside first.size second.size) :
    (first ++ second).Verdict (.rejected (cause.shift first.size)) := by
  cases hverdict with
  | @violation p _ hp hcause hfirst =>
      obtain ⟨op, hop⟩ := getElem?_of_isStart hp
      refine .violation (hp.append_right h.endsTerminal)
        (violation?_append_right hop hcause hstays) ?_
      intro q hq hlt
      rcases (isStart_append_iff h.endsTerminal).mp hq with hq | ⟨r, rfl, hr⟩
      · exact h.violation?_append hq
      · obtain ⟨op', hop'⟩ := getElem?_of_isStart hr
        exact violation?_append_right_of_none hop' (hfirst r hr (by omega))
  | unterminated hsound hend =>
      obtain ⟨p, op, hlast, hop, hterminal⟩ := hend.resolve_left (by omega)
      exact .unterminated (h.sound_append hsound) (Or.inr ⟨first.size + p, op,
        isLast_append_right h.endsTerminal hlast,
        (getElem?_append_right first second p).trans hop, hterminal⟩)
  | intoImmediate hsound hend ht =>
      exact .intoImmediate (h.sound_append hsound) (h.endsTerminal_append hend)
        (h.isLeast_stray_target_append hsound ht)

theorem Accepted.exists_accepted_append {s' : PositionSet} (h' : second.Accepted s') :
    ∃ u, (first ++ second).Accepted u := by
  have hlands : ∀ t, (first ++ second).IsJumpTarget t → (first ++ second).IsStart t := by
    intro t ht
    by_contra hstart
    obtain ⟨u, -, hu, hstart'⟩ := (h.stray_target_append_iff h'.sound).mp ⟨ht, hstart⟩
    exact hstart' (h'.isStart_of_isJumpTarget u hu)
  obtain ⟨u, hu⟩ := exists_accepted_iff.mpr
    ⟨h.sound_append h'.sound, h.endsTerminal_append h'.endsTerminal, hlands⟩
  exact ⟨u, validate_eq_accepted_iff.mp hu⟩

theorem Accepted.contains_append_iff {s' u : PositionSet} (h' : second.Accepted s')
    (hu : (first ++ second).Accepted u) :
    u.contains p = true ↔
      (p < first.size ∧ s.contains p = true) ∨
        (first.size ≤ p ∧ s'.contains (p - first.size) = true) := by
  rw [hu.contains_iff, h.contains_iff, h'.contains_iff]
  by_cases hlt : p < first.size
  · rw [isStart_append_left_iff second hlt, Array.getElem?_append_left hlt]
    simp [hlt, Nat.not_le.mpr hlt]
  · obtain ⟨q, rfl⟩ := Nat.exists_eq_add_of_le (Nat.le_of_not_lt hlt)
    rw [isStart_append_right_iff h.endsTerminal, getElem?_append_right,
      Nat.add_sub_cancel_left]
    simp

end Accepted

/-- **Concatenation.**  When accepted code is followed by other code, the outcome
for both together is that for the second one, moved on by the size of the first:
jump destinations are those of both, and a rejection has its positions moved.
Only a jump out of the second code into the first one is outside one of them and
inside both. -/
theorem validate_append {s : PositionSet} (h : first.validate = .accepted s)
    (hsize : 0 < second.size) :
    (∀ s', second.validate = .accepted s' →
      ∃ u, (first ++ second).validate = .accepted u ∧
        u.size = first.size + second.size ∧
        ∀ p, u.contains p = true ↔
          (p < first.size ∧ s.contains p = true) ∨
            (first.size ≤ p ∧ s'.contains (p - first.size) = true)) ∧
    (∀ cause, second.validate = .rejected cause →
      cause.StaysOutside first.size second.size →
      (first ++ second).validate = .rejected (cause.shift first.size)) := by
  have haccepted := validate_eq_accepted_iff.mp h
  constructor
  · intro s' hs'
    have haccepted' := validate_eq_accepted_iff.mp hs'
    obtain ⟨u, hu⟩ := haccepted.exists_accepted_append haccepted'
    refine ⟨u, validate_eq_accepted_iff.mpr hu, ?_, ?_⟩
    · rw [hu.size_eq, Array.size_append]
    · exact fun p => haccepted.contains_append_iff haccepted' hu
  · intro cause hcause hstays
    have hverdict := second.verdict_validate
    rw [hcause] at hverdict
    exact (verdict_validate _).unique
      (haccepted.verdict_append_rejected hsize hverdict hstays)

/-- After two bytes of accepted code, a marker is found two bytes further on, and
so is the jump that leads into the data of a push. -/
theorem append_after_two_bytes :
    (∃ u, validate (#[0x5b, 0x00] ++ #[0x60, 0x5b, 0x5b, 0x00]) = .accepted u ∧
      u.size = 6 ∧ u.contains 4 = true) ∧
    validate (#[0x5b, 0x00] ++ #[0x60, 0x00, 0x5c, 0xff, 0xfc, 0x00]) =
      .rejected (.jumpIntoImmediateData 3) := by
  have hfirst : validate #[0x5b, 0x00] = .accepted ((PositionSet.empty 2).insert 0) := by
    decide +kernel
  have hmarker : validate #[0x60, 0x5b, 0x5b, 0x00] =
      .accepted ((PositionSet.empty 4).insert 2) := by
    decide +kernel
  have hdata : validate #[0x60, 0x00, 0x5c, 0xff, 0xfc, 0x00] =
      .rejected (.jumpIntoImmediateData 1) := by
    decide +kernel
  obtain ⟨u, hu, hsize, hcontains⟩ := (validate_append hfirst (by decide)).1 _ hmarker
  refine ⟨⟨u, hu, hsize, (hcontains 4).mpr (Or.inr ⟨by decide, by decide⟩)⟩, ?_⟩
  exact (validate_append hfirst (by decide)).2 _ hdata trivial

end Concatenation

end Code
end EvmCheck
