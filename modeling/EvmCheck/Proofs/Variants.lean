import EvmCheck.Proofs.Locality
import EvmCheck.Proofs.Reached

/-!
# What validation does not look at

The data of pushes are skipped, and of an opcode without immediate bytes only
its kind matters.  `Variant code code'` says that `code'` differs from `code` in
these two ways at most; the starts are those of `code`, so that nothing is said
about where the bytes that take the place of the data would lead.

The surveys of both stay in lockstep: at every instruction start they find the
same, and so they take the same step from the same state.

**Results.**
* `Variant.step_eq`: one step is the same for both.
* `Variant.complete_eq`: so is the rest of the survey.
* `validate_variant`: outcome and log are the same.
-/

namespace EvmCheck

/-- Both opcodes are defined, have no immediate bytes, and are of one kind. -/
structure Opcode.Interchangeable (op op' : Opcode) : Prop where
  defined : op.isDefined = true
  defined' : op'.isDefined = true
  plain : op.operand = .none
  plain' : op'.operand = .none
  kind_eq : op'.kind = op.kind

namespace Code

variable {code code' : Code} {p : Nat} {op : Opcode}

/-- The byte at `i` is one of the data of a push. -/
def IsPushData (code : Code) (i : Nat) : Prop :=
  ∃ p op, code.IsStart p ∧ code[p]? = some op ∧ ((0x60 : UInt8) ≤ op ∧ op ≤ 0x7f) ∧
    p < i ∧ i < code.next p

/-- The codes differ in the data of pushes and in interchangeable opcodes only. -/
structure Variant (code code' : Code) : Prop where
  size_eq : code'.size = code.size
  byte_cases : ∀ i, i < code.size →
    code'[i]? = code[i]? ∨ code.IsPushData i ∨
      code.IsStart i ∧ ∃ op op', code[i]? = some op ∧ code'[i]? = some op' ∧
        Opcode.Interchangeable op op'

theorem not_isPushData_of_isStart (hp : code.IsStart p) : ¬ code.IsPushData p := by
  rintro ⟨r, -, hr, -, -, hlt, hnext⟩
  exact hr.not_isStart hlt hnext hp

/-- Immediate bytes of another instruction are no data of a push. -/
theorem not_isPushData_of_immediate {i : Nat} (hp : code.IsStart p)
    (hop : code[p]? = some op) (hdata : ¬ (0x60 ≤ op ∧ op ≤ 0x7f))
    (hlt : p < i) (hnext : i < code.next p) : ¬ code.IsPushData i := by
  rintro ⟨r, op', hr, hop', hpush, hlt', hnext'⟩
  -- the byte belongs to one instruction only
  rcases Nat.lt_trichotomy r p with hbefore | rfl | hafter
  · have := hr.next_le hp hbefore
    omega
  · rw [hop, Option.some.injEq] at hop'
    rw [hop'] at hdata
    exact hdata hpush
  · have := hp.next_le hr hafter
    omega

namespace Variant

variable (h : Variant code code')
include h

theorem exists_opcode (hp : code.IsStart p) (hop : code[p]? = some op) :
    ∃ op', code'[p]? = some op' ∧ (op' = op ∨ Opcode.Interchangeable op op') := by
  rcases h.byte_cases p hp.lt_size with heq | hdata | ⟨-, op₁, op', hop₁, hop', hsame⟩
  · exact ⟨op, heq.trans hop, Or.inl rfl⟩
  · exact absurd hdata (not_isPushData_of_isStart hp)
  · rw [hop, Option.some.injEq] at hop₁
    rw [← hop₁] at hsame
    exact ⟨op', hop', Or.inr hsame⟩

/-- Every instruction is made as the one of the other code at its position is. -/
theorem readsAs (hp : code.IsStart p) : ReadsAs code p code' p := by
  obtain ⟨op, hop⟩ := getElem?_of_isStart hp
  obtain ⟨op', hop', hsame⟩ := h.exists_opcode hp hop
  refine ⟨?_, ?_⟩
  · rw [hop, hop', Option.map_some, Option.map_some]
    rcases hsame with rfl | hsame
    · rfl
    · rw [hsame.plain, hsame.plain']
  · intro hdata k hk
    have hpush : ¬ (0x60 ≤ op ∧ op ≤ 0x7f) := by
      rcases op.operand_cases with ⟨-, hcase⟩ | ⟨-, hcase⟩ | ⟨hcase, -⟩ | ⟨-, hcase, -⟩
      · rcases hcase with rfl | rfl <;> decide
      · rw [hcase]
        decide
      · rw [hop, Option.map_some, hcase] at hdata
        exact absurd rfl (hdata _)
      · exact hcase
    have hnext : p + 1 + k < code.next p := by
      unfold next
      omega
    by_cases hlt : p + 1 + k < code.size
    · rcases h.byte_cases _ hlt with heq | hpushData | ⟨hstart, -⟩
      · exact heq
      · exact absurd hpushData
          (not_isPushData_of_immediate hp hop hpush (by omega) hnext)
      · exact absurd hstart (hp.not_isStart (by omega) hnext)
    · rw [Array.getElem?_eq_none (by rw [h.size_eq]; omega),
        Array.getElem?_eq_none (by omega)]

/-- What the survey finds out about an instruction of either code. -/
theorem examine_eq {op' : Opcode} (hp : code.IsStart p) (hop : code[p]? = some op)
    (hsame : op' = op ∨ Opcode.Interchangeable op op') :
    Survey.examine code' p op' = Survey.examine code p op := by
  rcases hsame with rfl | hsame
  · exact (h.readsAs hp).examine_eq h.size_eq hop
  · have hkind : op.kind ≠ .undefined := by
      simpa [Opcode.isDefined] using hsame.defined
    unfold Survey.examine
    rw [hsame.kind_eq, if_neg hkind, if_neg hkind, hsame.plain, hsame.plain']

/-- One step from a state at an instruction start is the same for both codes. -/
theorem step_eq {s : Survey} {op' : Opcode} (hp : code.IsStart s.position)
    (hop : code[s.position]? = some op)
    (hsame : op' = op ∨ Opcode.Interchangeable op op') :
    s.step code' op' = s.step code op := by
  have hkind : op'.kind = op.kind := by
    rcases hsame with rfl | hsame
    · rfl
    · exact hsame.kind_eq
  have hadvance : s.advance code' op' = s.advance code op := by
    have hterminal : op'.isTerminal = op.isTerminal := by
      rw [Opcode.isTerminal, hkind, Opcode.isTerminal]
    have hmarker : op'.isMarker = op.isMarker := by
      rw [Opcode.isMarker, hkind, Opcode.isMarker]
    funext found
    simp only [Survey.advance, hterminal, hmarker, h.size_eq]
  simp only [Survey.step, h.examine_eq hp hop hsame, hadvance]

/-- From every state at an instruction start on, both surveys do the same. -/
theorem complete_eq {s : Survey} (hs : s.position < code.size → code.IsStart s.position) :
    Survey.complete code' s = Survey.complete code s := by
  induction hp : s.position using walk_induction code generalizing s with
  | done p hle =>
      rw [Survey.complete_eq, Survey.complete_eq,
        Array.getElem?_eq_none (by rw [h.size_eq]; omega),
        Array.getElem?_eq_none (by omega)]
  | step p hlt ih =>
      subst hp
      obtain ⟨op, hop⟩ := getElem?_of_isStart (hs hlt)
      obtain ⟨op', hop', hsame⟩ := h.exists_opcode (hs hlt) hop
      rw [Survey.complete_eq, Survey.complete_eq, hop, hop']
      simp only [h.step_eq (hs hlt) hop hsame]
      cases hstep : s.step code op with
      | halt cause events => rfl
      | next s' =>
          have hposition : s'.position = code.next s.position := by
            obtain ⟨-, rfl⟩ := Survey.step_eq_next hop hstep
            rfl
          refine ih (fun hnext => ?_) hposition
          rw [hposition] at hnext ⊢
          exact .next (hs hlt) hnext

end Variant

/-- **Push data and the choice of opcodes do not matter.**  Codes that differ only
in the data of pushes and in opcodes without immediate bytes, where the kind is
kept, have the same outcome and the same log. -/
theorem validate_variant (h : Variant code code') :
    code'.validate = code.validate ∧
      code'.validateLogged.events = code.validateLogged.events := by
  have hstart : Survey.start code' = Survey.start code := by
    simp only [Survey.start, h.size_eq]
  have hcomplete : Survey.complete code' (Survey.start code') =
      Survey.complete code (Survey.start code) := by
    rw [hstart]
    exact h.complete_eq IsStart.first
  have hclosing : code'.closingEvent = code.closingEvent := by
    funext outcome
    cases outcome <;> simp only [closingEvent, h.size_eq]
  simp only [validate, validateLogged, hcomplete, hclosing, and_self]

/-- The data of the push become a jump table without a size, the addition a
multiplication, and the end another one. -/
theorem validate_variant_of_push :
    validate #[0x60, 0x5e, 0x02, 0x5c, 0xff, 0xfd, 0xfe] =
      validate #[0x60, 0x5b, 0x01, 0x5c, 0xff, 0xfd, 0x00] ∧
    (validateLogged #[0x60, 0x5e, 0x02, 0x5c, 0xff, 0xfd, 0xfe]).events =
      (validateLogged #[0x60, 0x5b, 0x01, 0x5c, 0xff, 0xfd, 0x00]).events := by
  have hstart : ∀ p ∈ [0, 2, 3, 6], IsStart #[0x60, 0x5b, 0x01, 0x5c, 0xff, 0xfd, 0x00] p := by
    intro p hp
    have hstarts : starts #[0x60, 0x5b, 0x01, 0x5c, 0xff, 0xfd, 0x00] = [0, 2, 3, 6] := by
      decide +kernel
    rw [← mem_starts_iff, hstarts]
    exact hp
  refine validate_variant ⟨rfl, ?_⟩
  intro i hi
  have hcases : i = 1 ∨ i = 2 ∨ i = 6 ∨ i = 0 ∨ i = 3 ∨ i = 4 ∨ i = 5 := by
    have hi : i < 7 := hi
    omega
  rcases hcases with rfl | rfl | rfl | hrest
  · exact Or.inr (Or.inl
      ⟨0, 0x60, hstart 0 (by decide), rfl, by decide, by decide, by decide⟩)
  · exact Or.inr (Or.inr ⟨hstart 2 (by decide), 0x01, 0x02, rfl, rfl,
      by decide, by decide, by decide, by decide, by decide⟩)
  · exact Or.inr (Or.inr ⟨hstart 6 (by decide), 0x00, 0xfe, rfl, rfl,
      by decide, by decide, by decide, by decide, by decide⟩)
  · rcases hrest with rfl | rfl | rfl | rfl <;> exact Or.inl rfl

end Code
end EvmCheck
