import EvmCheck.Outcome
import EvmCheck.Proofs.Text

/-!
# What reports tell

A cause has two texts, a message for people and a record of its fields, and an
outcome has a description in one line.  No text stands for two causes, and no
description for two causes or for two lists of jump destinations.

A message consists of an opening, by which the kinds of causes differ, and of
details, in which the causes of one kind differ.  The numbers of the details are
cut out at the blanks after them.  A record names the kind and lists the fields,
and a description names the kind before the message.

**Results.**
* `Rejection.message_injective`, `Rejection.eq_of_record`: the cause from its
  message and from its record.
* `Outcome.describe_rejected_injective`, `Outcome.describe_accepted_iff`: what a
  description tells.
* `Outcome.reports_unambiguous`: all of this together.
-/

namespace EvmCheck
namespace Rejection

variable {r r' : Rejection}

/-- Two causes of one kind, each with its own fields. -/
inductive SameKind : Rejection → Rejection → Prop
  | undefinedOpcode (offset offset' : Nat) (opcode opcode' : Opcode) :
      SameKind (.undefinedOpcode offset opcode) (.undefinedOpcode offset' opcode')
  | truncatedImmediate (offset offset' : Nat) (opcode opcode' : Opcode) :
      SameKind (.truncatedImmediate offset opcode) (.truncatedImmediate offset' opcode')
  | emptyJumpTable (offset offset' : Nat) :
      SameKind (.emptyJumpTable offset) (.emptyJumpTable offset')
  | jumpTargetOutOfBounds (offset offset' : Nat) (target target' : Int) :
      SameKind (.jumpTargetOutOfBounds offset target)
        (.jumpTargetOutOfBounds offset' target')
  | missingTerminator :
      SameKind .missingTerminator .missingTerminator
  | jumpIntoImmediateData (target target' : Nat) :
      SameKind (.jumpIntoImmediateData target) (.jumpIntoImmediateData target')

theorem sameKind_of_kind_eq (h : r.kind = r'.kind) : SameKind r r' := by
  cases r <;> cases r' <;> simp [kind] at h <;> constructor

theorem isAlphanum_of_mem_kind {c : Char} (h : c ∈ r.kind.toList) :
    c.isAlphanum = true := by
  have hall : r.kind.toList.all Char.isAlphanum = true := by
    cases r <;> simp [kind]
  exact List.all_eq_true.mp hall c h

/-! ### Messages -/

/-- The words of a message before its first number. -/
def opening : Rejection → String
  | undefinedOpcode _ _ => "undefined opcode "
  | truncatedImmediate _ _ => "truncated immediate of opcode "
  | emptyJumpTable _ => "empty jump table at "
  | jumpTargetOutOfBounds _ _ => "relative jump at "
  | missingTerminator => "code does not end with a terminating instruction"
  | jumpIntoImmediateData _ => "relative jump target "

/-- A message from its first number on. -/
def details : Rejection → String
  | undefinedOpcode offset opcode =>
      opcodeText opcode ++ (" at " ++ offsetText offset)
  | truncatedImmediate offset opcode =>
      opcodeText opcode ++ (" at " ++ offsetText offset)
  | emptyJumpTable offset =>
      offsetText offset
  | jumpTargetOutOfBounds offset target =>
      offsetText offset ++
        (" targets " ++ (Text.signed target ++ ", outside of the code"))
  | missingTerminator => ""
  | jumpIntoImmediateData target =>
      offsetText target ++ " lands in immediate data"

theorem message_eq (r : Rejection) : r.message = r.opening ++ r.details := by
  unfold message opening details
  cases r <;> simp only [String.append_assoc, String.append_empty]

/-- An opening that starts another one belongs to the same kind. -/
theorem sameKind_of_opening (h : r.opening.toList <+: r'.opening.toList) :
    SameKind r r' := by
  cases r <;> cases r' <;> simp [opening] at h <;> constructor

theorem SameKind.symm (h : SameKind r r') : SameKind r' r := by
  cases h <;> constructor

theorem SameKind.opening_eq (h : SameKind r r') : r.opening = r'.opening := by
  cases h <;> rfl

theorem sameKind_of_message (h : r.message = r'.message) : SameKind r r' := by
  have hopening : ∀ r : Rejection, r.opening.toList <+: r.message.toList := by
    intro r
    rw [message_eq, String.toList_append]
    exact List.prefix_append _ _
  have hopening' := hopening r'
  rw [← h] at hopening'
  rcases List.prefix_or_prefix_of_prefix (hopening r) hopening' with hprefix | hprefix
  · exact sameKind_of_opening hprefix
  · exact (sameKind_of_opening hprefix).symm

theorem offsetText_injective {offset offset' : Nat}
    (h : offsetText offset = offsetText offset') : offset = offset' := by
  rw [offsetText, offsetText, String.append_right_inj, Text.hex_eq_hexPadded,
    Text.hex_eq_hexPadded] at h
  exact Text.hexPadded_injective h

theorem opcodeText_injective {opcode opcode' : Opcode}
    (h : opcodeText opcode = opcodeText opcode') : opcode = opcode' := by
  rw [opcodeText, opcodeText, String.append_right_inj] at h
  exact UInt8.toNat_inj.mp (Text.hexPadded_injective h)

theorem blank_not_mem_hexPadded (width n : Nat) :
    ' ' ∉ ("0x" ++ Text.hexPadded width n).toList := by
  have hdigits : ' ' ∉ (Text.hexPadded width n).toList := Text.not_mem_hexPadded rfl
  simp [hdigits]

theorem blank_not_mem_offsetText (offset : Nat) : ' ' ∉ (offsetText offset).toList := by
  rw [offsetText, Text.hex_eq_hexPadded]
  exact blank_not_mem_hexPadded 0 offset

theorem blank_not_mem_opcodeText (opcode : Opcode) :
    ' ' ∉ (opcodeText opcode).toList :=
  blank_not_mem_hexPadded 2 opcode.toNat

/-- A number is cut out of the details at the blank after it. -/
theorem blank_injective {sep s s' t t' : String} {cs : List Char}
    (hsep : sep.toList = ' ' :: cs) (hs : ' ' ∉ s.toList) (hs' : ' ' ∉ s'.toList)
    (h : s ++ (sep ++ t) = s' ++ (sep ++ t')) : s = s' ∧ t = t' :=
  Text.separated_injective hsep (by simp) (Text.forall_mem_ne hs)
    (Text.forall_mem_ne hs') h

/-- An opcode and its offset are cut out of the details that hold both. -/
theorem opcode_offset_injective {offset offset' : Nat} {opcode opcode' : Opcode}
    (h : opcodeText opcode ++ (" at " ++ offsetText offset) =
      opcodeText opcode' ++ (" at " ++ offsetText offset')) :
    opcode = opcode' ∧ offset = offset' := by
  obtain ⟨hopcode, hoffset⟩ := blank_injective rfl (blank_not_mem_opcodeText opcode)
    (blank_not_mem_opcodeText opcode') h
  exact ⟨opcodeText_injective hopcode, offsetText_injective hoffset⟩

/-- Causes of one kind are determined by their details. -/
theorem SameKind.eq_of_details (hkind : SameKind r r') (h : r.details = r'.details) :
    r = r' := by
  cases hkind with
  | undefinedOpcode offset offset' opcode opcode'
  | truncatedImmediate offset offset' opcode opcode' =>
      obtain ⟨rfl, rfl⟩ := opcode_offset_injective h
      rfl
  | emptyJumpTable offset offset' =>
      rw [offsetText_injective h]
  | jumpTargetOutOfBounds offset offset' target target' =>
      obtain ⟨hoffset, htarget⟩ := blank_injective rfl (blank_not_mem_offsetText offset)
        (blank_not_mem_offsetText offset') h
      rw [String.append_left_inj] at htarget
      rw [offsetText_injective hoffset, Text.signed_injective htarget]
  | missingTerminator =>
      rfl
  | jumpIntoImmediateData target target' =>
      rw [details, details, String.append_left_inj] at h
      rw [offsetText_injective h]

/-- The cause can be read back from its message. -/
theorem message_injective (h : r.message = r'.message) : r = r' := by
  have hkind := sameKind_of_message h
  rw [message_eq, message_eq, hkind.opening_eq, String.append_right_inj] at h
  exact hkind.eq_of_details h

/-! ### Records -/

theorem separable_of_mem_fields {field : String × String} (h : field ∈ r.fields) :
    Text.Separable field := by
  have hoffset : ∀ n, Text.Separable ("offset", Text.decimal n) := fun n =>
    ⟨by simp, by simp, Text.not_mem_decimal rfl⟩
  have hopcode : ∀ n, Text.Separable ("opcode", Text.decimal n) := fun n =>
    ⟨by simp, by simp, Text.not_mem_decimal rfl⟩
  have htarget : ∀ n, Text.Separable ("target", Text.signed n) := fun n =>
    ⟨by simp, by simp, Text.not_mem_signed (by simp) rfl⟩
  cases r with
  | undefinedOpcode offset opcode | truncatedImmediate offset opcode =>
      rcases List.mem_pair.mp h with rfl | rfl
      · exact hoffset offset
      · exact hopcode opcode.toNat
  | emptyJumpTable offset =>
      rw [List.mem_singleton.mp h]
      exact hoffset offset
  | jumpTargetOutOfBounds offset target =>
      rcases List.mem_pair.mp h with rfl | rfl
      · exact hoffset offset
      · exact htarget target
  | missingTerminator =>
      cases h
  | jumpIntoImmediateData target =>
      rw [List.mem_singleton.mp h]
      exact htarget target

/-- Causes of one kind are determined by their fields. -/
theorem SameKind.eq_of_fields (hkind : SameKind r r') (h : r.fields = r'.fields) :
    r = r' := by
  cases hkind with
  | undefinedOpcode offset offset' opcode opcode'
  | truncatedImmediate offset offset' opcode opcode' =>
      obtain ⟨hoffset, hopcode⟩ : Text.decimal offset = Text.decimal offset' ∧
          Text.decimal opcode.toNat = Text.decimal opcode'.toNat := by
        simpa [fields] using h
      rw [Text.decimal_injective hoffset,
        UInt8.toNat_inj.mp (Text.decimal_injective hopcode)]
  | emptyJumpTable offset offset' =>
      have hoffset : Text.decimal offset = Text.decimal offset' := by
        simpa [fields] using h
      rw [Text.decimal_injective hoffset]
  | jumpTargetOutOfBounds offset offset' target target' =>
      obtain ⟨hoffset, htarget⟩ : Text.decimal offset = Text.decimal offset' ∧
          Text.signed target = Text.signed target' := by
        simpa [fields] using h
      rw [Text.decimal_injective hoffset, Text.signed_injective htarget]
  | missingTerminator =>
      rfl
  | jumpIntoImmediateData target target' =>
      have htarget : Text.decimal target = Text.decimal target' := by
        simpa [fields] using h
      rw [Text.decimal_injective htarget]

/-- The cause can be read back from its record. -/
theorem eq_of_record (h : r.record = r'.record) : r = r' := by
  obtain ⟨hkind, hfields⟩ := Text.record_injective (fun _ => isAlphanum_of_mem_kind)
    (fun _ => isAlphanum_of_mem_kind) (fun _ => separable_of_mem_fields)
    (fun _ => separable_of_mem_fields) h
  exact (sameKind_of_kind_eq hkind).eq_of_fields hfields

end Rejection

namespace Outcome

/-! ### Descriptions -/

-- Both equations hold by definition, while unfolding `describe` in a proof is slow.

theorem describe_accepted (jumpdests : PositionSet) :
    (accepted jumpdests).describe =
      "valid, jumpdests " ++ Text.positions jumpdests.toList :=
  rfl

theorem describe_rejected (cause : Rejection) :
    (rejected cause).describe =
      "invalid (" ++ cause.kind ++ "): " ++ cause.message :=
  rfl

theorem describe_rejected_injective {cause cause' : Rejection}
    (h : (rejected cause).describe = (rejected cause').describe) : cause = cause' := by
  simp only [describe_rejected, String.append_assoc, String.append_right_inj] at h
  obtain ⟨-, hmessage⟩ := Text.separated_injective rfl rfl
    (fun _ => Rejection.isAlphanum_of_mem_kind)
    (fun _ => Rejection.isAlphanum_of_mem_kind) h
  exact Rejection.message_injective hmessage

theorem describe_accepted_iff {jumpdests jumpdests' : PositionSet} :
    (accepted jumpdests).describe = (accepted jumpdests').describe ↔
      jumpdests.toList = jumpdests'.toList := by
  rw [describe_accepted, describe_accepted, String.append_right_inj]
  exact ⟨Text.positions_injective, congrArg Text.positions⟩

theorem describe_accepted_ne_rejected (jumpdests : PositionSet) (cause : Rejection) :
    (accepted jumpdests).describe ≠ (rejected cause).describe := by
  intro h
  simpa [describe_accepted, describe_rejected] using congrArg String.toList h

/-- **Reports are unambiguous.**  Equal messages have equal causes, and so have equal
records.  Two outcomes have one description exactly when both are rejections for one
cause, or both are acceptances with one list of jump destinations. -/
theorem reports_unambiguous :
    (∀ r r' : Rejection, r.message = r'.message ↔ r = r') ∧
    (∀ r r' : Rejection, r.record = r'.record ↔ r = r') ∧
    (∀ o o' : Outcome, o.describe = o'.describe ↔
      (∃ cause, o = .rejected cause ∧ o' = .rejected cause) ∨
      (∃ jumpdests jumpdests', o = .accepted jumpdests ∧ o' = .accepted jumpdests' ∧
        jumpdests.toList = jumpdests'.toList)) := by
  refine ⟨?messages, ?records, ?descriptions⟩
  case messages =>
    exact fun r r' => ⟨Rejection.message_injective, congrArg Rejection.message⟩
  case records =>
    exact fun r r' => ⟨Rejection.eq_of_record, congrArg Rejection.record⟩
  case descriptions =>
    intro o o'
    cases o with
    | accepted jumpdests =>
        cases o' with
        | accepted jumpdests' => simp [describe_accepted_iff]
        | rejected cause' => simp [describe_accepted_ne_rejected]
    | rejected cause =>
        cases o' with
        | accepted jumpdests' => simp [(describe_accepted_ne_rejected _ _).symm]
        | rejected cause' =>
            constructor
            · intro h
              exact Or.inl ⟨cause, rfl, by rw [describe_rejected_injective h]⟩
            · rintro (⟨_, h, h'⟩ | ⟨_, _, h, _⟩)
              · rw [h, h']
              · cases h

/-- Codes of different lengths have one description if neither has a jump
destination. -/
example : (accepted (.empty 1)).describe = (accepted (.empty 2)).describe :=
  describe_accepted_iff.mpr rfl

end Outcome
end EvmCheck
