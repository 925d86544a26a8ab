import EvmCheck.Opcode
import Mathlib.Data.List.Nodup
import Mathlib.Data.List.Pairwise

/-!
# Opcodes and their operands

Which opcodes have which operand, and which of them are terminal or markers, in
terms of the bytes; and what their mnemonics are like.  All that is proved about
the tables of opcodes is proved here.
-/

namespace EvmCheck
namespace Opcode

/-- Each opcode has one of four kinds of operand. -/
theorem operand_cases (op : Opcode) :
    (op.operand = .offset ∧ (op = rjump ∨ op = rjumpi)) ∨
    (op.operand = .table ∧ op = rjumpv) ∨
    (op.operand = .data (op.toNat - 0x5f) ∧ 0x60 ≤ op ∧ op ≤ 0x7f) ∨
    (op.operand = .none ∧
      ¬ (0x60 ≤ op ∧ op ≤ 0x7f) ∧ op ≠ rjump ∧ op ≠ rjumpi ∧ op ≠ rjumpv) := by
  by_cases hoffset : op = rjump ∨ op = rjumpi
  · exact Or.inl ⟨by simp [operand, hoffset], hoffset⟩
  · obtain ⟨hrjump, hrjumpi⟩ := not_or.mp hoffset
    by_cases htable : op = rjumpv
    · subst htable
      exact Or.inr (Or.inl ⟨rfl, rfl⟩)
    · by_cases hpush : 0x60 ≤ op ∧ op ≤ 0x7f
      · exact Or.inr (Or.inr (Or.inl
          ⟨by simp [operand, pushWidth?, hoffset, htable, hpush], hpush⟩))
      · exact Or.inr (Or.inr (Or.inr
          ⟨by simp [operand, pushWidth?, hoffset, htable, hpush], hpush, hrjump,
            hrjumpi, htable⟩))

theorem operand_eq_offset_iff {op : Opcode} :
    op.operand = .offset ↔ op = rjump ∨ op = rjumpi := by
  constructor
  · intro h
    rcases operand_cases op with ⟨-, hop⟩ | ⟨h', -⟩ | ⟨h', -⟩ | ⟨h', -⟩
    · exact hop
    all_goals
      rw [h] at h'
      cases h'
  · rintro (rfl | rfl) <;> rfl

theorem operand_eq_table_iff {op : Opcode} :
    op.operand = .table ↔ op = rjumpv := by
  constructor
  · intro h
    rcases operand_cases op with ⟨h', -⟩ | ⟨-, hop⟩ | ⟨h', -⟩ | ⟨h', -⟩
    case inr.inl => exact hop
    all_goals
      rw [h] at h'
      cases h'
  · rintro rfl
    rfl

theorem operand_eq_none_iff {op : Opcode} :
    op.operand = .none ↔
      ¬ (0x60 ≤ op ∧ op ≤ 0x7f) ∧ op ≠ rjump ∧ op ≠ rjumpi ∧ op ≠ rjumpv := by
  constructor
  · intro h
    rcases operand_cases op with ⟨h', -⟩ | ⟨h', -⟩ | ⟨h', -⟩ | ⟨-, hop⟩
    case inr.inr.inr => exact hop
    all_goals
      rw [h] at h'
      cases h'
  · rintro ⟨hpush, hrjump, hrjumpi, htable⟩
    rcases operand_cases op with ⟨-, hop⟩ | ⟨-, hop⟩ | ⟨-, hop⟩ | ⟨h, -⟩
    · exact absurd hop (not_or.mpr ⟨hrjump, hrjumpi⟩)
    · exact absurd hop htable
    · exact absurd hop hpush
    · exact h

/-- A push of `n` bytes has the opcode `n` places after the push of none. -/
theorem operand_eq_data_iff {op : Opcode} {n : Nat} :
    op.operand = .data n ↔
      op = UInt8.ofNat (0x5f + n) ∧ 1 ≤ n ∧ n ≤ 32 := by
  constructor
  · intro h
    rcases operand_cases op with ⟨h', -⟩ | ⟨h', -⟩ | ⟨h', hpush⟩ | ⟨h', -⟩
    case inr.inr.inl =>
      rw [h, Operand.data.injEq] at h'
      have hlow : 0x60 ≤ op.toNat := UInt8.le_iff_toNat_le.mp hpush.1
      have hhigh : op.toNat ≤ 0x7f := UInt8.le_iff_toNat_le.mp hpush.2
      have hsum : 0x5f + n = op.toNat := by omega
      refine ⟨?_, by omega, by omega⟩
      rw [hsum, UInt8.ofNat_toNat]
    all_goals
      rw [h] at h'
      cases h'
  · rintro ⟨rfl, hn⟩
    have h : ∀ k : Fin 33, 1 ≤ k.val →
        operand (UInt8.ofNat (0x5f + k.val)) = .data k.val := by
      decide
    exact h ⟨n, by omega⟩ hn.1

theorem pushWidth?_eq_some_iff {op : Opcode} {n : Nat} :
    op.pushWidth? = some n ↔ op.operand = .data n := by
  rcases operand_cases op with ⟨h, hop⟩ | ⟨h, hop⟩ | ⟨h, hpush⟩ | ⟨h, hpush, -⟩
  · rw [h]
    rcases hop with rfl | rfl <;> simp [pushWidth?, rjump, rjumpi]
  · rw [h, hop]
    simp [pushWidth?, rjumpv]
  · rw [h]
    simp [pushWidth?, hpush]
  · rw [h]
    simp [pushWidth?, hpush]

theorem operand_of_isTerminal {op : Opcode} (h : op.isTerminal = true) :
    op.operand = .none := by
  have hmem : op ∈ terminals := by
    unfold isTerminal kind at h
    rw [decide_eq_true_eq] at h
    split at h
    · cases h
    · split at h
      · rename_i hcontains
        exact List.contains_iff_mem.mp hcontains
      · split at h <;> cases h
  simp only [terminals, List.mem_cons, List.not_mem_nil, or_false] at hmem
  rcases hmem with rfl | rfl | rfl | rfl | rfl <;> decide

theorem isMarker_iff {op : Opcode} :
    op.isMarker = true ↔ op = jumpdest := by
  by_cases h : op = jumpdest
  · subst h
    decide
  · simp only [isMarker, kind, h, if_false, iff_false, decide_eq_true_eq]
    split
    · simp
    · split <;> simp

theorem isDefined_push {n : Nat} (hn : 1 ≤ n ∧ n ≤ 32) :
    isDefined (UInt8.ofNat (0x5f + n)) = true := by
  have h : ∀ k : Fin 33, 1 ≤ k.val → isDefined (UInt8.ofNat (0x5f + k.val)) = true := by
    decide
  exact h ⟨n, by omega⟩ hn.1

theorem operand_of_undefined {op : Opcode} (h : op.isDefined = false) :
    op.operand = .none := by
  rcases operand_cases op with ⟨-, rfl | rfl⟩ | ⟨-, rfl⟩ | ⟨hdata, -⟩ | ⟨hnone, -⟩
  · cases h
  · cases h
  · cases h
  · obtain ⟨hop, hwidth⟩ := operand_eq_data_iff.mp hdata
    have hdefined := isDefined_push hwidth
    rw [← hop, h] at hdefined
    cases hdefined
  · exact hnone

theorem isSome_mnemonic? {op : Opcode} (h : op.isDefined = true) :
    op.mnemonic?.isSome = true := by
  have hall : ∀ k : Fin 256, isDefined (UInt8.ofNat k.val) = true →
      (mnemonic? (UInt8.ofNat k.val)).isSome = true := by
    decide +kernel
  have hop := hall ⟨op.toNat, op.toNat_lt⟩
  rw [UInt8.ofNat_toNat] at hop
  exact hop h

/-- A mnemonic stands in one of the runs, as far from its start as the opcode is
from the first one. -/
theorem exists_run_of_mnemonic? {op : Opcode} {name : String}
    (h : op.mnemonic? = some name) :
    ∃ run ∈ mnemonicRuns, run.1 ≤ op.toNat ∧
      run.2[op.toNat - run.1]? = some name := by
  obtain ⟨run, hrun, hname⟩ := List.exists_of_findSome?_eq_some h
  split at hname
  · rename_i hle
    exact ⟨run, hrun, hle, hname⟩
  · cases hname

theorem ne_undefined_of_mnemonic? {op : Opcode} {name : String}
    (h : op.mnemonic? = some name) : name ≠ "UNDEFINED" := by
  have hall : ∀ run ∈ mnemonicRuns, ∀ name ∈ run.2, name ≠ "UNDEFINED" := by
    decide +kernel
  obtain ⟨run, hrun, -, hname⟩ := exists_run_of_mnemonic? h
  exact hall run hrun name (List.mem_of_getElem? hname)

theorem isDefined_of_mnemonic? {op : Opcode} {name : String}
    (h : op.mnemonic? = some name) : op.isDefined = true := by
  have hall : ∀ run ∈ mnemonicRuns, ∀ i : Fin run.2.length,
      isDefined (UInt8.ofNat (run.1 + i.val)) = true := by
    decide +kernel
  obtain ⟨run, hrun, hle, hname⟩ := exists_run_of_mnemonic? h
  obtain ⟨hlt, -⟩ := List.getElem?_eq_some_iff.mp hname
  have hop := hall run hrun ⟨_, hlt⟩
  rwa [Nat.add_sub_cancel' hle, UInt8.ofNat_toNat] at hop

theorem mnemonic?_eq_none_iff {op : Opcode} :
    op.mnemonic? = none ↔ op.isDefined = false := by
  rw [← Bool.not_eq_true]
  constructor
  · intro hnone hdefined
    have hsome := isSome_mnemonic? hdefined
    rw [hnone] at hsome
    cases hsome
  · intro hundefined
    cases hname : op.mnemonic? with
    | none => rfl
    | some name => exact absurd (isDefined_of_mnemonic? hname) hundefined

theorem isAlphanum_of_mnemonic? {op : Opcode} {name : String} {c : Char}
    (h : op.mnemonic? = some name) (hc : c ∈ name.toList) : c.isAlphanum = true := by
  have hall : ∀ run ∈ mnemonicRuns, ∀ name ∈ run.2,
      name.toList.all Char.isAlphanum = true := by
    decide +kernel
  obtain ⟨run, hrun, -, hname⟩ := exists_run_of_mnemonic? h
  exact List.all_eq_true.mp (hall run hrun name (List.mem_of_getElem? hname)) c hc

theorem nodup_mnemonics : (mnemonicRuns.flatMap (·.2)).Nodup := by
  -- texts differ when their bytes, read as one number, do
  refine List.Nodup.of_map
    (fun name => name.toByteArray.data.toList.foldl (fun n b => 256 * n + b.toNat) 0) ?_
  decide +kernel

/-- No two opcodes have the same mnemonic. -/
theorem mnemonic?_injective {op op' : Opcode} {name : String}
    (h : op.mnemonic? = some name) (h' : op'.mnemonic? = some name) : op = op' := by
  obtain ⟨run, hrun, hle, hname⟩ := exists_run_of_mnemonic? h
  obtain ⟨run', hrun', hle', hname'⟩ := exists_run_of_mnemonic? h'
  obtain ⟨hnodup, hdisjoint⟩ := List.nodup_flatMap.mp nodup_mnemonics
  have hsymm : Std.Symm (Function.onFun List.Disjoint fun run : Nat × List String => run.2) :=
    ⟨fun _ _ h _ hmem hmem' => h hmem' hmem⟩
  have hsame : run = run' := by
    by_contra hne
    exact hdisjoint.forall hrun hrun' hne (List.mem_of_getElem? hname)
      (List.mem_of_getElem? hname')
  subst hsame
  obtain ⟨hlt, -⟩ := List.getElem?_eq_some_iff.mp hname
  have hindex := (List.getElem?_inj hlt (hnodup run hrun)).mp (hname.trans hname'.symm)
  apply UInt8.toNat_inj.mp
  omega

end Opcode
end EvmCheck
