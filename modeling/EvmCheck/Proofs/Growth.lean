import EvmCheck.Proofs.Eviction
import EvmCheck.Proofs.Sharing
import Mathlib.Data.List.Count
import Mathlib.Data.List.Induction

/-!
# Caches of different capacity

Two caches that serve the same calls are compared, one of which has at least as much
room as the other.  A lookup may find a digest in the larger one only, and then it
changes the order of that one alone; so the digests of the smaller cache are not the
first ones of the larger.  What remains true is `Nested`: they are some of them, in the
same order, and they are all of them as long as the smaller cache has room.

Every cache follows its own digests: by `Follows.digests_respond` those after a call
depend on those before it, so that one step is a fact about two lists.

**Results.**
* `take_sublist_take`: shortening two lists from the end.
* `Nested.touch`, `Nested.recentAfter`: a use of a digest, and any call, keep lists
  nested.
* `nested_after`: the digests of two caches are nested after any calls.
* `growing_keeps_hits`: what is found in the smaller cache is found in the larger.
-/

namespace EvmCheck

/-- If from the longer list no more is cut off the end than from the shorter one, it
keeps what the shorter one keeps. -/
theorem take_sublist_take {α : Type} {xs ys : List α} {i j : Nat} (h : xs.Sublist ys)
    (hij : ys.length + i ≤ xs.length + j) : (xs.take i).Sublist (ys.take j) := by
  induction h generalizing i j with
  | slnil => simp
  | @cons xs ys y h ih =>
      have hle := h.length_le
      cases j with
      | zero =>
          simp only [List.length_cons] at hij
          omega
      | succ j =>
          rw [List.take_succ_cons]
          refine (ih ?_).cons y
          simp only [List.length_cons] at hij
          omega
  | @cons_cons xs ys x h ih =>
      have hle := h.length_le
      simp only [List.length_cons] at hij
      cases i with
      | zero => simp
      | succ i =>
          cases j with
          | zero => omega
          | succ j =>
              rw [List.take_succ_cons, List.take_succ_cons]
              exact (ih (by omega)).cons_cons x

namespace Recency

variable {κ : Type} [DecidableEq κ] {k : κ} {recent recent' : List κ}

theorem touch_sublist (h : recent.Sublist recent') :
    (touch k recent).Sublist (touch k recent') :=
  (h.filter _).cons_cons k

/-- A use of a key adds it once and takes out what there was of it. -/
theorem length_touch_add_count (k : κ) (recent : List κ) :
    (touch k recent).length + recent.count k = recent.length + 1 := by
  have hsplit : recent.length = recent.count k + recent.countP (· ≠ k) := by
    simpa [List.count] using List.length_eq_countP_add_countP (· == k) (l := recent)
  rw [touch, List.length_cons, ← List.countP_eq_length_filter]
  omega

theorem length_le_length_touch (k : κ) (h : recent.Nodup) :
    recent.length ≤ (touch k recent).length := by
  have hcount := length_touch_add_count k recent
  have hone := List.nodup_iff_count_le_one.mp h k
  omega

end Recency

namespace Cache

variable {m n room : Nat} {recent small large : List Digest} {c : Cache} {d : Digest}

/-- The digests of a cache with room for `m` outcomes, and those of a cache with room
for `n` that has served the same calls. -/
structure Nested (m n : Nat) (small large : List Digest) : Prop where
  le : m ≤ n
  nodup_small : small.Nodup
  nodup_large : large.Nodup
  length_small : small.length ≤ m
  length_large : large.length ≤ n
  sublist : small.Sublist large
  eq_of_room : small.length < m → small = large

namespace Nested

theorem nil (hle : m ≤ n) : Nested m n [] [] where
  le := hle
  nodup_small := List.nodup_nil
  nodup_large := List.nodup_nil
  length_small := Nat.zero_le m
  length_large := Nat.zero_le n
  sublist := List.Sublist.slnil
  eq_of_room := fun _ => rfl

variable (h : Nested m n small large)
include h

/-- A use of a digest in both caches. -/
theorem touch (d : Digest) :
    Nested m n ((Recency.touch d small).take m) ((Recency.touch d large).take n) where
  le := h.le
  nodup_small := (Recency.nodup_touch d h.nodup_small).sublist (List.take_sublist _ _)
  nodup_large := (Recency.nodup_touch d h.nodup_large).sublist (List.take_sublist _ _)
  length_small := List.length_take_le _ _
  length_large := List.length_take_le _ _
  sublist := by
    have hle := h.le
    by_cases hroom : small.length < m
    · rw [h.eq_of_room hroom]
      exact List.take_sublist_take_left h.le
    · -- the larger cache has as much of the digest to take out as the smaller one
      have hsmall := Recency.length_touch_add_count d small
      have hlarge := Recency.length_touch_add_count d large
      have hcount := h.sublist.count_le d
      have hlength := h.length_large
      exact take_sublist_take (Recency.touch_sublist h.sublist) (by omega)
  eq_of_room := by
    intro hroom
    have hle := h.le
    have hgrows := Recency.length_le_length_touch d h.nodup_small
    rw [List.length_take] at hroom
    have heq : small = large := h.eq_of_room (by omega)
    rw [← heq, List.take_of_length_le (by omega), List.take_of_length_le (by omega)]

/-- A use of a digest that only the larger cache has. -/
theorem touch_large (hd : d ∉ small) (hd' : d ∈ large) :
    Nested m n small (Recency.touch d large) where
  le := h.le
  nodup_small := h.nodup_small
  nodup_large := Recency.nodup_touch d h.nodup_large
  length_small := h.length_small
  length_large := by
    have hlarge := Recency.length_touch_add_count d large
    have hcount := List.count_pos_iff.mpr hd'
    have hlength := h.length_large
    omega
  sublist := by
    have hothers : small.filter (· ≠ d) = small := by
      rw [List.filter_eq_self]
      intro e he
      rw [decide_eq_true_eq]
      rintro rfl
      exact hd he
    have hfilter := h.sublist.filter (· ≠ d)
    rw [hothers] at hfilter
    exact hfilter.cons d
  eq_of_room := by
    intro hroom
    rw [← h.eq_of_room hroom] at hd'
    exact absurd hd' hd

/-- Any call keeps the digests of both caches nested. -/
theorem recentAfter (call : Call) :
    Nested m n ((recentAfter m small call).take m) ((recentAfter n large call).take n) := by
  have hsmall : small.take m = small := List.take_of_length_le h.length_small
  have hlarge : large.take n = large := List.take_of_length_le h.length_large
  cases call with
  | outcomeFor code =>
      exact h.touch code.digest
  | get d =>
      simp only [Cache.recentAfter, hsmall, hlarge]
      by_cases hd : d ∈ small
      · rw [if_pos hd, if_pos (h.sublist.subset hd)]
        exact h.touch d
      · rw [if_neg hd, hsmall]
        by_cases hd' : d ∈ large
        · have htouch := h.touch_large hd hd'
          rw [if_pos hd', List.take_of_length_le htouch.length_large]
          exact htouch
        · rw [if_neg hd', hlarge]
          exact h
  | clear =>
      simp only [Cache.recentAfter, List.take_nil]
      exact Nested.nil h.le

end Nested

theorem after_concat (n : Nat) (calls : List Call) (call : Call) :
    after n (calls ++ [call]) = ((after n calls).respond call).2 := by
  rw [after, serve_concat]
  rfl

/-- The digests after a call are determined by those before it. -/
theorem Follows.digests_respond (h : Follows room recent c) (call : Call) :
    (c.respond call).2.digests = (recentAfter room c.digests call).take room := by
  have hown : Follows room c.digests c :=
    { room_pos := h.room_pos
      capacity_eq := h.capacity_eq
      nodup := h.nodup_digests
      digests_eq := by rw [h.digests_eq, List.take_take, Nat.min_self] }
  exact (hown.respond call).digests_eq

/-- The digests of two caches are nested after any calls. -/
theorem nested_after (hle : m ≤ n) (calls : List Call) :
    Nested (max m 1) (max n 1) (after m calls).digests (after n calls).digests := by
  induction calls using List.reverseRecOn with
  | nil =>
      exact Nested.nil (by omega)
  | append_singleton calls call ih =>
      rw [after_concat, after_concat, (follows_after m calls).digests_respond,
        (follows_after n calls).digests_respond]
      exact ih.recentAfter call

/-- Whether a call finds its outcome in the cache. -/
def Finds (c : Cache) : Call → Prop
  | .outcomeFor code => ∃ reply, c.begin code = .hit reply
  | .get digest => ∃ outcome, (c.get digest).1 = some outcome
  | .clear => False

theorem exists_get_iff : (∃ outcome, (c.get d).1 = some outcome) ↔ d ∈ c.digests := by
  rcases c.outcomes.find?_cases d with ⟨o, ho⟩ | hnot
  · rw [get_of_find? ho]
    simp only [Option.some.injEq, exists_eq', true_iff]
    exact Recency.mem_keys_of_find? ho
  · rw [get_of_not_mem hnot]
    simp [show d ∉ c.digests from hnot]

theorem Finds.of_subset {c c' : Cache} (hsub : c.digests ⊆ c'.digests) {call : Call}
    (h : c.Finds call) : c'.Finds call := by
  cases call with
  | outcomeFor code => exact exists_hit_iff.mpr (hsub (exists_hit_iff.mp h))
  | get digest => exact exists_get_iff.mpr (hsub (exists_get_iff.mp h))
  | clear => exact h

/-- **Growing the cache never loses a hit.**  After any calls the digests of the smaller
of two caches are some of those of the larger, in the same order, and so every call that
finds its outcome in the smaller cache finds it in the larger.  This holds although a
lookup of a digest that only the larger cache has changes the order of that one alone. -/
theorem growing_keeps_hits (hle : m ≤ n) (calls : List Call) :
    (after m calls).digests.Sublist (after n calls).digests ∧
    (∀ call, (after m calls).Finds call → (after n calls).Finds call) ∧
    (∀ digest, digest ∉ (after m calls).digests → digest ∈ (after n calls).digests →
      ¬ (after m calls).Finds (.get digest) ∧ (after n calls).Finds (.get digest) ∧
      (after m (calls ++ [.get digest])).digests = (after m calls).digests ∧
      (after n (calls ++ [.get digest])).digests =
        Recency.touch digest (after n calls).digests) := by
  have hnested := nested_after hle calls
  refine ⟨hnested.sublist, fun _ hfinds => hfinds.of_subset hnested.sublist.subset, ?_⟩
  intro digest hnot hmem
  refine ⟨fun hfinds => hnot (exists_get_iff.mp hfinds), exists_get_iff.mpr hmem, ?_, ?_⟩
  · rw [after_concat, respond, get_of_not_mem hnot]
  · rw [after_concat]
    exact Recency.keys_get_of_mem hmem

/-- Calls for the outcomes of two codes. -/
def twoCalls : List Call :=
  [.outcomeFor #[0x00], .outcomeFor #[0x5b, 0x00]]

/-- Of two outcomes the smaller cache keeps the later one.  A lookup of the earlier one
brings it to the front of the larger cache, so that the digests of the smaller cache are
no longer the first ones of the larger. -/
theorem growing_past_one_outcome :
    (after 1 twoCalls).digests = [Code.digest #[0x5b, 0x00]] ∧
    (after 2 twoCalls).digests = [Code.digest #[0x5b, 0x00], Code.digest #[0x00]] ∧
    ¬ (after 1 twoCalls).Finds (.get (Code.digest #[0x00])) ∧
    (after 2 twoCalls).Finds (.get (Code.digest #[0x00])) ∧
    (after 1 (twoCalls ++ [.get (Code.digest #[0x00])])).digests =
      [Code.digest #[0x5b, 0x00]] ∧
    (after 2 (twoCalls ++ [.get (Code.digest #[0x00])])).digests =
      [Code.digest #[0x00], Code.digest #[0x5b, 0x00]] := by
  have hne := digest_marker_ne
  generalize ha : Code.digest #[0x00] = a at *
  generalize hb : Code.digest #[0x5b, 0x00] = b at *
  have hrecent : ∀ room, recencyList room twoCalls = [b, a] := by
    intro room
    simp [recencyList, twoCalls, recentAfter, Recency.touch, ha, hb, hne.symm]
  have hsmall : (after 1 twoCalls).digests = [b] := by
    rw [(follows_after 1 twoCalls).digests_eq, hrecent]
    rfl
  have hlarge : (after 2 twoCalls).digests = [b, a] := by
    rw [(follows_after 2 twoCalls).digests_eq, hrecent]
    rfl
  obtain ⟨-, -, honly⟩ := growing_keeps_hits (m := 1) (n := 2) (by decide) twoCalls
  obtain ⟨hnot, hfinds, hsame, htouch⟩ :=
    honly a (by simp [hsmall, hne.symm]) (by simp [hlarge])
  refine ⟨hsmall, hlarge, hnot, hfinds, hsame.trans hsmall, ?_⟩
  rw [htouch, hlarge]
  simp [Recency.touch, hne]

end Cache
end EvmCheck
