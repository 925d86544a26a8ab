import EvmCheck.Recency
import Mathlib.Data.List.Dedup

/-!
# Recency tables and recency lists

What looking a key up and storing one do to a table, seen through its entries
and through its keys in the order of last use.

A list of keys without a bound is brought up to date by `touch`, which puts the
key in use at the front.  The keys of a table with room for `n` of them follow
the first `n` elements of such a list: `take_touch_of_mem` is what a use of one
of these elements does to them, `take_touch_of_not_mem` what a use of any other
key does.

**Results.**
* `keys_get_of_mem`, `keys_push`: the keys after a use.
* `mem_entries_get`, `mem_entries_push`: where the entries come from.
* `take_touch_of_mem`, `take_touch_of_not_mem`: the start of a touched list.
-/

namespace EvmCheck
namespace Recency

variable {κ α : Type}

theorem length_keys (t : Recency κ α) : t.keys.length = t.size :=
  List.length_map _

variable [DecidableEq κ]

section Table

variable {t : Recency κ α} {k : κ} {v : α}

theorem find?_eq_none_iff : t.find? k = none ↔ k ∉ t.keys := by
  simp only [find?, keys, Option.map_eq_none_iff, List.find?_eq_none,
    decide_eq_true_eq, List.mem_map, not_exists, not_and]

theorem find?_cases (t : Recency κ α) (k : κ) :
    (∃ v, t.find? k = some v) ∨ k ∉ t.keys := by
  cases hfind : t.find? k with
  | none => exact Or.inr (find?_eq_none_iff.mp hfind)
  | some v => exact Or.inl ⟨v, rfl⟩

theorem exists_find?_of_mem (h : k ∈ t.keys) : ∃ v, t.find? k = some v := by
  rcases t.find?_cases k with hfind | hnot
  · exact hfind
  · exact absurd h hnot

theorem mem_entries_of_find? (h : t.find? k = some v) : (k, v) ∈ t.entries := by
  obtain ⟨e, he, rfl⟩ := Option.map_eq_some_iff.mp h
  have hkey : e.1 = k := by simpa using List.find?_some he
  rw [← hkey]
  exact List.mem_of_find?_eq_some he

theorem mem_keys_of_find? (h : t.find? k = some v) : k ∈ t.keys :=
  List.mem_map.mpr ⟨(k, v), mem_entries_of_find? h, rfl⟩

theorem get_of_find? (h : t.find? k = some v) :
    t.get k = (some v, { t with entries := (k, v) :: t.others k }) := by
  simp only [get, h]

theorem get_of_not_mem (h : k ∉ t.keys) : t.get k = (none, t) := by
  simp only [get, find?_eq_none_iff.mpr h]

theorem capacity_get (t : Recency κ α) (k : κ) :
    (t.get k).2.capacity = t.capacity := by
  rcases t.find?_cases k with ⟨v, hv⟩ | hnot
  · rw [get_of_find? hv]
  · rw [get_of_not_mem hnot]

theorem keys_others (t : Recency κ α) (k : κ) :
    (t.others k).map (·.1) = t.keys.filter (· ≠ k) := by
  rw [keys, List.filter_map]
  rfl

theorem keys_get_of_mem (h : k ∈ t.keys) :
    (t.get k).2.keys = k :: t.keys.filter (· ≠ k) := by
  obtain ⟨v, hv⟩ := exists_find?_of_mem h
  rw [get_of_find? hv, ← keys_others]
  rfl

theorem mem_entries_get {e : κ × α} (h : e ∈ (t.get k).2.entries) :
    e ∈ t.entries := by
  rcases t.find?_cases k with ⟨v, hv⟩ | hnot
  · rw [get_of_find? hv] at h
    rcases List.mem_cons.mp h with rfl | h
    · exact mem_entries_of_find? hv
    · exact List.mem_of_mem_filter h
  · rw [get_of_not_mem hnot] at h
    exact h

theorem push_of_not_mem (h : k ∉ t.keys) :
    t.push k v =
      if t.size < t.capacity then
        ({ t with entries := (k, v) :: t.entries }, none)
      else
        ({ t with entries := (k, v) :: t.entries.dropLast },
          t.entries.getLast?) := by
  simp only [push, find?_eq_none_iff.mpr h]

theorem capacity_push (h : k ∉ t.keys) :
    (t.push k v).1.capacity = t.capacity := by
  rw [push_of_not_mem h]
  split <;> rfl

theorem keys_push (h : k ∉ t.keys) (hsize : t.size ≤ t.capacity) :
    (t.push k v).1.keys = k :: t.keys.take (t.capacity - 1) := by
  have hlength := t.length_keys
  rw [push_of_not_mem h]
  by_cases hlt : t.size < t.capacity
  · rw [if_pos hlt, List.take_of_length_le (by omega)]
    rfl
  · have hfull : t.capacity - 1 = t.keys.length - 1 := by omega
    rw [if_neg hlt, hfull, ← List.dropLast_eq_take, keys, keys, List.map_cons,
      List.map_dropLast]

/-- A new key displaces the last key of a full table, and none otherwise. -/
theorem map_fst_snd_push (h : k ∉ t.keys) :
    (t.push k v).2.map (·.1) =
      if t.size < t.capacity then none else t.keys.getLast? := by
  rw [push_of_not_mem h]
  split
  · rfl
  · rw [keys, List.getLast?_map]

theorem mem_entries_push {e : κ × α} (h : k ∉ t.keys)
    (he : e ∈ (t.push k v).1.entries) : e = (k, v) ∨ e ∈ t.entries := by
  rw [push_of_not_mem h] at he
  split at he
  · exact List.mem_cons.mp he
  · rcases List.mem_cons.mp he with he | he
    · exact Or.inl he
    · exact Or.inr (List.dropLast_subset _ he)

end Table

section Touch

variable {k : κ} {recent : List κ} {n : Nat}

/-- Brings a key to the front of a list of keys, or puts it there. -/
def touch (k : κ) (recent : List κ) : List κ :=
  k :: recent.filter (· ≠ k)

theorem nodup_touch (k : κ) (h : recent.Nodup) : (touch k recent).Nodup := by
  refine List.nodup_cons.mpr ⟨?_, h.filter _⟩
  simp

theorem length_filter_ne (hnodup : recent.Nodup) (h : k ∈ recent) :
    (recent.filter (· ≠ k)).length + 1 = recent.length := by
  have herase : recent.erase k = recent.filter (· ≠ k) := by
    rw [hnodup.erase_eq_filter]
    refine List.filter_congr fun d _ => ?_
    by_cases hd : d = k <;> simp [hd]
  rw [← herase, List.length_erase_add_one h]

/-- A use of one of the first `n` keys only changes their order. -/
theorem take_touch_of_mem (hnodup : recent.Nodup) (h : k ∈ recent.take n) :
    (touch k recent).take n = touch k (recent.take n) := by
  have hfirst := length_filter_ne (hnodup.sublist (List.take_sublist n recent)) h
  -- after the first `n` keys there is no other `k` to be filtered out
  have hrest : (recent.drop n).filter (· ≠ k) = recent.drop n := by
    rw [List.filter_eq_self]
    intro d hd
    rw [decide_eq_true_eq]
    rintro rfl
    exact List.disjoint_take_drop hnodup (Nat.le_refl n) h hd
  have hsplit : recent.filter (· ≠ k) =
      (recent.take n).filter (· ≠ k) ++ recent.drop n := by
    rw [← hrest, ← List.filter_append, List.take_append_drop]
  rw [List.length_take] at hfirst
  cases n with
  | zero => simp at h
  | succ m =>
      rw [touch, touch, List.take_succ_cons, hsplit]
      by_cases hlong : m + 1 ≤ recent.length
      · rw [List.take_left' (by omega)]
      · rw [List.drop_of_length_le (by omega), List.append_nil,
          List.take_of_length_le (by omega)]

/-- Any other key comes before the first `n` keys, the last of which goes when
there are `n`. -/
theorem take_touch_of_not_mem (hn : 0 < n) (h : k ∉ recent.take n) :
    (touch k recent).take n = k :: (recent.take n).take (n - 1) := by
  have hfirst : (recent.take n).filter (· ≠ k) = recent.take n := by
    rw [List.filter_eq_self]
    intro d hd
    rw [decide_eq_true_eq]
    rintro rfl
    exact h hd
  have hsplit : recent.filter (· ≠ k) =
      recent.take n ++ (recent.drop n).filter (· ≠ k) := by
    conv_lhs => rw [← List.take_append_drop n recent, List.filter_append, hfirst]
  obtain ⟨m, rfl⟩ := Nat.exists_eq_add_one.mpr hn
  rw [touch, List.take_succ_cons, hsplit, Nat.add_sub_cancel]
  by_cases hlong : m + 1 ≤ recent.length
  · rw [List.take_append_of_le_length (by rw [List.length_take]; omega)]
  · rw [List.drop_of_length_le (by omega), List.filter_nil, List.append_nil]

end Touch

end Recency
end EvmCheck
