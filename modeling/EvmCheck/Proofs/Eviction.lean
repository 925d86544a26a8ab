import EvmCheck.Proofs.Calls
import EvmCheck.Proofs.Log

/-!
# Which outcomes the cache forgets

The cache is compared with a list of digests that has no bound: a call for an
outcome brings the digest of its code to the front, and so does a lookup of a
digest among the first ones, as many as the cache has room for.  The digests of
the cache are the first ones of this list, in the same order.

What is forgotten can then be read off the log of a call: a hit is logged, and
nothing is validated, when the digest is there; the last of the digests is logged
as evicted when it is not and the cache is full.

**Results.**
* `Follows.respond`, `Follows.serve`: one call, and any calls, keep the cache in
  step with the list.
* `cacheHit_mem_events_iff`, `closingEvent_mem_events_iff`,
  `cacheEvicted_mem_events_iff`: what a call for an outcome logs.
* `records_outcomeFor`: all that a call for an outcome logs, in words.
* `least_recent_evicted`: both together, for every history of a cache.
-/

namespace EvmCheck
namespace Cache

/-- The digests in the order of last use after one more call, when a lookup finds
only the first `room` of them. -/
def recentAfter (room : Nat) (recent : List Digest) : Call → List Digest
  | .outcomeFor code => Recency.touch code.digest recent
  | .get digest =>
      if digest ∈ recent.take room then Recency.touch digest recent else recent
  | .clear => []

/-- The digests in the order of last use after calls, from none on. -/
def recencyList (room : Nat) (calls : List Call) : List Digest :=
  calls.foldl (recentAfter room) []

/-- The cache after calls, from an empty one on. -/
def after (capacity : Nat) (calls : List Call) : Cache :=
  ((Cache.empty capacity).serve calls).2

/-- The cache holds the first digests of a recency list, as many as it has room
for. -/
structure Follows (room : Nat) (recent : List Digest) (c : Cache) : Prop where
  room_pos : 0 < room
  capacity_eq : c.capacity = room
  nodup : recent.Nodup
  digests_eq : c.digests = recent.take room

variable {room : Nat} {recent : List Digest} {c : Cache} {code : Code} {d : Digest}

namespace Follows

theorem size_le (h : Follows room recent c) : c.size ≤ c.capacity := by
  have hlength : c.digests.length = c.size := Recency.length_keys c.outcomes
  rw [← hlength, h.digests_eq, h.capacity_eq]
  exact List.length_take_le room recent

theorem nodup_digests (h : Follows room recent c) : c.digests.Nodup := by
  rw [h.digests_eq]
  exact h.nodup.sublist (List.take_sublist room recent)

theorem get_of_mem (h : Follows room recent c) (hd : d ∈ c.digests) :
    Follows room (Recency.touch d recent) (c.get d).2 where
  room_pos := h.room_pos
  capacity_eq := (Recency.capacity_get c.outcomes d).trans h.capacity_eq
  nodup := Recency.nodup_touch d h.nodup
  digests_eq := by
    have hkeys : (c.get d).2.digests = Recency.touch d c.digests :=
      Recency.keys_get_of_mem hd
    rw [h.digests_eq] at hd hkeys
    rw [hkeys, Recency.take_touch_of_mem h.nodup hd]

theorem push_of_not_mem (h : Follows room recent c) (hd : d ∉ c.digests)
    (o : Outcome) :
    Follows room (Recency.touch d recent) { outcomes := (c.outcomes.push d o).1 } where
  room_pos := h.room_pos
  capacity_eq := (Recency.capacity_push hd).trans h.capacity_eq
  nodup := Recency.nodup_touch d h.nodup
  digests_eq := by
    -- the digest that goes, if one has to, is the last of the first `room`
    have hkeys : (c.outcomes.push d o).1.keys = d :: c.digests.take (c.capacity - 1) :=
      Recency.keys_push hd h.size_le
    rw [h.digests_eq] at hd
    rw [digests, hkeys, h.digests_eq, h.capacity_eq,
      Recency.take_touch_of_not_mem h.room_pos hd]

/-- One call keeps the cache in step with the recency list. -/
theorem respond (h : Follows room recent c) (call : Call) :
    Follows room (recentAfter room recent call) (c.respond call).2 := by
  cases call with
  | outcomeFor code =>
      show Follows room (Recency.touch code.digest recent) (c.outcomeFor code).cache
      rcases c.outcomes.find?_cases code.digest with ⟨o, ho⟩ | hnot
      · rw [outcomeFor_of_find? ho]
        exact h.get_of_mem (Recency.mem_keys_of_find? ho)
      · rw [outcomeFor_of_not_mem hnot]
        exact h.push_of_not_mem hnot code.validate
  | get d =>
      rw [recentAfter, ← h.digests_eq]
      by_cases hd : d ∈ c.digests
      · rw [if_pos hd]
        exact h.get_of_mem hd
      · have hsame : (c.respond (.get d)).2 = c := by
          rw [Cache.respond, get_of_not_mem hd]
        rw [if_neg hd, hsame]
        exact h
  | clear =>
      exact
        { room_pos := h.room_pos
          capacity_eq := h.capacity_eq
          nodup := List.nodup_nil
          digests_eq := List.take_nil.symm }

theorem serve (h : Follows room recent c) (calls : List Call) :
    Follows room (calls.foldl (recentAfter room) recent) (c.serve calls).2 := by
  induction calls generalizing c recent with
  | nil => exact h
  | cons call calls ih => exact ih (h.respond call)

end Follows

theorem follows_after (n : Nat) (calls : List Call) :
    Follows (max n 1) (recencyList (max n 1) calls) (after n calls) := by
  refine Follows.serve ?_ calls
  exact
    { room_pos := Nat.le_max_right n 1
      capacity_eq := rfl
      nodup := List.nodup_nil
      digests_eq := List.take_nil.symm }

/-! ### The log of a call -/

/-- Whether an event is about what the cache holds. -/
def concernsCache : Event → Bool
  | .cacheHit _ | .cacheEvicted _ => true
  | _ => false

/-- A validation logs nothing about the cache. -/
theorem concernsCache_of_mem {e : Event} (h : e ∈ code.validateLogged.events) :
    concernsCache e = false := by
  rcases Code.mem_events_validateLogged_iff.mp h with ⟨_, _, rfl⟩ | rfl
  · rfl
  · cases code.validate <;> rfl

/-- A call for an outcome is complete with its first part, before anything is
validated, when the digest is there. -/
theorem exists_hit_iff :
    (∃ reply, c.begin code = .hit reply) ↔ code.digest ∈ c.digests := by
  constructor
  · rintro ⟨reply, hreply⟩
    by_contra hnot
    rw [begin_of_not_mem hnot] at hreply
    cases hreply
  · intro hmem
    obtain ⟨o, ho⟩ := Recency.exists_find?_of_mem hmem
    exact ⟨_, begin_of_find? ho⟩

theorem events_of_mem (h : code.digest ∈ c.digests) :
    (c.outcomeFor code).events = #[.cacheHit code.digest] := by
  obtain ⟨o, ho⟩ := Recency.exists_find?_of_mem h
  rw [outcomeFor_of_find? ho]

/-- What a call logs when the digest is not there: the validation, and the last
digest if the cache is full. -/
theorem events_of_not_mem (h : code.digest ∉ c.digests) :
    (c.outcomeFor code).events =
      code.validateLogged.events ++
        ((if c.size < c.capacity then none else c.digests.getLast?).map
          Event.cacheEvicted).toArray := by
  have hevicted : (c.outcomes.push code.digest code.validate).2.map (·.1) =
      if c.size < c.capacity then none else c.digests.getLast? :=
    Recency.map_fst_snd_push h
  rw [outcomeFor_of_not_mem h, ← hevicted, Option.map_map]
  rfl

theorem mem_events_of_not_mem {e : Event} (h : code.digest ∉ c.digests) :
    e ∈ (c.outcomeFor code).events ↔
      e ∈ code.validateLogged.events ∨
        ∃ d, e = .cacheEvicted d ∧ c.capacity ≤ c.size ∧
          c.digests.getLast? = some d := by
  rw [events_of_not_mem h, Array.mem_append, Option.mem_toArray, Option.map_eq_some_iff]
  refine or_congr_right ⟨?_, ?_⟩
  · rintro ⟨d, hd, rfl⟩
    split at hd
    · cases hd
    · exact ⟨d, rfl, by omega, hd⟩
  · rintro ⟨d, rfl, hfull, hlast⟩
    rw [if_neg (Nat.not_lt.mpr hfull)]
    exact ⟨d, hlast, rfl⟩

theorem cacheHit_mem_events_iff :
    Event.cacheHit d ∈ (c.outcomeFor code).events ↔
      d = code.digest ∧ code.digest ∈ c.digests := by
  by_cases h : code.digest ∈ c.digests
  · simp [events_of_mem h, h]
  · rw [mem_events_of_not_mem h]
    simp only [h, and_false, iff_false, not_or, not_exists, not_and]
    refine ⟨fun he => ?_, fun d he => ?_⟩
    · cases concernsCache_of_mem he
    · cases he

theorem closingEvent_mem_events_iff :
    code.closingEvent code.validate ∈ (c.outcomeFor code).events ↔
      code.digest ∉ c.digests := by
  by_cases h : code.digest ∈ c.digests
  · rw [events_of_mem h]
    cases code.validate <;> simp [Code.closingEvent, h]
  · rw [mem_events_of_not_mem h]
    simp only [h, not_false_iff, iff_true]
    exact Or.inl Array.mem_push_self

theorem cacheEvicted_mem_events_iff :
    Event.cacheEvicted d ∈ (c.outcomeFor code).events ↔
      code.digest ∉ c.digests ∧ c.capacity ≤ c.size ∧
        c.digests.getLast? = some d := by
  by_cases h : code.digest ∈ c.digests
  · simp [events_of_mem h, h]
  · rw [mem_events_of_not_mem h]
    simp only [h, not_false_iff, true_and]
    constructor
    · rintro (he | ⟨d', he, hevicted⟩)
      · cases concernsCache_of_mem he
      · cases he
        exact hevicted
    · intro hevicted
      exact Or.inr ⟨d, rfl, hevicted⟩

/-- The records of a call for an outcome: the one of the hit, or those of the
validation and then of the eviction. -/
theorem records_outcomeFor (c : Cache) (code : Code) :
    (c.outcomeFor code).events.toList.map Event.record =
      if code.digest ∈ c.digests then
        [(.trace, "jumpdest cache hit for " ++
          ("0x" ++ Text.hexPadded 64 code.digest.value.toNat))]
      else
        code.validateLogged.events.toList.map Event.record ++
          (if c.size < c.capacity then none else c.digests.getLast?).toList.map fun d =>
            (.trace, "jumpdest cache evicted " ++
              ("0x" ++ Text.hexPadded 64 d.value.toNat)) := by
  by_cases h : code.digest ∈ c.digests
  · rw [if_pos h, events_of_mem h]
    rfl
  · rw [if_neg h, events_of_not_mem h, Array.toList_append, List.map_append,
      Option.toList_toArray, Option.toList_map, List.map_map]
    rfl

/-- **Exact eviction of the least recently used.**  After any calls the digests
of the cache are the first ones of the recency list, as many as there is room
for; they are distinct, and never more than the capacity.  A call for an outcome
then logs a hit, and validates nothing, exactly when the digest of its code is
there; it logs an eviction exactly when the digest is not there and the cache is
full, and what is evicted is the least recently used digest and never the one
just stored.  So its records are the one of the hit, or those of the validation
and of the eviction. -/
theorem least_recent_evicted (n : Nat) (calls : List Call) (code : Code) :
    (after n calls).digests = (recencyList (max n 1) calls).take (max n 1) ∧
    (after n calls).digests.Nodup ∧
    (after n calls).capacity = max n 1 ∧
    (after n calls).size ≤ (after n calls).capacity ∧
    (∀ digest, .cacheHit digest ∈ ((after n calls).outcomeFor code).events ↔
      digest = code.digest ∧ code.digest ∈ (after n calls).digests) ∧
    ((∃ reply, (after n calls).begin code = .hit reply) ↔
      code.digest ∈ (after n calls).digests) ∧
    (code.closingEvent code.validate ∉ ((after n calls).outcomeFor code).events ↔
      code.digest ∈ (after n calls).digests) ∧
    (∀ digest, .cacheEvicted digest ∈ ((after n calls).outcomeFor code).events ↔
      code.digest ∉ (after n calls).digests ∧
      (after n calls).size = (after n calls).capacity ∧
      ((recencyList (max n 1) calls).take (max n 1)).getLast? = some digest) ∧
    .cacheEvicted code.digest ∉ ((after n calls).outcomeFor code).events ∧
    ((after n calls).outcomeFor code).events.toList.map Event.record =
      (if code.digest ∈ (after n calls).digests then
        [(.trace, "jumpdest cache hit for " ++
          ("0x" ++ Text.hexPadded 64 code.digest.value.toNat))]
      else
        code.validateLogged.events.toList.map Event.record ++
          (if (after n calls).size < (after n calls).capacity then none
            else ((recencyList (max n 1) calls).take (max n 1)).getLast?).toList.map
              fun digest => (.trace, "jumpdest cache evicted " ++
                ("0x" ++ Text.hexPadded 64 digest.value.toNat))) := by
  have h := follows_after n calls
  refine ⟨h.digests_eq, h.nodup_digests, h.capacity_eq, h.size_le,
    fun _ => cacheHit_mem_events_iff, exists_hit_iff, ?skipped, ?evicted, ?other,
    ?records⟩
  case skipped =>
    rw [closingEvent_mem_events_iff, not_not]
  case evicted =>
    intro digest
    have hfull : (after n calls).capacity ≤ (after n calls).size ↔
        (after n calls).size = (after n calls).capacity :=
      ⟨h.size_le.antisymm, fun heq => heq.ge⟩
    rw [cacheEvicted_mem_events_iff, hfull, h.digests_eq]
  case other =>
    rw [cacheEvicted_mem_events_iff]
    rintro ⟨hnot, -, hlast⟩
    exact hnot (List.mem_of_getLast? hlast)
  case records =>
    rw [records_outcomeFor, h.digests_eq]

end Cache
end EvmCheck
