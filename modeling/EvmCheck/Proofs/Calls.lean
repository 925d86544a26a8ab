import EvmCheck.Cache
import EvmCheck.Proofs.Recency

/-!
# Calls of the cache

A call asks for the outcome of code, looks a digest up, or takes out all
outcomes.  `respond` is a call that nothing comes between, `serve` a sequence of
such calls.

The two parts of a call for an outcome, and the whole call, are described by
whether the digest of the code is in the cache: the lemmas `_of_find?` say what
happens when it is, the lemmas `_of_not_mem` what happens when it is not.  Proofs
about calls use these and do not open the definitions again.

**Results.**
* `serve_concat`: the last call of a sequence.
* `finish_ofCode`: the second part of a call by itself does what the whole call
  does.
* `mem_entries_outcomeFor`, `outcome_outcomeFor_cases`: where the outcomes that a
  call stores and gives come from.
-/

namespace EvmCheck
namespace Cache

/-- The calls that use the outcomes of a cache. -/
inductive Call
  | outcomeFor (code : Code)
  | get (digest : Digest)
  | clear

/-- What a call gives back. -/
inductive Answer
  | outcome (outcome : Outcome)
  | found (outcome : Option Outcome)
  | cleared
  deriving DecidableEq

/-- A call that nothing comes between: its answer and the cache after it. -/
def respond (c : Cache) : Call → Answer × Cache
  | .outcomeFor code =>
      (.outcome (c.outcomeFor code).outcome, (c.outcomeFor code).cache)
  | .get digest => (.found (c.get digest).1, (c.get digest).2)
  | .clear => (.cleared, c.clear)

/-- Calls one after the other: their answers and the cache after them. -/
def serve (c : Cache) : List Call → List Answer × Cache
  | [] => ([], c)
  | call :: calls =>
      ((c.respond call).1 :: (serve (c.respond call).2 calls).1,
        (serve (c.respond call).2 calls).2)

theorem serve_concat (c : Cache) (calls : List Call) (call : Call) :
    c.serve (calls ++ [call]) =
      ((c.serve calls).1 ++ [((c.serve calls).2.respond call).1],
        ((c.serve calls).2.respond call).2) := by
  induction calls generalizing c with
  | nil => rfl
  | cons first calls ih => simp only [List.cons_append, serve, ih]

/-- A call for the outcome of code that has not found it. -/
def Pending.ofCode (code : Code) : Pending where
  digest := code.digest
  validation := code.validateLogged

variable {c : Cache} {code : Code} {o : Outcome}

theorem get_of_find? {d : Digest} (h : c.outcomes.find? d = some o) :
    c.get d = (some o, (c.get d).2) := by
  simp only [get, Recency.get_of_find? h]

theorem get_of_not_mem {d : Digest} (h : d ∉ c.digests) : c.get d = (none, c) := by
  simp only [get, Recency.get_of_not_mem h]

theorem begin_of_find? (h : c.outcomes.find? code.digest = some o) :
    c.begin code =
      .hit
        { outcome := o
          cache := (c.get code.digest).2
          events := #[.cacheHit code.digest] } := by
  simp only [begin]
  rw [get_of_find? h]

theorem begin_of_not_mem (h : code.digest ∉ c.digests) :
    c.begin code = .miss (.ofCode code) := by
  simp only [begin, get_of_not_mem h, Pending.ofCode]

theorem finish_of_find? (call : Pending)
    (h : c.outcomes.find? call.digest = some o) :
    c.finish call =
      { outcome := o, cache := (c.get call.digest).2, events := #[] } := by
  simp only [finish]
  rw [get_of_find? h]

theorem finish_of_not_mem (call : Pending) (h : call.digest ∉ c.digests) :
    c.finish call =
      { outcome := call.validation.outcome
        cache :=
          { outcomes := (c.outcomes.push call.digest call.validation.outcome).1 }
        events :=
          ((c.outcomes.push call.digest call.validation.outcome).2.map
            fun e => Event.cacheEvicted e.1).toArray } := by
  simp only [finish, get_of_not_mem h]

theorem outcomeFor_of_find? (h : c.outcomes.find? code.digest = some o) :
    c.outcomeFor code =
      { outcome := o
        cache := (c.get code.digest).2
        events := #[.cacheHit code.digest] } := by
  simp only [outcomeFor, begin_of_find? h]

theorem outcomeFor_of_not_mem (h : code.digest ∉ c.digests) :
    c.outcomeFor code =
      { outcome := code.validate
        cache := { outcomes := (c.outcomes.push code.digest code.validate).1 }
        events :=
          code.validateLogged.events ++
            ((c.outcomes.push code.digest code.validate).2.map
              fun e => Event.cacheEvicted e.1).toArray } := by
  have hfinish := finish_of_not_mem (.ofCode code) h
  simp only [outcomeFor, begin_of_not_mem h, hfinish]
  rfl

theorem outcomeFor_of_hit {reply : Reply} (h : c.begin code = .hit reply) :
    c.outcomeFor code = reply := by
  simp only [outcomeFor, h]

theorem eq_ofCode_of_miss {call : Pending} (h : c.begin code = .miss call) :
    call = .ofCode code := by
  rcases c.outcomes.find?_cases code.digest with ⟨o, ho⟩ | hnot
  · rw [begin_of_find? ho] at h
    cases h
  · rw [begin_of_not_mem hnot] at h
    exact (Begun.miss.inj h).symm

/-- The second part of a call answers, and leaves the cache, as the whole call
does: it looks the digest up once more, so it makes no difference whether the
first part came right before it or long ago. -/
theorem finish_ofCode (c : Cache) (code : Code) :
    (c.finish (.ofCode code)).outcome = (c.outcomeFor code).outcome ∧
      (c.finish (.ofCode code)).cache = (c.outcomeFor code).cache := by
  rcases c.outcomes.find?_cases code.digest with ⟨o, ho⟩ | hnot
  · rw [outcomeFor_of_find? ho, finish_of_find? (.ofCode code) ho]
    exact ⟨rfl, rfl⟩
  · rw [outcomeFor_of_not_mem hnot, finish_of_not_mem (.ofCode code) hnot]
    exact ⟨rfl, rfl⟩

/-- A call for an outcome adds at most the one that validation gives. -/
theorem mem_entries_outcomeFor {e : Digest × Outcome}
    (h : e ∈ (c.outcomeFor code).cache.outcomes.entries) :
    e = (code.digest, code.validate) ∨ e ∈ c.outcomes.entries := by
  rcases c.outcomes.find?_cases code.digest with ⟨o, ho⟩ | hnot
  · rw [outcomeFor_of_find? ho] at h
    exact Or.inr (Recency.mem_entries_get h)
  · rw [outcomeFor_of_not_mem hnot] at h
    exact Recency.mem_entries_push hnot h

/-- A call for an outcome gives the one that validation gives, or one that was
stored under the digest of the code. -/
theorem outcome_outcomeFor_cases (c : Cache) (code : Code) :
    (c.outcomeFor code).outcome = code.validate ∨
      (code.digest, (c.outcomeFor code).outcome) ∈ c.outcomes.entries := by
  rcases c.outcomes.find?_cases code.digest with ⟨o, ho⟩ | hnot
  · rw [outcomeFor_of_find? ho]
    exact Or.inr (Recency.mem_entries_of_find? ho)
  · rw [outcomeFor_of_not_mem hnot]
    exact Or.inl rfl

end Cache
end EvmCheck
