import EvmCheck.Recency
import EvmCheck.Survey

/-!
# The cache of outcomes

The cache keeps outcomes by the digest of the code.  Several callers may use it
at once: a call that does not find its outcome validates the code on its own
time, and only then stores the outcome.  So a call has two parts, between which
other calls may change the cache:

* `begin` looks the digest up, and is all there is to a call that finds it;
* `finish` looks it up once more, and stores the outcome if it is still missing.

`outcomeFor` is a call that nothing comes between.
-/

namespace EvmCheck

/-- A cache of outcomes by digest. -/
structure Cache where
  /-- The outcomes in the order of last use. -/
  outcomes : Recency Digest Outcome

namespace Cache

/-- Number of outcomes that a cache keeps unless told otherwise. -/
def defaultCapacity : Nat := 4096

/-- A cache without outcomes that has room for `capacity` of them, but at least
for one. -/
def empty (capacity : Nat) : Cache where
  outcomes := .empty capacity

/-- The largest number of outcomes. -/
def capacity (c : Cache) : Nat :=
  c.outcomes.capacity

/-- The number of outcomes. -/
def size (c : Cache) : Nat :=
  c.outcomes.size

/-- Whether there are no outcomes. -/
def isEmpty (c : Cache) : Bool :=
  c.size = 0

/-- The digests, the most recently used first. -/
def digests (c : Cache) : List Digest :=
  c.outcomes.keys

/-- The cache as a record of its size and capacity. -/
def record (c : Cache) : String :=
  Text.record "JumpDestCache"
    [("len", Text.decimal c.size), ("capacity", Text.decimal c.capacity)]

/-- The outcome for a digest, and the cache after this use of it. -/
def get (c : Cache) (d : Digest) : Option Outcome × Cache :=
  let used := c.outcomes.get d
  (used.1, { outcomes := used.2 })

/-- Takes out all outcomes. -/
def clear (c : Cache) : Cache where
  outcomes := c.outcomes.clear

/-- What a complete call gives. -/
structure Reply where
  /-- The outcome for the code. -/
  outcome : Outcome
  /-- The cache after the call. -/
  cache : Cache
  /-- What the call logged. -/
  events : Array Event

/-- A call between its two parts. -/
structure Pending where
  /-- The digest of the code. -/
  digest : Digest
  /-- The validation of the code. -/
  validation : Validation

/-- What the first part of a call leads to. -/
inductive Begun
  /-- The outcome was there, and the call is complete. -/
  | hit (reply : Reply)
  /-- The outcome was missing; the cache is as it was. -/
  | miss (call : Pending)

/-- The first part of a call. -/
def begin (c : Cache) (code : Code) : Begun :=
  let digest := code.digest
  match c.get digest with
  | (some outcome, cache) =>
      .hit
        { outcome := outcome, cache := cache, events := #[.cacheHit digest] }
  | (none, _) =>
      .miss { digest := digest, validation := code.validateLogged }

/-- The second part of a call; its events are those after the validation. -/
def finish (c : Cache) (call : Pending) : Reply :=
  match c.get call.digest with
  | (some outcome, cache) =>
      { outcome := outcome, cache := cache, events := #[] }
  | (none, cache) =>
      let pushed := cache.outcomes.push call.digest call.validation.outcome
      { outcome := call.validation.outcome
        cache := { outcomes := pushed.1 }
        events := (pushed.2.map fun e => Event.cacheEvicted e.1).toArray }

/-- The outcome for code, from the cache or by validating it. -/
def outcomeFor (c : Cache) (code : Code) : Reply :=
  match c.begin code with
  | .hit reply => reply
  | .miss call =>
      let reply := c.finish call
      { reply with events := call.validation.events ++ reply.events }

end Cache
end EvmCheck
