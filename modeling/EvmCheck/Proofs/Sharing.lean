import EvmCheck.Proofs.Calls
import Mathlib.Data.Set.Function
import Mathlib.Logic.Function.Basic

/-!
# Several callers of one cache

Callers take turns at the cache: only one of them holds it at a time, and what it
does then is one `Turn`.  A lookup and a clearing take one turn.  A call for the
outcome of code takes one turn if it finds the outcome; otherwise it takes a
second one, and any number of turns of other callers may come between the two.

`Step` is one turn, taken from the parts `begin` and `finish` of a call, and `Run`
is any interleaving of turns from an empty cache on.  There may be any number of
callers, and a caller that is not between the two turns of a call may make any
call next.

**Results.**
* `Step.respond_eq`, `Step.cache_eq`: a turn that completes a call does what the
  whole call does, and any other turn does nothing to the cache.
* `Run.linearizable`: a run is a sequence of whole calls.
* `Run.transparent`: the cache gives the outcomes that validation gives, as long
  as different codes have different digests.
-/

namespace EvmCheck
namespace Cache

/-- What a caller does while it holds the cache. -/
inductive Turn
  /-- It asks for an outcome and finds it, which completes the call. -/
  | hit (code : Code) (outcome : Outcome)
  /-- It asks for an outcome in vain. -/
  | miss (code : Code)
  /-- It comes back with the outcome of its own, which completes the call. -/
  | finish (code : Code) (outcome : Outcome)
  | get (digest : Digest) (outcome : Option Outcome)
  | clear

/-- The call that a turn completes, and its answer. -/
def Turn.completed? : Turn → Option (Call × Answer)
  | hit code outcome => some (.outcomeFor code, .outcome outcome)
  | miss _ => none
  | finish code outcome => some (.outcomeFor code, .outcome outcome)
  | get digest outcome => some (.get digest, .found outcome)
  | clear => some (.clear, .cleared)

/-- The code with which a turn begins a call. -/
def Turn.presented? : Turn → Option Code
  | hit code _ => some code
  | miss code => some code
  | _ => none

/-- A cache together with the callers that are between the two turns of a call. -/
structure Shared (ι : Type) where
  cache : Cache
  waiting : ι → Option (Code × Pending)

section Runs

variable {ι : Type}

/-- The calls that turns complete, in the order of their last turns. -/
def completed (turns : List (ι × Turn)) : List (Call × Answer) :=
  turns.filterMap fun t => t.2.completed?

/-- The codes with which turns begin a call. -/
def presented (turns : List (ι × Turn)) : List Code :=
  turns.filterMap fun t => t.2.presented?

theorem completed_concat (turns : List (ι × Turn)) (i : ι) (turn : Turn) :
    completed (turns ++ [(i, turn)]) = completed turns ++ turn.completed?.toList := by
  rw [completed, List.filterMap_append]
  cases h : turn.completed? <;> simp [completed, h]

theorem mem_presented_concat (turns : List (ι × Turn)) (i : ι) (turn : Turn)
    {code : Code} :
    code ∈ presented (turns ++ [(i, turn)]) ↔
      code ∈ presented turns ∨ turn.presented? = some code := by
  simp [presented]

theorem presented_subset_concat (turns : List (ι × Turn)) (i : ι) (turn : Turn) :
    presented turns ⊆ presented (turns ++ [(i, turn)]) := by
  intro code hcode
  exact (mem_presented_concat turns i turn).mpr (Or.inl hcode)

variable [DecidableEq ι] {s s' : Shared ι} {i j : ι} {turn : Turn}
  {turns : List (ι × Turn)} {capacity : Nat} {code : Code}

/-- One turn of the caller `i`. -/
inductive Step : Shared ι → ι → Turn → Shared ι → Prop
  | hit {s : Shared ι} {i : ι} {code : Code} {reply : Reply}
      (hfree : s.waiting i = none) (hbegin : s.cache.begin code = .hit reply) :
      Step s i (.hit code reply.outcome) { s with cache := reply.cache }
  | miss {s : Shared ι} {i : ι} {code : Code} {call : Pending}
      (hfree : s.waiting i = none) (hbegin : s.cache.begin code = .miss call) :
      Step s i (.miss code)
        { s with waiting := Function.update s.waiting i (some (code, call)) }
  | finish {s : Shared ι} {i : ι} {code : Code} {call : Pending} {reply : Reply}
      (hwaiting : s.waiting i = some (code, call))
      (hfinish : s.cache.finish call = reply) :
      Step s i (.finish code reply.outcome)
        { cache := reply.cache, waiting := Function.update s.waiting i none }
  | get {s : Shared ι} {i : ι} {digest : Digest} {found : Option Outcome}
      {cache : Cache} (hfree : s.waiting i = none)
      (hget : s.cache.get digest = (found, cache)) :
      Step s i (.get digest found) { s with cache := cache }
  | clear {s : Shared ι} {i : ι} (hfree : s.waiting i = none) :
      Step s i .clear { s with cache := s.cache.clear }

/-- The interleavings of turns from an empty cache on, with the state to which
they lead. -/
inductive Run (capacity : Nat) : List (ι × Turn) → Shared ι → Prop
  | start : Run capacity [] { cache := .empty capacity, waiting := fun _ => none }
  | step {turns : List (ι × Turn)} {s s' : Shared ι} {i : ι} {turn : Turn}
      (hrun : Run capacity turns s) (hstep : Step s i turn s') :
      Run capacity (turns ++ [(i, turn)]) s'

/-! ### A race -/

/-- Two callers miss the same code; the second one stores its outcome, and the
first one comes too late.  The outcome of another code then displaces it. -/
def race (a b : Code) : List (Fin 2 × Turn) :=
  [(0, .miss a), (1, .miss a), (1, .finish a a.validate), (0, .finish a a.validate),
    (1, .miss b), (1, .finish b b.validate), (0, .get a.digest none)]

/-- A cache with room for one outcome, which is that of `code`. -/
def holding (code : Code) : Cache where
  outcomes := { capacity := 1, entries := [(code.digest, code.validate)] }

theorem digest_marker_ne : Code.digest #[0x5b, 0x00] ≠ Code.digest #[0x00] := by
  decide +kernel

theorem exists_run_race {a b : Code} (hne : b.digest ≠ a.digest) :
    ∃ s, Run 1 (race a b) s := by
  have hfirst : a.digest ∉ (Cache.empty 1).digests := List.not_mem_nil
  have hstored : (Cache.empty 1).finish (.ofCode a) =
      { outcome := a.validate, cache := holding a, events := #[] } :=
    rfl
  have hlate : (holding a).finish (.ofCode a) =
      { outcome := a.validate, cache := holding a, events := #[] } := by
    simp [holding, finish, get, Recency.get, Recency.find?, Recency.others,
      Pending.ofCode]
  have hnot : b.digest ∉ (holding a).digests := by
    simp [holding, digests, Recency.keys, hne]
  have hdisplaced : (holding a).finish (.ofCode b) =
      { outcome := b.validate
        cache := holding b
        events := #[.cacheEvicted a.digest] } := by
    simp [holding, finish, get, Recency.get, Recency.push, Recency.find?,
      Recency.size, Pending.ofCode, Code.validate, hne.symm]
  have hget : (holding b).get a.digest = (none, holding b) := by
    refine get_of_not_mem ?_
    simp [holding, digests, Recency.keys, hne.symm]
  have h₀ : Run 1 ([] : List (Fin 2 × Turn)) ⟨.empty 1, fun _ => none⟩ := .start
  have h₁ := h₀.step (.miss (i := 0) rfl (begin_of_not_mem hfirst))
  have h₂ := h₁.step (.miss (i := 1) rfl (begin_of_not_mem hfirst))
  have h₃ := h₂.step (.finish (i := 1) rfl hstored)
  have h₄ := h₃.step (.finish (i := 0) rfl hlate)
  have h₅ := h₄.step (.miss (i := 1) rfl (begin_of_not_mem hnot))
  have h₆ := h₅.step (.finish (i := 1) rfl hdisplaced)
  exact ⟨_, h₆.step (.get (i := 0) rfl hget)⟩

/-! ### Turns and whole calls -/

/-- A caller between two turns has begun the call before, or begins it now. -/
theorem Step.waiting_cases {call : Pending} (hstep : Step s i turn s')
    (h : s'.waiting j = some (code, call)) :
    s.waiting j = some (code, call) ∨ turn = .miss code ∧ call = .ofCode code := by
  cases hstep with
  | hit | get | clear => exact Or.inl h
  | miss _ hbegin =>
      by_cases hj : j = i
      · subst hj
        simp only [Function.update_self, Option.some.injEq, Prod.mk.injEq] at h
        obtain ⟨rfl, rfl⟩ := h
        exact Or.inr ⟨rfl, eq_ofCode_of_miss hbegin⟩
      · simp only [Function.update_of_ne hj] at h
        exact Or.inl h
  | finish =>
      by_cases hj : j = i
      · subst hj
        simp at h
      · simp only [Function.update_of_ne hj] at h
        exact Or.inl h

/-- A call between its two turns knows its code, which has been presented. -/
theorem Run.waiting_eq {call : Pending} (hrun : Run capacity turns s)
    (h : s.waiting j = some (code, call)) :
    call = .ofCode code ∧ code ∈ presented turns := by
  induction hrun with
  | start => cases h
  | step _ hstep ih =>
      rw [mem_presented_concat]
      rcases hstep.waiting_cases h with h | ⟨rfl, hcall⟩
      · exact ⟨(ih h).1, Or.inl (ih h).2⟩
      · exact ⟨hcall, Or.inr rfl⟩

/-- A turn that completes no call leaves the cache as it is. -/
theorem Step.cache_eq (hstep : Step s i turn s') (h : turn.completed? = none) :
    s'.cache = s.cache := by
  cases hstep with
  | miss => rfl
  | hit | finish | get | clear => cases h

/-- A turn that completes a call does what the whole call does. -/
theorem Step.respond_eq {call : Call} {answer : Answer}
    (hrun : Run capacity turns s) (hstep : Step s i turn s')
    (h : turn.completed? = some (call, answer)) :
    s.cache.respond call = (answer, s'.cache) := by
  cases hstep with
  | hit _ hbegin =>
      cases h
      rw [respond, outcomeFor_of_hit hbegin]
  | miss => cases h
  | finish hwaiting hfinish =>
      cases h
      -- the call still knows its own code, whatever happened since its first turn
      obtain ⟨rfl, -⟩ := hrun.waiting_eq hwaiting
      obtain ⟨houtcome, hcache⟩ := s.cache.finish_ofCode _
      rw [respond, ← houtcome, ← hcache, hfinish]
  | get _ hget =>
      cases h
      rw [respond, hget]
  | clear => cases h; rfl

/-- **Linearizability.**  In every interleaving, the answers of the completed
calls and the cache after them are those of the same calls made one after the
other, each without interruption, in the order of their last turns. -/
theorem Run.linearizable (hrun : Run capacity turns s) :
    (Cache.empty capacity).serve ((completed turns).map Prod.fst) =
      ((completed turns).map Prod.snd, s.cache) := by
  induction hrun with
  | start => rfl
  | @step turns s s' i turn hrun hstep ih =>
      rw [completed_concat]
      cases h : turn.completed? with
      | none =>
          rw [hstep.cache_eq h, Option.toList_none, List.append_nil, ih]
      | some completion =>
          obtain ⟨call, answer⟩ := completion
          rw [Option.toList_some, List.map_append, List.map_append, List.map_singleton,
            List.map_singleton, serve_concat, ih, hstep.respond_eq hrun h]

/-- Both callers of the race get the outcome that was stored first. -/
theorem race_linearizable :
    ∃ s, Run 1 (race #[0x00] #[0x5b, 0x00]) s ∧
      (Cache.empty 1).serve
          [.outcomeFor #[0x00], .outcomeFor #[0x00], .outcomeFor #[0x5b, 0x00],
            .get (Code.digest #[0x00])] =
        ([.outcome (.accepted (.empty 1)), .outcome (.accepted (.empty 1)),
            .outcome (.accepted ((PositionSet.empty 2).insert 0)), .found none],
          s.cache) := by
  have hstop : Code.validate #[0x00] = .accepted (.empty 1) := by decide +kernel
  have hmarker : Code.validate #[0x5b, 0x00] =
      .accepted ((PositionSet.empty 2).insert 0) := by
    decide +kernel
  obtain ⟨s, hrun⟩ := exists_run_race digest_marker_ne
  have hserve := hrun.linearizable
  rw [← hstop, ← hmarker]
  exact ⟨s, hrun, hserve⟩

/-! ### Where outcomes come from -/

/-- Every outcome of the cache is that of validating one of the codes, under the
digest of that code. -/
def StoresOnly (codes : List Code) (c : Cache) : Prop :=
  ∀ digest outcome, (digest, outcome) ∈ c.outcomes.entries →
    ∃ code ∈ codes, code.digest = digest ∧ outcome = code.validate

theorem StoresOnly.mono {codes codes' : List Code} {c : Cache}
    (h : StoresOnly codes c) (hsub : codes ⊆ codes') : StoresOnly codes' c := by
  intro digest outcome hmem
  obtain ⟨code, hcode, hstored⟩ := h digest outcome hmem
  exact ⟨code, hsub hcode, hstored⟩

theorem StoresOnly.respond {codes : List Code} {c : Cache} (call : Call)
    (h : StoresOnly codes c)
    (hcall : ∀ code, call = .outcomeFor code → code ∈ codes) :
    StoresOnly codes (c.respond call).2 := by
  intro digest outcome hmem
  cases call with
  | outcomeFor code =>
      rcases mem_entries_outcomeFor hmem with heq | hmem
      · obtain ⟨rfl, rfl⟩ := Prod.mk.inj heq
        exact ⟨code, hcall code rfl, rfl, rfl⟩
      · exact h digest outcome hmem
  | get d => exact h digest outcome (Recency.mem_entries_get hmem)
  | clear => cases hmem

theorem Step.mem_presented {answer : Answer} (hrun : Run capacity turns s)
    (hstep : Step s i turn s')
    (h : turn.completed? = some (.outcomeFor code, answer)) :
    code ∈ presented (turns ++ [(i, turn)]) := by
  rw [mem_presented_concat]
  cases hstep with
  | hit => cases h; exact Or.inr rfl
  | finish hwaiting _ => cases h; exact Or.inl (hrun.waiting_eq hwaiting).2
  | miss | get | clear => cases h

theorem Run.storesOnly (hrun : Run capacity turns s) :
    StoresOnly (presented turns) s.cache := by
  -- a turn that completes a call is a whole call, and the others store nothing
  induction hrun with
  | start =>
      intro digest outcome hmem
      cases hmem
  | @step turns s s' i turn hrun hstep ih =>
      have hmono := ih.mono (presented_subset_concat turns i turn)
      cases h : turn.completed? with
      | none =>
          rw [hstep.cache_eq h]
          exact hmono
      | some completion =>
          obtain ⟨call, answer⟩ := completion
          have hrespond := hmono.respond call fun code hcode =>
            hstep.mem_presented hrun (hcode ▸ h)
          rw [hstep.respond_eq hrun h] at hrespond
          exact hrespond

/-- Every answer was given by a cache that stored only outcomes of the codes
presented, one of which is the code of the call. -/
theorem Run.exists_respond {call : Call} {answer : Answer}
    (hrun : Run capacity turns s) (h : (call, answer) ∈ completed turns) :
    ∃ c, StoresOnly (presented turns) c ∧ (c.respond call).1 = answer ∧
      ∀ code, call = .outcomeFor code → code ∈ presented turns := by
  induction hrun with
  | start => cases h
  | @step turns s s' i turn hrun hstep ih =>
      have hsub := presented_subset_concat turns i turn
      rw [completed_concat] at h
      rcases List.mem_append.mp h with h | h
      · obtain ⟨c, hstores, hanswer, hcall⟩ := ih h
        exact ⟨c, hstores.mono hsub, hanswer, fun code hcode => hsub (hcall code hcode)⟩
      · have hturn := Option.mem_toList.mp h
        refine ⟨s.cache, hrun.storesOnly.mono hsub, ?_, ?_⟩
        · rw [hstep.respond_eq hrun hturn]
        · rintro code rfl
          exact hstep.mem_presented hrun hturn

/-- **The cache is transparent.**  If different codes presented in a run have
different digests, the cache holds under a digest what validation gives for the
presented code with this digest.  So a completed call for an outcome, whichever
turn completed it, has the outcome of validation; and a lookup has found nothing,
or the outcome of validating the presented code with this digest. -/
theorem Run.transparent (hrun : Run capacity turns s)
    (hdistinct : Set.InjOn Code.digest {code | code ∈ presented turns}) :
    (∀ digest outcome, (digest, outcome) ∈ s.cache.outcomes.entries →
      ∃ code ∈ presented turns, code.digest = digest ∧ outcome = code.validate) ∧
    (∀ code answer, (Call.outcomeFor code, answer) ∈ completed turns →
      answer = .outcome code.validate) ∧
    (∀ digest answer, (Call.get digest, answer) ∈ completed turns →
      answer = .found none ∨
        ∃ code ∈ presented turns, code.digest = digest ∧
          (∀ code' ∈ presented turns, code'.digest = digest → code' = code) ∧
          answer = .found (some code.validate)) := by
  refine ⟨hrun.storesOnly, ?_, ?_⟩
  · intro code answer h
    obtain ⟨c, hstores, rfl, hcall⟩ := hrun.exists_respond h
    rcases c.outcome_outcomeFor_cases code with houtcome | hmem
    · exact congrArg Answer.outcome houtcome
    · -- what was found belongs to a presented code, which can only be this one
      obtain ⟨code', hcode', hdigest, houtcome⟩ := hstores _ _ hmem
      obtain rfl := hdistinct hcode' (hcall code rfl) hdigest
      exact congrArg Answer.outcome houtcome
  · intro digest answer h
    obtain ⟨c, hstores, rfl, -⟩ := hrun.exists_respond h
    rcases c.outcomes.find?_cases digest with ⟨outcome, hfind⟩ | hnot
    · right
      obtain ⟨code, hcode, hdigest, rfl⟩ :=
        hstores _ _ (Recency.mem_entries_of_find? hfind)
      refine ⟨code, hcode, hdigest, ?_, ?_⟩
      · intro code' hcode' hdigest'
        exact hdistinct hcode' hcode (hdigest'.trans hdigest.symm)
      · rw [respond, get_of_find? hfind]
    · left
      rw [respond, get_of_not_mem hnot]

/-- In the race, different codes have different digests. -/
theorem race_transparent :
    ∃ s, Run 1 (race #[0x00] #[0x5b, 0x00]) s ∧
      Set.InjOn Code.digest {code | code ∈ presented (race #[0x00] #[0x5b, 0x00])} ∧
      (∀ digest outcome, (digest, outcome) ∈ s.cache.outcomes.entries →
        ∃ code ∈ presented (race #[0x00] #[0x5b, 0x00]),
          code.digest = digest ∧ outcome = code.validate) ∧
      ∀ code answer,
        (Call.outcomeFor code, answer) ∈ completed (race #[0x00] #[0x5b, 0x00]) →
          answer = .outcome code.validate := by
  have hdistinct :
      Set.InjOn Code.digest {code | code ∈ presented (race #[0x00] #[0x5b, 0x00])} := by
    have hpresented : presented (race #[0x00] #[0x5b, 0x00]) =
        [#[0x00], #[0x00], #[0x5b, 0x00]] := rfl
    rw [hpresented]
    simp [Set.InjOn, digest_marker_ne, digest_marker_ne.symm]
  obtain ⟨s, hrun⟩ := exists_run_race digest_marker_ne
  obtain ⟨hstored, houtcomes, -⟩ := hrun.transparent hdistinct
  exact ⟨s, hrun, hdistinct, hstored, houtcomes⟩

end Runs

end Cache
end EvmCheck
