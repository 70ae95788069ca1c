import GraphQLTools.SingleflightInv

/-!
# Singleflight: safety and outcome

The invariant gives the three safety properties of the protocol over every reachable state
(`singleflight_safe`), and what every call has written and returns once it has returned
(`calls_outcome`): the bytes `Load` wrote for its key, appended to the caller's buffer; the
error `Load` returned for a dependent, and `leaderErr` for the leader, which drops that error
as soon as `Load` wrote anything. `resolveSingleFetch_eq` relates this to the resolver's
sequential `resolveSingleFetch`, whose leader path returns the same `leaderErr`.

The key of a fetch is the hash of its data source's `UniqueIdentifier()` followed by its
prepared input (`fetchID`). Even for an injective hash, two fetches whose identifier and input
differ but concatenate to the same bytes share a key, and the second waits on the first's load
(`singleflight_sharesDistinctFetches`).
-/

namespace GraphQLTools

namespace Singleflight

section

variable {load : UInt64 → LoadResult} {s s' : St} {t : Nat}

/-- A statement changes only its thread's call, and never the call's key or caller buffer. -/
theorem step_calls (hs : step load s t = some s') : ∃ c : Call,
    s'.calls = Function.update s.calls t c ∧ c.key = (s.calls t).key ∧ c.init = (s.calls t).init := by
  cases hp : (s.calls t).pc <;> simp only [step, hp] at hs <;> (try split_ifs at hs) <;>
    (try split at hs) <;> (try simp only [Option.some.injEq, reduceCtorEq] at hs) <;>
    (try subst hs) <;> exact ⟨_, rfl, rfl, rfl⟩

theorem next_calls {a : Act} (hs : next load s a = some s') : ∃ t c,
    s'.calls = Function.update s.calls t c ∧ c.key = (s.calls t).key ∧ c.init = (s.calls t).init := by
  cases a with
  | step t => exact ⟨t, step_calls hs⟩
  | allocate t r =>
    simp only [next, allocate] at hs
    split at hs
    · obtain rfl := Option.some.inj hs; exact ⟨t, _, rfl, rfl, rfl⟩
    · cases hs

/-- Every call keeps the key and the buffer it was started with. -/
theorem calls_ids {keys : Nat → UInt64} {bufs : Nat → BufPair}
    (hr : Reachable load (initial keys bufs) s) (t : Nat) :
    (s.calls t).key = keys t ∧ (s.calls t).init = bufs t := by
  induction hr generalizing t with
  | refl => exact ⟨rfl, rfl⟩
  | tail _ hs ih =>
    obtain ⟨a, ha⟩ := hs
    obtain ⟨t', c, hc, hk, hi⟩ := next_calls ha
    rw [hc, Function.update_apply]
    split_ifs with ht
    · subst ht; exact ⟨hk.trans (ih t).1, hi.trans (ih t).2⟩
    · exact ih t

end

/-- The safety properties of singleflight in a state. -/
structure Safe (load : UInt64 → LoadResult) (s : St) : Prop where
  /-- At most one `Load` runs per key. -/
  oneLoad : ∀ t t' r r', (s.calls t).pc = .leaderLoad r → (s.calls t').pc = .leaderLoad r' →
    (s.calls t).key = (s.calls t').key → t = t'
  /-- A dependent reads a record only once its leader has stored the error of `Load`, so the
  record holds what `Load` wrote for the dependent's key and the error it returned. -/
  readStored : ∀ t r, (s.calls t).pc = .depRead r → ∃ t', (s.calls t').pc.stored r ∧
    (s.calls t').key = (s.calls t).key ∧
    (s.records r).bufPair = loadInto (load (s.calls t).key) BufPair.empty ∧
    (s.records r).err = (load (s.calls t).key).err
  /-- A record in the pool, or being freed, is under no key of the map and in no dependent's
  hands. -/
  freeUnreachable : ∀ r, ((s.records r).pooled ∨ ∃ t, (s.calls t).pc = .freeing r) →
    (∀ k, s.inflight k ≠ some r) ∧ ∀ t, (s.calls t).pc.isDep r = false

/-- **Singleflight is safe** in every state reachable from calls that have not started, under
any interleaving. -/
theorem singleflight_safe (load : UInt64 → LoadResult) (keys : Nat → UInt64)
    (bufs : Nat → BufPair) (s : St) (hr : Reachable load (initial keys bufs) s) : Safe load s := by
  have h := inv_reachable hr
  refine ⟨fun t t' r r' ht ht' hk => ?_, fun t r ht => ?_, fun r hfree => ?_⟩
  · have e := h.map.entry t r (by simp [ht, Pc.inMap])
    rw [hk, h.map.entry t' r' (by simp [ht', Pc.inMap]), Option.some_inj] at e
    subst e
    exact h.owner_unique t t' r' (by simp [ht, Pc.isOwner]) (by simp [ht', Pc.isOwner])
  · obtain ⟨o, ho, hko, hst⟩ := h.dep_owner t r (by simp [ht, Pc.isDep])
    have hrec := h.record o r ho
    simp only [RecordOk, Pc.loaded_of_stored (hst ht), if_true, hko, hst ht, true_implies]
      at hrec
    exact ⟨o, hst ht, hko, hrec⟩
  · -- an owner of `r` is the goroutine freeing it, which has left the map
    have howner : ∀ o, (s.calls o).pc.isOwner r → (s.calls o).pc = .freeing r := by
      intro o ho
      rcases hfree with hp | ⟨f, hf⟩
      · simp [(h.live o r (by simp [ho])).1] at hp
      · rw [h.owner_unique o f r ho (by simp [hf, Pc.isOwner]), hf]
    refine ⟨fun k hk => ?_, fun t => Bool.eq_false_iff.mpr fun hd => ?_⟩
    · obtain ⟨o, ho, -⟩ := h.map.owner k r hk
      simp [howner o (Pc.isOwner_of_inMap ho), Pc.inMap] at ho
    · rcases hfree with hp | ⟨f, hf⟩
      · simp [(h.live t r (by simp [hd])).1] at hp
      · simpa [h.freeing f r hf] using (h.readers t r).2 hd

/-- **What every call returns.** Once a call has returned it has appended to its caller's
buffer exactly the bytes `Load` wrote for its key. A dependent returns the error `Load`
returned; the leader returns `leaderErr`, which is that error only when `Load` wrote
nothing. -/
theorem calls_outcome (load : UInt64 → LoadResult) (keys : Nat → UInt64) (bufs : Nat → BufPair)
    (s : St) (hr : Reachable load (initial keys bufs) s) (t : Nat) :
    ((s.calls t).pc = .depReturned →
      (s.calls t).buf = loadInto (load (keys t)) (bufs t) ∧ (s.calls t).err = (load (keys t)).err) ∧
    ((s.calls t).pc.leaderReturned →
      (s.calls t).buf = loadInto (load (keys t)) (bufs t) ∧
        (s.calls t).err = leaderErr (load (keys t))) := by
  have hc := (inv_reachable hr).call t
  obtain ⟨hk, hi⟩ := calls_ids hr t
  rw [CallOk, hk, hi] at hc
  refine ⟨fun hp => by rw [hp] at hc; exact hc, fun hp => ?_⟩
  cases h : (s.calls t).pc <;> simp only [h, Pc.leaderReturned] at hp hc <;> first
    | exact hc | cases hp

/-- `resolveSingleFetch` as the resolver runs it: what `Load` wrote is appended to the buffer,
and the error is `Load`'s on the direct path and `leaderErr` on the leader's path. -/
theorem resolveSingleFetch_eq (enableSingleFlightLoader : Bool) (fetch : SingleFetch)
    (preparedInput : String) (buf : BufPair) :
    resolveSingleFetch enableSingleFlightLoader fetch preparedInput buf =
      ((if !enableSingleFlightLoader || fetch.disallowSingleFlight
          then (fetch.dataSource.load preparedInput).err
          else leaderErr (fetch.dataSource.load preparedInput)).map FetchError.load,
        loadInto (fetch.dataSource.load preparedInput) buf) := by
  unfold resolveSingleFetch leaderErr
  dsimp only
  split_ifs <;> rfl

/-! ## A `Load` that writes and fails -/

/-- `Load` writes the data `d` and returns the error `e`. -/
def errLoad (_ : UInt64) : LoadResult := ⟨"d", "", some "e"⟩

/-- A fetch whose data source loads so. -/
def errFetch : SingleFetch := ⟨0, ⟨fun _ => errLoad 7, "err"⟩, false, ⟨[]⟩⟩

/-- Calls of one key with empty buffers. -/
def errStart : St := initial (fun _ => 7) fun _ => BufPair.empty

/-- Call 0 takes the key and starts `Load`; call 1 finds the key and waits; call 0 finishes and
stores; call 1 reads and returns; call 0 deletes the key and frees the record. -/
def errRun : List Act :=
  [.step 0, .allocate 0 0, .step 0, .step 1, .step 1, .step 1, .step 0, .step 0, .step 0, .step 0,
    .step 1, .step 1, .step 1, .step 0, .step 0, .step 0, .step 0, .step 0]

/-- The state once call 1 reads the record, and at the end of the run. -/
def errRead : St := (run errLoad errStart (errRun.take 11)).getD errStart

def errEnd : St := (run errLoad errStart errRun).getD errStart

theorem errRead_reachable : Reachable errLoad errStart errRead :=
  reachable_of_run (errRun.take 11) rfl

theorem errEnd_reachable : Reachable errLoad errStart errEnd := reachable_of_run errRun rfl

theorem singleflight_safe_errRead : (errRead.calls 1).pc = .depRead 0 ∧ Safe errLoad errRead :=
  ⟨rfl, singleflight_safe errLoad _ _ errRead errRead_reachable⟩

theorem calls_outcome_errEnd : (errEnd.calls 1).pc = .depReturned ∧
    ((errEnd.calls 1).pc = .depReturned →
      (errEnd.calls 1).buf = loadInto (errLoad 7) BufPair.empty ∧
        (errEnd.calls 1).err = (errLoad 7).err) ∧
    ((errEnd.calls 1).pc.leaderReturned →
      (errEnd.calls 1).buf = loadInto (errLoad 7) BufPair.empty ∧
        (errEnd.calls 1).err = leaderErr (errLoad 7)) :=
  ⟨rfl, calls_outcome errLoad _ _ errEnd errEnd_reachable 1⟩

/-- On this run both calls append `d`; the dependent returns `e` and the leader nil, where
`resolveSingleFetch` with singleflight off returns `e`. -/
theorem leader_drops_load_error : Reachable errLoad errStart errEnd ∧
    (errEnd.calls 0).pc = .freed ∧ (errEnd.calls 0).buf = ⟨"d", ""⟩ ∧
    (errEnd.calls 0).err = none ∧
    (errEnd.calls 1).pc = .depReturned ∧ (errEnd.calls 1).buf = ⟨"d", ""⟩ ∧
    (errEnd.calls 1).err = some "e" ∧
    resolveSingleFetch true errFetch "" BufPair.empty = (none, ⟨"d", ""⟩) ∧
    resolveSingleFetch false errFetch "" BufPair.empty = (some (.load "e"), ⟨"d", ""⟩) :=
  ⟨errEnd_reachable, rfl, rfl, rfl, rfl, rfl, rfl, rfl, rfl⟩

/-! ## The key of a fetch -/

/-- The key `resolveSingleFetch` computes for a fetch: one hash written first the data
source's `UniqueIdentifier` and then the prepared input, so the hash of their concatenation. -/
def fetchID {K : Type} (hash64 : String → K) (uniqueIdentifier preparedInput : String) : K :=
  hash64 (uniqueIdentifier ++ preparedInput)

/-- Even under an injective hash, two fetches share a key exactly when identifier and input
concatenate to the same bytes. -/
theorem fetchID_eq_iff {K : Type} {hash64 : String → K} (hinj : Function.Injective hash64)
    (uniqueIdentifier preparedInput uniqueIdentifier' preparedInput' : String) :
    fetchID hash64 uniqueIdentifier preparedInput =
        fetchID hash64 uniqueIdentifier' preparedInput' ↔
      uniqueIdentifier ++ preparedInput = uniqueIdentifier' ++ preparedInput' :=
  hinj.eq_iff

/-- The identifier `ab` with the input `c` and the identifier `a` with the input `bc` share a
key. -/
example : fetchID id "ab" "c" = fetchID id "a" "bc" := by decide

/-- Two calls of one key: the first takes the key and starts `Load`, and the second, arriving
at the map lookup, finds the first's record and becomes its dependent. -/
theorem dependent_of_same_key (load : UInt64 → LoadResult) (keys : Nat → UInt64)
    (bufs : Nat → BufPair) (h : keys 1 = keys 0) :
    ∃ s, Reachable load (initial keys bufs) s ∧ (s.calls 0).pc = .leaderLoad 0 ∧
      (s.calls 1).pc = .depUnlock 0 := by
  obtain ⟨s, hs, h0, h1⟩ : ∃ s, run load (initial keys bufs)
      [.step 0, .allocate 0 0, .step 0, .step 1, .step 1] = some s ∧
        (s.calls 0).pc = .leaderLoad 0 ∧ (s.calls 1).pc = .depUnlock 0 := by
    simp [run, next, step, allocate, initial, St.setPc, St.setCall, St.setRecord, h,
      Function.update_apply]
  exact ⟨s, reachable_of_run _ hs, h0, h1⟩

/-- The fetch of data source `ab` with input `c` and the fetch of data source `a` with input
`bc` differ, but have one key under every hash: a call of the second that comes while a call
of the first is loading finds the first's record and waits for its bytes. -/
theorem singleflight_sharesDistinctFetches (hash64 : String → UInt64)
    (load : UInt64 → LoadResult) (bufs : Nat → BufPair) :
    ("ab", "c") ≠ ("a", "bc") ∧ fetchID hash64 "ab" "c" = fetchID hash64 "a" "bc" ∧
      ∃ s, Reachable load (initial (fun t => if t = 0 then fetchID hash64 "ab" "c"
          else fetchID hash64 "a" "bc") bufs) s ∧
        (s.calls 0).pc = .leaderLoad 0 ∧ (s.calls 1).pc = .depUnlock 0 := by
  have e : fetchID hash64 "ab" "c" = fetchID hash64 "a" "bc" := by
    simp only [fetchID, show "ab" ++ "c" = "a" ++ "bc" by decide]
  exact ⟨by decide, e, dependent_of_same_key load _ bufs (by simp [e])⟩

end Singleflight

end GraphQLTools
