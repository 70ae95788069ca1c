import GraphQLTools.Resolve
import Mathlib.Data.Finset.Card
import Mathlib.Logic.Relation

/-!
# Singleflight

With `EnableSingleFlightLoader` set, `resolveSingleFetch` coalesces concurrent fetches of
one key (the hash of the data source's `UniqueIdentifier` and the prepared input). The first
call in, the leader, takes an `inflightFetch` record from the pool, sets its `waitLoad`
counter to one and puts it in the map `inflightFetches`, all under `inflightFetchMu`; it
runs `Load` into the record's pair, stores the error, copies the pair into its own buffer,
calls `waitLoad.Done`, deletes the key under the mutex and starts a goroutine that waits on
`waitFree` and frees the record. A call that finds the key, a dependent, calls
`waitFree.Add(1)` under the mutex, waits on `waitLoad`, copies the record's pair and error
and calls `waitFree.Done` as it returns.

The model is a step relation over any number of calls, each a thread with a program
counter; the goroutine a leader starts runs in the leader's own thread once the call has
returned. A step is one statement of the source, the critical sections of
`inflightFetchMu` included statement by statement; `sync.Pool.Get` may hand out any pooled
record or a new one, which is the one choice a step makes (`Act.allocate`). Keys stand for
fetches: `load k` is what `Load` does for the fetch of key `k`. Each record carries one
ghost field, the set of dependents that called `waitFree.Add`, whose size is the counter.

The results are the three safety properties over every reachable state
(`singleflight_safe`): at most one `Load` runs per key, a dependent reads a record only once
its leader has stored the error, and a record goes back to the pool only when no map entry
and no dependent can reach it. What a call writes and returns follows
(`calls_outcome`): every call appends the bytes `Load` wrote; a dependent returns the error
`Load` returned, and the leader returns it only when `Load` wrote nothing.
-/

namespace GraphQLTools

namespace Singleflight

/-! ## State -/

/-- Where a call is in `resolveSingleFetch`, or its goroutine in freeing the record `r`. -/
inductive Pc where
  /-- Before `inflightFetchMu.Lock()`. -/
  | start
  /-- Holding the mutex, before the map lookup. -/
  | lookup
  /-- A dependent of `r` after `waitFree.Add(1)`, before `Unlock`. -/
  | depUnlock (r : Nat)
  /-- In `waitLoad.Wait()`. -/
  | depWait (r : Nat)
  /-- Copying the record's pair and error. -/
  | depRead (r : Nat)
  /-- In the deferred `waitFree.Done()`. -/
  | depDone (r : Nat)
  /-- Returned. -/
  | depReturned
  /-- The leader of `r`, holding the mutex after putting `r` in the map. -/
  | leaderUnlock (r : Nat)
  /-- In `Load`. -/
  | leaderLoad (r : Nat)
  /-- Before `inflight.err = err`. -/
  | leaderStore (r : Nat)
  /-- Copying the record's pair into its own buffer. -/
  | leaderCopy (r : Nat)
  /-- Before `waitLoad.Done()`. -/
  | leaderDone (r : Nat)
  /-- Before the second `Lock`. -/
  | leaderLock (r : Nat)
  /-- Holding the mutex, before `delete`. -/
  | leaderDelete (r : Nat)
  /-- Holding the mutex after `delete`, before `Unlock`. -/
  | leaderUnlock2 (r : Nat)
  /-- Returned; its goroutine is in `waitFree.Wait()`. -/
  | freeWait (r : Nat)
  /-- The goroutine, in `freeInflightFetch`. -/
  | freeing (r : Nat)
  /-- The goroutine is done. -/
  | freed
  deriving DecidableEq, Repr

/-- An `inflightFetch`, with whether it sits in the pool and the ghost set of dependents
that registered on `waitFree`. -/
structure Record where
  waitLoad : Nat
  waitFree : Nat
  err : Option String
  bufPair : BufPair
  pooled : Bool
  readers : Finset Nat

/-- A record as `New` makes it, or as `freeInflightFetch` leaves it. -/
def Record.IsIdle (x : Record) : Prop :=
  x.waitLoad = 0 ∧ x.waitFree = 0 ∧ x.err = none ∧ x.bufPair = BufPair.empty ∧ x.readers = ∅

/-- One call: its key and the caller's buffer, kept as it was passed in (`init`), then the
call's program counter, its buffer as it is now, and its local `err`. -/
structure Call where
  key : UInt64
  init : BufPair
  pc : Pc
  buf : BufPair
  err : Option String

/-- The resolver's singleflight state and the calls. Records are numbered; those from
`fresh` on have never been handed out. -/
structure St where
  mutex : Option Nat
  inflight : UInt64 → Option Nat
  records : Nat → Record
  calls : Nat → Call
  fresh : Nat

/-- Calls with the given keys and buffers, none started, and no record handed out. -/
def initial (keys : Nat → UInt64) (bufs : Nat → BufPair) : St where
  mutex := none
  inflight := fun _ => none
  records := fun _ => ⟨0, 0, none, BufPair.empty, false, ∅⟩
  calls := fun t => ⟨keys t, bufs t, .start, bufs t, none⟩
  fresh := 0

namespace St

/-- Thread `t`'s call becomes `c`. -/
def setCall (s : St) (t : Nat) (c : Call) : St :=
  { s with calls := Function.update s.calls t c }

/-- Thread `t` moves to `pc`. -/
def setPc (s : St) (t : Nat) (pc : Pc) : St :=
  s.setCall t { s.calls t with pc := pc }

/-- Record `r` becomes `x`. -/
def setRecord (s : St) (r : Nat) (x : Record) : St :=
  { s with records := Function.update s.records r x }

end St

/-! ## Steps -/

/-- `buf.Data.Write(src.Data.Bytes())` when `src.HasData()`, and the same for the errors. -/
def copyInto (dst src : BufPair) : BufPair where
  data := if src.hasData then dst.data ++ src.data else dst.data
  errors := if src.hasErrors then dst.errors ++ src.errors else dst.errors

/-- The pair `b` once `Load` has written into it. -/
def loadInto (l : LoadResult) (b : BufPair) : BufPair := ⟨b.data ++ l.data, b.errors ++ l.errors⟩

/-- The error the leader returns: nil once a copy into its buffer happened. -/
def leaderErr (l : LoadResult) : Option String :=
  if l.data = "" ∧ l.errors = "" then l.err else none

theorem copyInto_loadInto_empty (l : LoadResult) (b : BufPair) :
    copyInto b (loadInto l BufPair.empty) = loadInto l b := by
  simp only [copyInto, loadInto, BufPair.hasData, BufPair.hasErrors, BufPair.empty,
    String.empty_append, bne_iff_ne, ne_eq, ite_not]
  split_ifs with h1 h2 h2 <;> simp [h1, h2]

/-- The error the leader's copy leaves: nil when `Load` wrote bytes, its error otherwise. -/
theorem copyErr_loadInto (l : LoadResult) :
    (if (loadInto l BufPair.empty).hasData || (loadInto l BufPair.empty).hasErrors then none
      else l.err) = leaderErr l := by
  simp only [loadInto, BufPair.hasData, BufPair.hasErrors, BufPair.empty, String.empty_append,
    leaderErr, bne_iff_ne, ne_eq, Bool.or_eq_true, decide_eq_true_eq, ← not_and_or, ite_not]

/-- The next statement of thread `t`; `none` when it is blocked, returned, or at the lookup
of a key the map does not hold (that step is `allocate`). -/
def step (load : UInt64 → LoadResult) (s : St) (t : Nat) : Option St :=
  let c := s.calls t
  match c.pc with
  | .start => if s.mutex = none then some { s.setPc t .lookup with mutex := some t } else none
  | .lookup =>
    match s.inflight c.key with
    | some r =>
      let x := s.records r
      some ((s.setRecord r { x with waitFree := x.waitFree + 1, readers := insert t x.readers }
        ).setPc t (.depUnlock r))
    | none => none
  | .depUnlock r => some { s.setPc t (.depWait r) with mutex := none }
  | .depWait r => if (s.records r).waitLoad = 0 then some (s.setPc t (.depRead r)) else none
  | .depRead r =>
    let x := s.records r
    some (s.setCall t { c with pc := .depDone r, buf := copyInto c.buf x.bufPair, err := x.err })
  | .depDone r =>
    let x := s.records r
    some ((s.setRecord r { x with waitFree := x.waitFree - 1, readers := x.readers.erase t }
      ).setPc t .depReturned)
  | .depReturned => none
  | .leaderUnlock r => some { s.setPc t (.leaderLoad r) with mutex := none }
  | .leaderLoad r =>
    let x := s.records r
    let l := load c.key
    some ((s.setRecord r { x with bufPair := loadInto l x.bufPair }).setCall t
      { c with pc := .leaderStore r, err := l.err })
  | .leaderStore r =>
    let x := s.records r
    some ((s.setRecord r { x with err := c.err }).setPc t (.leaderCopy r))
  | .leaderCopy r =>
    let x := s.records r
    some (s.setCall t
      { c with
        pc := .leaderDone r
        buf := copyInto c.buf x.bufPair
        err := if x.bufPair.hasData || x.bufPair.hasErrors then none else c.err })
  | .leaderDone r =>
    let x := s.records r
    some ((s.setRecord r { x with waitLoad := x.waitLoad - 1 }).setPc t (.leaderLock r))
  | .leaderLock r =>
    if s.mutex = none then some { s.setPc t (.leaderDelete r) with mutex := some t } else none
  | .leaderDelete r =>
    some { s.setPc t (.leaderUnlock2 r) with inflight := Function.update s.inflight c.key none }
  | .leaderUnlock2 r => some { s.setPc t (.freeWait r) with mutex := none }
  | .freeWait r => if (s.records r).waitFree = 0 then some (s.setPc t (.freeing r)) else none
  | .freeing r =>
    let x := s.records r
    some ((s.setRecord r { x with err := none, bufPair := BufPair.empty, pooled := true }
      ).setPc t .freed)
  | .freed => none

/-- Thread `t` at the lookup of a key the map does not hold: `getInflightFetch` hands it the
record `r`, a pooled one or a new one, `waitLoad.Add(1)`, and the map entry. -/
def allocate (s : St) (t r : Nat) : Option St :=
  let c := s.calls t
  if c.pc = .lookup ∧ s.inflight c.key = none ∧ ((s.records r).pooled = true ∨ r = s.fresh) then
    let x := s.records r
    some { (s.setRecord r { x with waitLoad := x.waitLoad + 1, pooled := false }).setPc t
        (.leaderUnlock r) with
      inflight := Function.update s.inflight c.key (some r)
      fresh := if r = s.fresh then s.fresh + 1 else s.fresh }
  else none

/-- What the scheduler does next. -/
inductive Act where
  | step (t : Nat)
  | allocate (t r : Nat)
  deriving DecidableEq, Repr

/-- The state after an action, when it is enabled. -/
def next (load : UInt64 → LoadResult) (s : St) : Act → Option St
  | .step t => step load s t
  | .allocate t r => allocate s t r

/-- One step of some thread. -/
def Step (load : UInt64 → LoadResult) (s s' : St) : Prop := ∃ a, next load s a = some s'

/-- The states a run from `s₀` reaches, under any interleaving. -/
def Reachable (load : UInt64 → LoadResult) (s₀ s : St) : Prop :=
  Relation.ReflTransGen (Step load) s₀ s

namespace St

theorem setCall_calls (s : St) (t : Nat) (c : Call) (t' : Nat) :
    (s.setCall t c).calls t' = if t' = t then c else s.calls t' :=
  Function.update_apply _ _ _ _

theorem setPc_calls (s : St) (t : Nat) (p : Pc) (t' : Nat) :
    (s.setPc t p).calls t' = if t' = t then { s.calls t with pc := p } else s.calls t' :=
  Function.update_apply _ _ _ _

theorem setRecord_records (s : St) (r : Nat) (x : Record) (r' : Nat) :
    (s.setRecord r x).records r' = if r' = r then x else s.records r' :=
  Function.update_apply _ _ _ _

@[simp] theorem setCall_records (s : St) (t : Nat) (c : Call) :
    (s.setCall t c).records = s.records := rfl

@[simp] theorem setCall_inflight (s : St) (t : Nat) (c : Call) :
    (s.setCall t c).inflight = s.inflight := rfl

@[simp] theorem setCall_fresh (s : St) (t : Nat) (c : Call) : (s.setCall t c).fresh = s.fresh :=
  rfl

@[simp] theorem setPc_records (s : St) (t : Nat) (p : Pc) : (s.setPc t p).records = s.records :=
  rfl

@[simp] theorem setPc_inflight (s : St) (t : Nat) (p : Pc) :
    (s.setPc t p).inflight = s.inflight := rfl

@[simp] theorem setPc_mutex (s : St) (t : Nat) (p : Pc) : (s.setPc t p).mutex = s.mutex := rfl

@[simp] theorem setPc_fresh (s : St) (t : Nat) (p : Pc) : (s.setPc t p).fresh = s.fresh := rfl

@[simp] theorem setRecord_calls (s : St) (r : Nat) (x : Record) :
    (s.setRecord r x).calls = s.calls := rfl

@[simp] theorem setRecord_inflight (s : St) (r : Nat) (x : Record) :
    (s.setRecord r x).inflight = s.inflight := rfl

@[simp] theorem setRecord_mutex (s : St) (r : Nat) (x : Record) :
    (s.setRecord r x).mutex = s.mutex := rfl

@[simp] theorem setRecord_fresh (s : St) (r : Nat) (x : Record) :
    (s.setRecord r x).fresh = s.fresh := rfl

end St

/-- The state after a list of actions, when each is enabled. -/
def run (load : UInt64 → LoadResult) (s : St) (acts : List Act) : Option St :=
  acts.foldlM (next load) s

theorem reachable_of_run {load : UInt64 → LoadResult} :
    ∀ {s s' : St} (acts : List Act), run load s acts = some s' → Reachable load s s'
  | _, _, [], h => by cases h; exact .refl
  | s, s', a :: acts, h => by
    simp only [run, List.foldlM_cons, Option.bind_eq_bind, Option.bind_eq_some] at h
    obtain ⟨s₁, h₁, h₂⟩ := h
    exact .head ⟨a, h₁⟩ (reachable_of_run acts h₂)

end Singleflight

end GraphQLTools
