import Mathlib.Logic.Function.Basic
import Mathlib.Data.List.Basic

/-!
# The execution engine: the plan cache, the result writer and request headers

`ExecutionEngineV2` plans an operation once per printed form: `getCachedPlan` prints the
operation against the engine's schema into a 64-bit hash and looks the key up in
`executionPlanCache`; on a miss it plans under `plannerMu`, post-processes the plan and adds it
under the key. The printer with the hash, the planner and the post-processor are not in the
source, so they are parameters (`Planning`). So is the LRU policy of the cache: the cache is
the entries it holds, any of which may be evicted between two requests (`CacheEvent.evict`).

Over every sequence of requests and evictions from the empty cache, every entry is the
post-processed plan of an operation that prints to its key (`CacheSound`, kept by
`CacheEvent.apply`); when no two operations print to one key, the plan served to a request
is one made for its own operation (`getCachedPlan_served`). What the key leaves out is the
operation name: the request after one that filled an entry is served that entry, whatever
operation name it names (`getCachedPlan_ignoresOperationName`). A request whose printing or
planning fails leaves the cache as it was.

`EngineResultWriter` buffers what it is written; `Flush` hands the buffered bytes to the flush
callback, when one is set, and empties the buffer. Over every sequence of calls, the bytes
handed out (read, given to the callback, or dropped by a `Flush` with no callback or by
`Reset`), in order, followed by the bytes still buffered, are the bytes written; with a
callback set throughout and no `Reset`, none is dropped (`engineResultWriter_stream`).

`WithAdditionalHttpHeaders` appends to the request's headers the values of every entry whose
key is not excluded, under the key's canonical form, and removes nothing
(`withAdditionalHttpHeaders_spec`). The exclusion is looked up by the key as the map spells it,
while `Header.Add` canonicalises it: an entry spelled otherwise than the excluded key is added
(`withAdditionalHttpHeaders_spec_apiKey`).
-/

namespace GraphQLTools

namespace Engine

/-! ## The plan cache -/

/-- What `getCachedPlan` calls and the source does not hold: `astprinter.Print` of an operation
against the engine's schema into the hash, as the printer's error or the key `hash.Sum64()`;
`planner.Plan`, as the plan or the errors it adds to the report; `postProcessor.Process`. -/
structure Planning (Doc Plan : Type) where
  printKey : Doc → Except String UInt64
  plan : Doc → String → Except (List String) Plan
  process : Plan → Plan

variable {Doc Plan : Type}

/-- `executionPlanCache`: the plan under each key it holds. -/
def Cache (Plan : Type) := UInt64 → Option Plan

def Cache.empty : Cache Plan := fun _ => none

/-- `getCachedPlan`: the plan, or the report's errors, and the cache after. The entry a hit
finds is returned as it is: the type assertion `cached.(plan.Plan)` holds of every entry,
since only plans are added. -/
def getCachedPlan (P : Planning Doc Plan) (cache : Cache Plan) (operation : Doc)
    (operationName : String) : Except (List String) Plan × Cache Plan :=
  match P.printKey operation with
  | .error err => (.error [err], cache)
  | .ok cacheKey =>
    match cache cacheKey with
    | some p => (.ok p, cache)
    | none =>
      match P.plan operation operationName with
      | .error report => (.error report, cache)
      | .ok planResult =>
        let p := P.process planResult
        (.ok p, Function.update cache cacheKey (some p))

/-- `p` is the post-processed plan of an operation that prints to `key`, under some operation
name. -/
def PlannedFor (P : Planning Doc Plan) (key : UInt64) (p : Plan) : Prop :=
  ∃ operation operationName planResult, P.printKey operation = .ok key ∧
    P.plan operation operationName = .ok planResult ∧ p = P.process planResult

/-- Every entry of the cache was planned for an operation that prints to its key. -/
def CacheSound (P : Planning Doc Plan) (cache : Cache Plan) : Prop :=
  ∀ key p, cache key = some p → PlannedFor P key p

section Cache

variable {P : Planning Doc Plan} {cache : Cache Plan}

theorem cacheSound_empty : CacheSound P Cache.empty := fun _ _ h => by cases h

/-- **What one request does.** From a sound cache, the cache stays sound, a plan served is
planned for an operation printing to the request's key, and a failed request leaves the cache
as it was. -/
theorem getCachedPlan_spec (hc : CacheSound P cache) (operation : Doc) (operationName : String) :
    CacheSound P (getCachedPlan P cache operation operationName).2 ∧
      (∀ p, (getCachedPlan P cache operation operationName).1 = .ok p →
        ∃ key, P.printKey operation = .ok key ∧ PlannedFor P key p) ∧
      (∀ errs, (getCachedPlan P cache operation operationName).1 = .error errs →
        (getCachedPlan P cache operation operationName).2 = cache) := by
  unfold getCachedPlan
  cases hk : P.printKey operation with
  | error err => exact ⟨hc, (fun _ h => nomatch h), fun _ _ => rfl⟩
  | ok key =>
    cases hhit : cache key with
    | some p =>
      simp only [hhit]
      exact ⟨hc, fun q hq => ⟨key, rfl, by cases hq; exact hc key p hhit⟩, fun _ h => nomatch h⟩
    | none =>
      cases hp : P.plan operation operationName with
      | error report =>
        simp only [hhit, hp]
        exact ⟨hc, (fun _ h => nomatch h), fun _ _ => trivial⟩
      | ok planResult =>
        simp only [hhit, hp]
        have hnew : PlannedFor P key (P.process planResult) :=
          ⟨operation, operationName, planResult, hk, hp, rfl⟩
        refine ⟨fun k q hq => ?_, fun q hq => ⟨key, rfl, by cases hq; exact hnew⟩,
          fun _ h => nomatch h⟩
        by_cases hkk : k = key
        · subst hkk
          simp only [Function.update_same, Option.some.injEq] at hq
          exact hq ▸ hnew
        · rw [Function.update_noteq hkk] at hq
          exact hc k q hq

/-- A request to the engine, or an eviction by the cache's LRU policy. -/
inductive CacheEvent (Doc : Type) where
  | request (operation : Doc) (operationName : String)
  | evict (key : UInt64)

/-- The cache after an event. -/
def CacheEvent.apply (P : Planning Doc Plan) : CacheEvent Doc → Cache Plan → Cache Plan
  | .request operation operationName, cache => (getCachedPlan P cache operation operationName).2
  | .evict key, cache => Function.update cache key none

/-- The cache after a sequence of events from the empty cache. -/
def replay (P : Planning Doc Plan) (events : List (CacheEvent Doc)) : Cache Plan :=
  events.foldl (fun cache e => e.apply P cache) Cache.empty

theorem CacheSound.apply (hc : CacheSound P cache) (e : CacheEvent Doc) :
    CacheSound P (e.apply P cache) := by
  cases e with
  | request operation operationName => exact (getCachedPlan_spec hc operation operationName).1
  | evict key =>
    intro k p hp
    by_cases hkk : k = key
    · subst hkk; simp [CacheEvent.apply] at hp
    · exact hc k p (by rwa [CacheEvent.apply, Function.update_noteq hkk] at hp)

theorem cacheSound_replay (events : List (CacheEvent Doc)) : CacheSound P (replay P events) := by
  unfold replay
  induction events using List.reverseRecOn with
  | nil => exact cacheSound_empty
  | append_singleton events e ih =>
    rw [List.foldl_append, List.foldl_cons, List.foldl_nil]
    exact ih.apply e

end Cache

/-- A document with two operations, which the planner plans by the name the request gives;
its printed form is its number. -/
def twoOperations : Planning UInt64 String := ⟨fun o => .ok o, fun _ name => .ok name, id⟩

/-- **Every plan served is planned for its own operation**, after any sequence of requests and
evictions, when no two operations print to one key: it is the post-processed plan of the
request's operation under some operation name. -/
theorem getCachedPlan_served (P : Planning Doc Plan)
    (hkey : ∀ o o' key, P.printKey o = .ok key → P.printKey o' = .ok key → o = o')
    (events : List (CacheEvent Doc)) (operation : Doc) (operationName : String) (p : Plan)
    (hp : (getCachedPlan P (replay P events) operation operationName).1 = .ok p) :
    ∃ name planResult, P.plan operation name = .ok planResult ∧ p = P.process planResult := by
  obtain ⟨key, hk, o, name, planResult, hko, hplan, rfl⟩ :=
    (getCachedPlan_spec (cacheSound_replay events) operation operationName).2.1 p hp
  obtain rfl := hkey o operation key hko hk
  exact ⟨name, planResult, hplan, rfl⟩

/-- A request for `B` after one for `A` is served the plan of `A`, which is a plan of its own
document. -/
theorem getCachedPlan_served_twoOperations :
    (getCachedPlan twoOperations (replay twoOperations [.request 7 "A"]) 7 "B").1 = .ok "A" ∧
      ∃ name planResult, twoOperations.plan 7 name = .ok planResult ∧
        "A" = twoOperations.process planResult :=
  ⟨rfl, getCachedPlan_served twoOperations (fun _ _ _ h h' => by cases h; cases h'; rfl)
    [.request 7 "A"] 7 "B" "A" rfl⟩

/-- **The operation name is not in the key.** The request after one that was served a plan,
for the same operation, is served that plan whatever operation name it names, and leaves the
cache as it is. -/
theorem getCachedPlan_ignoresOperationName (P : Planning Doc Plan) (cache : Cache Plan)
    (operation : Doc) (name name' : String) (p : Plan)
    (hp : (getCachedPlan P cache operation name).1 = .ok p) :
    getCachedPlan P (getCachedPlan P cache operation name).2 operation name' =
      (.ok p, (getCachedPlan P cache operation name).2) := by
  unfold getCachedPlan at hp ⊢
  cases hk : P.printKey operation with
  | error err => simp [hk] at hp
  | ok key =>
    simp only [hk] at hp ⊢
    cases hhit : cache key with
    | some q => simp_all
    | none =>
      cases hplan : P.plan operation name with
      | error report => simp [hhit, hplan] at hp
      | ok planResult => simp_all

theorem getCachedPlan_ignoresOperationName_twoOperations :
    getCachedPlan twoOperations (getCachedPlan twoOperations Cache.empty 7 "A").2 7 "B" =
      (.ok "A", (getCachedPlan twoOperations Cache.empty 7 "A").2) :=
  getCachedPlan_ignoresOperationName twoOperations Cache.empty 7 "A" "B" "A" rfl

/-! ## The result writer -/

/-- `EngineResultWriter`: the bytes in `buf`, and whether a flush callback is set. -/
structure EngineResultWriter where
  buf : List UInt8
  flushCallback : Bool

/-- The calls that change an `EngineResultWriter`: `Write`, `Read` into a slice of `n` bytes,
`Flush`, `SetFlushCallback` with a callback or nil, and `Reset`. -/
inductive WriterCall where
  | write (p : List UInt8)
  | read (n : Nat)
  | flush
  | setFlushCallback (set : Bool)
  | reset

/-- Bytes leaving the buffer: read, handed to the flush callback, or dropped. -/
inductive Handed where
  | read (p : List UInt8)
  | flushed (p : List UInt8)
  | dropped (p : List UInt8)

def Handed.bytes : Handed → List UInt8
  | .read p | .flushed p | .dropped p => p

def Handed.isDropped : Handed → Bool
  | .dropped _ => true
  | _ => false

/-- The bytes a call writes. -/
def WriterCall.written : WriterCall → List UInt8
  | .write p => p
  | _ => []

/-- One call: the writer after it, and the bytes that left the buffer. `Read` is
`bytes.Buffer.Read`, which copies the first `n` bytes; `Flush` passes `e.Bytes()` to the
callback, if any, then `Reset`s. -/
def EngineResultWriter.call (e : EngineResultWriter) :
    WriterCall → EngineResultWriter × List Handed
  | .write p => ({ e with buf := e.buf ++ p }, [])
  | .read n => ({ e with buf := e.buf.drop n }, [.read (e.buf.take n)])
  | .flush => ({ e with buf := [] }, [if e.flushCallback then .flushed e.buf else .dropped e.buf])
  | .setFlushCallback set => ({ e with flushCallback := set }, [])
  | .reset => ({ e with buf := [] }, [.dropped e.buf])

/-- A sequence of calls: the writer after them, and the bytes that left the buffer, in order. -/
def EngineResultWriter.calls (e : EngineResultWriter) :
    List WriterCall → EngineResultWriter × List Handed
  | [] => (e, [])
  | c :: cs =>
    let (e₁, h₁) := e.call c
    let (e₂, h₂) := e₁.calls cs
    (e₂, h₁ ++ h₂)

/-- A call that keeps the callback set and does not reset. -/
def WriterCall.Keeps : WriterCall → Prop
  | .setFlushCallback set => set = true
  | .reset => False
  | _ => True

namespace EngineResultWriter

theorem call_stream (e : EngineResultWriter) (c : WriterCall) :
    ((e.call c).2.flatMap Handed.bytes) ++ (e.call c).1.buf = e.buf ++ c.written := by
  cases c <;> simp [call, WriterCall.written, Handed.bytes]
  split_ifs <;> simp [Handed.bytes]

theorem call_keeps {e : EngineResultWriter} (he : e.flushCallback = true) {c : WriterCall}
    (hc : c.Keeps) :
    (e.call c).1.flushCallback = true ∧ ∀ h ∈ (e.call c).2, h.isDropped = false := by
  cases c <;> simp_all [call, WriterCall.Keeps, Handed.isDropped]

end EngineResultWriter

/-- **No byte is lost or duplicated.** Over every sequence of calls, the bytes that left the
buffer, in order, followed by those still in it, are the bytes it held and was written; and
with a callback set throughout and no `Reset`, none of them was dropped. -/
theorem engineResultWriter_stream (e : EngineResultWriter) (cs : List WriterCall) :
    ((e.calls cs).2.flatMap Handed.bytes) ++ (e.calls cs).1.buf =
        e.buf ++ cs.flatMap WriterCall.written ∧
      (e.flushCallback = true → (∀ c ∈ cs, c.Keeps) →
        ∀ h ∈ (e.calls cs).2, h.isDropped = false) := by
  induction cs generalizing e with
  | nil => simp [EngineResultWriter.calls]
  | cons c cs ih =>
    obtain ⟨ih₁, ih₂⟩ := ih (e.call c).1
    refine ⟨?_, fun he hcs h hh => ?_⟩
    · simp only [EngineResultWriter.calls, List.flatMap_append, List.append_assoc, ih₁,
        List.flatMap_cons]
      rw [← List.append_assoc, e.call_stream c, List.append_assoc]
    · obtain ⟨he₁, hd₁⟩ := e.call_keeps he (hcs c (.head _))
      simp only [EngineResultWriter.calls, List.mem_append] at hh
      exact hh.elim (hd₁ h) (ih₂ he₁ (fun c' hc' => hcs c' (.tail _ hc')) h)

/-! ## Additional request headers -/

/-- `Header.Add(key, value)`: the value appended under the key's canonical form, `canonical`
standing for `textproto.CanonicalMIMEHeaderKey`. -/
def headerAdd (canonical : String → String) (h : String → List String) (key value : String) :
    String → List String :=
  Function.update h (canonical key) (h (canonical key) ++ [value])

/-- One entry of the loop over `headers`: skipped when `excludeMap` holds its key as the map
spells it, else each of its values added. -/
def addEntry (canonical : String → String) (excludeByKeys : List String)
    (h : String → List String) (entry : String × List String) : String → List String :=
  if excludeByKeys.contains entry.1 then h
  else entry.2.foldl (fun h => headerAdd canonical h entry.1) h

/-- `WithAdditionalHttpHeaders(headers, excludeByKeys...)` applied to the request's `Header`:
`none` stands for a nil `Header`, and `headers` is the map's entries in the order its `range`
visits them. -/
def withAdditionalHttpHeaders (canonical : String → String) (headers : List (String × List String))
    (excludeByKeys : List String) (header : Option (String → List String)) :
    Option (String → List String) :=
  if headers.length = 0 then header
  else some (headers.foldl (addEntry canonical excludeByKeys) (header.getD fun _ => []))

section Headers

variable (canonical : String → String) (excludeByKeys : List String) (k : String)

/-- Adding the values of one key, one after the other, appends them under its canonical key. -/
theorem foldl_headerAdd (key : String) : ∀ (vs : List String) (h : String → List String),
    (vs.foldl (fun h => headerAdd canonical h key) h) k =
      h k ++ if canonical key = k then vs else []
  | [], h => by simp
  | v :: vs, h => by
    rw [List.foldl_cons, foldl_headerAdd key vs]
    by_cases hk : canonical key = k
    · subst hk; simp [headerAdd]
    · simp [headerAdd, Function.update_noteq (Ne.symm hk), hk]

theorem foldl_addEntry : ∀ (headers : List (String × List String)) (h : String → List String),
    (headers.foldl (addEntry canonical excludeByKeys) h) k =
      h k ++ (headers.filter fun e => !excludeByKeys.contains e.1 && canonical e.1 == k).flatMap
        Prod.snd
  | [], h => by simp
  | e :: es, h => by
    rw [List.foldl_cons, foldl_addEntry es]
    by_cases hx : e.1 ∈ excludeByKeys <;> by_cases hk : canonical e.1 = k <;>
      simp [addEntry, foldl_headerAdd, hx, hk, List.filter_cons]

end Headers

/-- **The request's headers only grow**, by the values of every entry whose key, as the map
spells it, is not excluded, appended in the order of the entries under the key's canonical
form; with no entries, a nil `Header` stays nil. -/
theorem withAdditionalHttpHeaders_spec (canonical : String → String)
    (headers : List (String × List String)) (excludeByKeys : List String)
    (header : Option (String → List String)) :
    (headers = [] → withAdditionalHttpHeaders canonical headers excludeByKeys header = header) ∧
      (headers ≠ [] → ∀ k,
        ((withAdditionalHttpHeaders canonical headers excludeByKeys header).getD fun _ => []) k =
          (header.getD fun _ => []) k ++
            (headers.filter fun e => !excludeByKeys.contains e.1 && canonical e.1 == k).flatMap
              Prod.snd) := by
  refine ⟨fun h => by simp [withAdditionalHttpHeaders, h], fun hne k => ?_⟩
  simp only [withAdditionalHttpHeaders, List.length_eq_zero, hne, if_false, Option.getD_some]
  exact foldl_addEntry canonical excludeByKeys k headers _

/-- `textproto.validHeaderFieldByte`: the bytes of an HTTP token, which are the ASCII letters
and digits and the marks ! # $ % & ' * + - . ^ _ | ~ and the grave accent. -/
def validHeaderFieldByte (c : Char) : Bool :=
  c.isAlphanum || [33, 35, 36, 37, 38, 39, 42, 43, 45, 46, 94, 95, 96, 124, 126].contains c.toNat

/-- `textproto.CanonicalMIMEHeaderKey`: on a key of token bytes, the first letter and each
letter after a hyphen in upper case, the other letters in lower case; a key holding any other
byte (a space, a byte of a non-ASCII character) is returned unchanged. -/
def canonicalMIMEHeaderKey (s : String) : String :=
  if s.toList.all validHeaderFieldByte then ⟨go true s.toList⟩ else s
where
  go : Bool → List Char → List Char
    | _, [] => []
    | upper, c :: cs => (if upper then c.toUpper else c.toLower) :: go (c == '-') cs

example : canonicalMIMEHeaderKey "x-api-key" = "X-Api-Key" := by decide

example : canonicalMIMEHeaderKey "x api" = "x api" := by decide

/-- Excluding `X-Api-Key` does not exclude the entry the map spells `x-api-key`: its value is
added under `X-Api-Key`. -/
theorem withAdditionalHttpHeaders_spec_apiKey :
    ((withAdditionalHttpHeaders canonicalMIMEHeaderKey [("x-api-key", ["secret"])] ["X-Api-Key"]
        none).getD fun _ => []) "X-Api-Key" = ["secret"] ∧
      ((withAdditionalHttpHeaders canonicalMIMEHeaderKey [("x-api-key", ["secret"])] ["X-Api-Key"]
          none).getD fun _ => []) "X-Api-Key" =
        ((none : Option (String → List String)).getD fun _ => []) "X-Api-Key" ++
          ([("x-api-key", ["secret"])].filter fun e =>
            !(["X-Api-Key"].contains e.1) && canonicalMIMEHeaderKey e.1 == "X-Api-Key").flatMap
            Prod.snd :=
  ⟨by decide, (withAdditionalHttpHeaders_spec canonicalMIMEHeaderKey [("x-api-key", ["secret"])]
    ["X-Api-Key"] none).2 (by simp) "X-Api-Key"⟩

end Engine

end GraphQLTools
