import GraphQLTools.Singleflight

/-!
# Singleflight: the invariant

What each call is to each record is read off its program counter: a dependent, an owner (the
leader and then its goroutine), a map entry, a leader whose `Load` has not been waited for,
has returned, or has been stored. The invariant `Inv` ties these to the records, the map, the
mutex and each call's buffer. It holds initially (`inv_initial`) and every step keeps it
(`Inv.step`, `Inv.allocate`); most steps keep every role and are checked once by
`Inv.frame`.
-/

namespace GraphQLTools

namespace Singleflight

/-! ## Phases -/

namespace Pc

/-- Whether the phase holds `inflightFetchMu`. -/
def holdsLock : Pc → Bool
  | .lookup | .depUnlock _ | .leaderUnlock _ | .leaderDelete _ | .leaderUnlock2 _ => true
  | _ => false

/-- A dependent of `r` that has not called `waitFree.Done`. -/
def isDep (r : Nat) : Pc → Bool
  | .depUnlock r' | .depWait r' | .depRead r' | .depDone r' => r' = r
  | _ => false

/-- The leader of `r`, or its goroutine, before `r` is pooled again. -/
def isOwner (r : Nat) : Pc → Bool
  | .leaderUnlock r' | .leaderLoad r' | .leaderStore r' | .leaderCopy r' | .leaderDone r'
  | .leaderLock r' | .leaderDelete r' | .leaderUnlock2 r' | .freeWait r' | .freeing r' => r' = r
  | _ => false

/-- The leader of `r` before it deleted its key. -/
def inMap (r : Nat) : Pc → Bool
  | .leaderUnlock r' | .leaderLoad r' | .leaderStore r' | .leaderCopy r' | .leaderDone r'
  | .leaderLock r' | .leaderDelete r' => r' = r
  | _ => false

/-- The leader of `r` before `waitLoad.Done`. -/
def loading (r : Nat) : Pc → Bool
  | .leaderUnlock r' | .leaderLoad r' | .leaderStore r' | .leaderCopy r' | .leaderDone r' =>
    r' = r
  | _ => false

/-- The owner of `r` once `Load` has returned. -/
def loaded (r : Nat) : Pc → Bool
  | .leaderStore r' | .leaderCopy r' | .leaderDone r' | .leaderLock r' | .leaderDelete r'
  | .leaderUnlock2 r' | .freeWait r' | .freeing r' => r' = r
  | _ => false

/-- The owner of `r` once the error of `Load` is stored. -/
def stored (r : Nat) : Pc → Bool
  | .leaderCopy r' | .leaderDone r' | .leaderLock r' | .leaderDelete r' | .leaderUnlock2 r'
  | .freeWait r' | .freeing r' => r' = r
  | _ => false

/-- Everything a phase says of the record `r`. -/
def view (r : Nat) (p : Pc) : Bool × Bool × Bool × Bool × Bool × Bool :=
  (p.isDep r, p.isOwner r, p.inMap r, p.loading r, p.loaded r, p.stored r)

theorem isOwner_of_inMap {r : Nat} {p : Pc} (h : p.inMap r) : p.isOwner r := by
  cases p <;> simp_all [inMap, isOwner]

theorem loaded_of_stored {r : Nat} {p : Pc} (h : p.stored r) : p.loaded r := by
  cases p <;> simp_all [loaded, stored]

/-- An owner past `waitLoad.Done` has stored the error. -/
theorem stored_of_not_loading {r : Nat} {p : Pc} (h : p.isOwner r) (hl : p.loading r = false) :
    p.stored r := by
  cases p <;> simp_all [isOwner, loading, stored]

theorem not_isDep_of_isOwner {r r' : Nat} {p : Pc} (h : p.isOwner r) : p.isDep r' = false := by
  cases p <;> simp_all [isOwner, isDep]

theorem isOwner_unique {r r' : Nat} {p : Pc} (h : p.isOwner r) (h' : p.isOwner r') : r = r' := by
  cases p <;> simp_all [isOwner]

end Pc

/-- The leader's call has returned; its goroutine may still run. -/
def Pc.leaderReturned : Pc → Bool
  | .freeWait _ | .freeing _ | .freed => true
  | _ => false

/-- What a call's buffer and error are at its phase: the caller's buffer until the copy,
then the bytes of `Load` appended; a dependent's error is `Load`'s, the leader's is
`leaderErr`. -/
def CallOk (load : UInt64 → LoadResult) (c : Call) : Prop :=
  match c.pc with
  | .depDone _ | .depReturned => c.buf = loadInto (load c.key) c.init ∧ c.err = (load c.key).err
  | .leaderStore _ | .leaderCopy _ => c.buf = c.init ∧ c.err = (load c.key).err
  | .leaderDone _ | .leaderLock _ | .leaderDelete _ | .leaderUnlock2 _ | .freeWait _
  | .freeing _ | .freed => c.buf = loadInto (load c.key) c.init ∧ c.err = leaderErr (load c.key)
  | _ => c.buf = c.init

/-- What record `r` holds for its owner's call `c`: the bytes of `Load` once it has returned,
and its error once stored. -/
def RecordOk (load : UInt64 → LoadResult) (x : Record) (c : Call) (r : Nat) : Prop :=
  x.bufPair = (if c.pc.loaded r then loadInto (load c.key) BufPair.empty else BufPair.empty) ∧
    (c.pc.stored r → x.err = (load c.key).err)

/-- The map holds exactly the records of the leaders that have not deleted their key, each
under its leader's key. -/
structure MapOk (s : St) : Prop where
  owner : ∀ k r, s.inflight k = some r → ∃ t, (s.calls t).pc.inMap r ∧ (s.calls t).key = k
  entry : ∀ t r, (s.calls t).pc.inMap r → s.inflight (s.calls t).key = some r

/-- The invariant of the protocol. -/
structure Inv (load : UInt64 → LoadResult) (s : St) : Prop where
  /-- Only the thread the mutex names is inside a critical section. -/
  mutex : ∀ t, (s.calls t).pc.holdsLock → s.mutex = some t
  /-- A record some thread works on is handed out: not pooled, and numbered below `fresh`. -/
  live : ∀ t r, ((s.calls t).pc.isOwner r || (s.calls t).pc.isDep r) →
    (s.records r).pooled = false ∧ r < s.fresh
  /-- A record has one owner. -/
  owner_unique : ∀ t t' r, (s.calls t).pc.isOwner r → (s.calls t').pc.isOwner r → t = t'
  /-- The map holds the records of the leaders that have not deleted their key. -/
  map : MapOk s
  /-- A dependent's record has an owner of its key, one that has stored the error once the
  dependent reads. -/
  dep_owner : ∀ t r, (s.calls t).pc.isDep r → ∃ t', (s.calls t').pc.isOwner r ∧
    (s.calls t').key = (s.calls t).key ∧ ((s.calls t).pc = .depRead r → (s.calls t').pc.stored r)
  /-- Pooled records were handed out once. -/
  pooled : ∀ r, (s.records r).pooled → r < s.fresh
  /-- Pooled and new records are idle. -/
  idle : ∀ r, ((s.records r).pooled ∨ s.fresh ≤ r) → (s.records r).IsIdle
  /-- `waitLoad` is one until the leader's `Done`. -/
  waitLoad : ∀ t r, (s.calls t).pc.isOwner r →
    (s.records r).waitLoad = if (s.calls t).pc.loading r then 1 else 0
  /-- The ghost readers are the dependents of the record, and `waitFree` counts them. -/
  readers : ∀ t r, t ∈ (s.records r).readers ↔ (s.calls t).pc.isDep r
  waitFree : ∀ r, (s.records r).waitFree = (s.records r).readers.card
  /-- A record being freed has no dependent. -/
  freeing : ∀ t r, (s.calls t).pc = .freeing r → (s.records r).readers = ∅
  /-- An owned record holds the bytes of its key's `Load` once it returned, and its error once
  stored. -/
  record : ∀ t r, (s.calls t).pc.isOwner r → RecordOk load (s.records r) (s.calls t) r
  /-- Every call's buffer and error are as its phase says. -/
  call : ∀ t, CallOk load (s.calls t)


/-! ## Preservation -/

theorem inv_initial (load : UInt64 → LoadResult) (keys : Nat → UInt64) (bufs : Nat → BufPair) :
    Inv load (initial keys bufs) where
  mutex t h := by simp [initial, Pc.holdsLock] at h
  live t r h := by simp [initial, Pc.isOwner, Pc.isDep] at h
  owner_unique t t' r h := by simp [initial, Pc.isOwner] at h
  map := ⟨fun k r h => by simp [initial] at h, fun t r h => by simp [initial, Pc.inMap] at h⟩
  dep_owner t r h := by simp [initial, Pc.isDep] at h
  pooled r h := by simp [initial] at h
  idle r _ := ⟨rfl, rfl, rfl, rfl, rfl⟩
  waitLoad t r h := by simp [initial, Pc.isOwner] at h
  readers t r := by simp [initial, Pc.isDep]
  waitFree r := rfl
  freeing t r h := by simp [initial] at h
  record t r h := by simp [initial, Pc.isOwner] at h
  call t := rfl

theorem St.owner_ne_dep (s : St) {t t' r r' : Nat} (ho : (s.calls t).pc.isOwner r)
    (hd : (s.calls t').pc.isDep r') : t ≠ t' := by
  rintro rfl; simp [Pc.not_isDep_of_isOwner ho] at hd

section Steps

variable {load : UInt64 → LoadResult} {s s' : St} {t : Nat}

/-- A step of thread `t` that sets its call to `c` and the record `r` to `x`, and leaves every
other call and record as it was. -/
structure Frame (s s' : St) (t r : Nat) (c : Call) (x : Record) : Prop where
  self : s'.calls t = c
  calls : ∀ t', t' ≠ t → s'.calls t' = s.calls t'
  record : s'.records r = x
  records : ∀ r', r' ≠ r → s'.records r' = s.records r'

theorem Frame.of_setRecord_setCall (s : St) (t r : Nat) (c : Call) (x : Record) :
    Frame s ((s.setRecord r x).setCall t c) t r c x where
  self := by simp [St.setCall_calls]
  calls t' ht := by simp [St.setCall_calls, ht]
  record := by simp [St.setRecord_records]
  records r' hr := by simp [St.setRecord_records, hr]

theorem Frame.of_setCall (s : St) (t r : Nat) (c : Call) : Frame s (s.setCall t c) t r c (s.records r) where
  self := by simp [St.setCall_calls]
  calls t' ht := by simp [St.setCall_calls, ht]
  record := rfl
  records _ _ := rfl

/-- A frame that also keeps the mutex, the map and `fresh`. -/
structure Local (s s' : St) (t r : Nat) (c : Call) (x : Record) extends Frame s s' t r c x :
    Prop where
  mutex : s'.mutex = s.mutex
  inflight : s'.inflight = s.inflight
  fresh : s'.fresh = s.fresh

theorem Local.of_setRecord_setCall (s : St) (t r : Nat) (c : Call) (x : Record) :
    Local s ((s.setRecord r x).setCall t c) t r c x :=
  ⟨Frame.of_setRecord_setCall s t r c x, rfl, rfl, rfl⟩

section Frame

variable {r : Nat} {c : Call} {x : Record}

theorem Frame.update (F : Frame s s' t r c x) (m : Option Nat) (i : UInt64 → Option Nat) (f : Nat) :
    Frame s { s' with mutex := m, inflight := i, fresh := f } t r c x :=
  ⟨F.self, F.calls, F.record, F.records⟩

/-- The counters of every record stay when those of `r` do. -/
theorem Frame.counts (F : Frame s s' t r c x)
    (hx : x.pooled = (s.records r).pooled ∧ x.waitFree = (s.records r).waitFree ∧
      x.readers = (s.records r).readers) (r' : Nat) :
    (s'.records r').pooled = (s.records r').pooled ∧
      (s'.records r').waitFree = (s.records r').waitFree ∧
      (s'.records r').readers = (s.records r').readers := by
  by_cases hr : r' = r
  · subst hr; rw [F.record]; exact hx
  · rw [F.records r' hr]; exact ⟨rfl, rfl, rfl⟩

/-- The mutex clause, when the mutex stays and `t` holds it after the step only if it did
before. -/
theorem Frame.mutex_ok (h : Inv load s) (F : Frame s s' t r c x) (hm : s'.mutex = s.mutex)
    (hc : c.pc.holdsLock → (s.calls t).pc.holdsLock) :
    ∀ t', (s'.calls t').pc.holdsLock → s'.mutex = some t' := fun t' h' => by
  rw [hm]
  by_cases ht : t' = t
  · subst ht; rw [F.self] at h'; exact h.mutex t' (hc h')
  · rw [F.calls t' ht] at h'; exact h.mutex t' h'

/-- The map clause, when the map stays and `t` is an entry after the step as before. -/
theorem Frame.map_ok (h : Inv load s) (F : Frame s s' t r c x) (hin : s'.inflight = s.inflight)
    (hkey : c.key = (s.calls t).key) (hInMap : ∀ r, c.pc.inMap r = (s.calls t).pc.inMap r) :
    MapOk s' where
  owner k r' hk := by
    rw [hin] at hk
    obtain ⟨o, ho, hko⟩ := h.map.owner k r' hk
    by_cases hot : o = t
    · subst hot; exact ⟨o, by rw [F.self, hInMap]; exact ho, by rw [F.self, hkey]; exact hko⟩
    · exact ⟨o, by rw [F.calls o hot]; exact ho, by rw [F.calls o hot]; exact hko⟩
  entry t' r' h' := by
    rw [hin]
    by_cases ht : t' = t
    · subst ht; rw [F.self] at h' ⊢; rw [hInMap] at h'; rw [hkey]; exact h.map.entry t' r' h'
    · rw [F.calls t' ht] at h' ⊢; exact h.map.entry t' r' h'

theorem Frame.call_ok (h : Inv load s) (F : Frame s s' t r c x) (hc : CallOk load c) :
    ∀ t', CallOk load (s'.calls t') := fun t' => by
  by_cases ht : t' = t
  · subst ht; rw [F.self]; exact hc
  · rw [F.calls t' ht]; exact h.call t'

end Frame

/-- A step of thread `t` to the call `c` that keeps every role: no thread becomes or stops
being a dependent or an owner, no counter moves but the owner's `waitLoad`, and `fresh` stays.
What is left to check is the mutex, the map, what `t` reads and frees, and the record it
owns. -/
theorem Inv.frame (h : Inv load s) {r : Nat} {c : Call} {x : Record} (F : Frame s s' t r c x)
    (hx : (s.calls t).pc.isOwner r ∨ x = s.records r)
    (hkey : c.key = (s.calls t).key)
    (hDep : ∀ r, c.pc.isDep r = (s.calls t).pc.isDep r)
    (hOwner : ∀ r, c.pc.isOwner r = (s.calls t).pc.isOwner r)
    (hStored : ∀ r, (s.calls t).pc.stored r → c.pc.stored r)
    (hread : ∀ r, c.pc = .depRead r → ∃ o, (s.calls o).pc.isOwner r ∧
      (s.calls o).key = (s.calls t).key ∧ (s.calls o).pc.stored r)
    (hfree : ∀ r, c.pc = .freeing r → (s.records r).readers = ∅)
    (hcounts : x.pooled = (s.records r).pooled ∧ x.waitFree = (s.records r).waitFree ∧
      x.readers = (s.records r).readers)
    (hwaitLoad : ∀ r, c.pc.isOwner r → (s'.records r).waitLoad = if c.pc.loading r then 1 else 0)
    (hrecord : ∀ r, c.pc.isOwner r → RecordOk load (s'.records r) c r)
    (hmap : MapOk s') (hfresh : s'.fresh = s.fresh)
    (hmutex : ∀ t', (s'.calls t').pc.holdsLock → s'.mutex = some t')
    (hcall : CallOk load c) : Inv load s' := by
  have hc := F.counts hcounts
  -- a record `t` does not own stays as it was
  have hrecords : ∀ r', (s.calls t).pc.isOwner r' = false → s'.records r' = s.records r' := by
    intro r' ho
    by_cases hr : r' = r
    · subst hr
      rcases hx with hx | hx
      · simp [hx] at ho
      · rw [F.record, hx]
    · exact F.records r' hr
  obtain ⟨hself, hcalls, -, -⟩ := F
  subst hself
  -- every thread's key and roles are as before
  have hk : ∀ t', (s'.calls t').key = (s.calls t').key := fun t' => by
    by_cases ht : t' = t
    · subst ht; exact hkey
    · rw [hcalls t' ht]
  have view : ∀ {P : Nat → Pc → Bool}, (∀ r, P r (s'.calls t).pc = P r (s.calls t).pc) →
      ∀ t' r, P r (s'.calls t').pc = P r (s.calls t').pc := fun hP t' r => by
    by_cases ht : t' = t
    · subst ht; exact hP r
    · rw [hcalls t' ht]
  have vDep : ∀ t' r, (s'.calls t').pc.isDep r = (s.calls t').pc.isDep r := view hDep
  have vOwner : ∀ t' r, (s'.calls t').pc.isOwner r = (s.calls t').pc.isOwner r := view hOwner
  -- a record another thread owns stays as it was
  have hrec : ∀ t' r, t' ≠ t → (s.calls t').pc.isOwner r → s'.records r = s.records r :=
    fun t' r ht ho => hrecords r (Bool.eq_false_iff.mpr fun ho' => ht (h.owner_unique t' t r ho ho'))
  refine ⟨hmutex, ?live, ?owner_unique, hmap, ?dep_owner, ?pooled, ?idle,
    ?waitLoad, ?readers, ?waitFree, ?freeing, ?record, ?call⟩
  case live =>
    intro t' r h'
    simp only [vOwner, vDep] at h'
    rw [(hc r).1, hfresh]; exact h.live t' r h'
  case owner_unique =>
    intro t1 t2 r h1 h2; simp only [vOwner] at h1 h2; exact h.owner_unique t1 t2 r h1 h2
  case dep_owner =>
    intro t' r h'
    simp only [vDep] at h'
    obtain ⟨o, ho, hko, hst⟩ := h.dep_owner t' r h'
    have hot : o ≠ t' := s.owner_ne_dep ho h'
    by_cases ht : t' = t
    · subst ht
      by_cases hr : (s'.calls t').pc = .depRead r
      · obtain ⟨o', ho', hko', hst'⟩ := hread r hr
        have hot' : o' ≠ t' := s.owner_ne_dep ho' h'
        exact ⟨o', by rw [hcalls o' hot']; exact ho', by rw [hk, hk]; exact hko',
          fun _ => by rw [hcalls o' hot']; exact hst'⟩
      · exact ⟨o, by rw [hcalls o hot]; exact ho, by rw [hk, hk]; exact hko, fun e => absurd e hr⟩
    · refine ⟨o, by simp only [vOwner]; exact ho, by rw [hk, hk]; exact hko, fun e => ?_⟩
      rw [hcalls t' ht] at e
      by_cases hoe : o = t
      · subst hoe; exact hStored r (hst e)
      · rw [hcalls o hoe]; exact hst e
  case pooled => intro r h'; rw [hfresh]; rw [(hc r).1] at h'; exact h.pooled r h'
  case idle =>
    intro r h'
    rw [hfresh, (hc r).1] at h'
    by_cases ho : (s.calls t).pc.isOwner r
    · have hl := h.live t r (by simp [ho])
      simp only [hl.1, Bool.false_eq_true, false_or] at h'
      exact absurd hl.2 (Nat.not_lt.mpr h')
    · rw [hrecords r (by simpa using ho)]; exact h.idle r h'
  case waitLoad =>
    intro t' r h'
    by_cases ht : t' = t
    · subst ht; exact hwaitLoad r h'
    · rw [hcalls t' ht] at h' ⊢; rw [hrec t' r ht h']; exact h.waitLoad t' r h'
  case readers => intro t' r; rw [(hc r).2.2, vDep]; exact h.readers t' r
  case waitFree => intro r; rw [(hc r).2.1, (hc r).2.2]; exact h.waitFree r
  case freeing =>
    intro t' r h'
    rw [(hc r).2.2]
    by_cases ht : t' = t
    · subst ht; exact hfree r h'
    · rw [hcalls t' ht] at h'; exact h.freeing t' r h'
  case record =>
    intro t' r h'
    by_cases ht : t' = t
    · subst ht; exact hrecord r h'
    · rw [hcalls t' ht] at h' ⊢; rw [hrec t' r ht h']; exact h.record t' r h'
  case call =>
    intro t'
    by_cases ht : t' = t
    · subst ht; exact hcall
    · rw [hcalls t' ht]; exact h.call t'

/-- The mutex clause after thread `t`'s call becomes `c`, from what the new phase and the
other threads need of the mutex `m`. -/
theorem Inv.mutex_setCall (h : Inv load s) {c : Call} {m : Option Nat}
    (hself : c.pc.holdsLock → m = some t) (hother : ∀ t', t' ≠ t → s.mutex = some t' → m = some t') :
    ∀ t', ((s.setCall t c).calls t').pc.holdsLock → m = some t' := by
  intro t' h'
  rw [St.setCall_calls] at h'
  split_ifs at h' with ht
  · subst ht; exact hself h'
  · exact hother t' ht (h.mutex t' h')

/-- A step of thread `t` to a call with its key and a phase that says the same of every
record, setting the mutex. -/
theorem Inv.setCall (h : Inv load s) {c : Call} {m : Option Nat} (hkey : c.key = (s.calls t).key)
    (hview : ∀ r, c.pc.view r = (s.calls t).pc.view r)
    (hread : ∀ r, c.pc = .depRead r → ∃ o, (s.calls o).pc.isOwner r ∧
      (s.calls o).key = (s.calls t).key ∧ (s.calls o).pc.stored r)
    (hfree : ∀ r, c.pc = .freeing r → (s.records r).readers = ∅)
    (hmutex : ∀ t', ((s.setCall t c).calls t').pc.holdsLock → m = some t')
    (hcall : CallOk load c) : Inv load { s.setCall t c with mutex := m } := by
  simp only [Pc.view, Prod.mk.injEq, forall_and] at hview
  obtain ⟨hDep, hOwner, hInMap, hLoading, hLoaded, hStored⟩ := hview
  have F := (Frame.of_setCall s t 0 c).update m s.inflight s.fresh
  refine h.frame F (.inr rfl) hkey hDep hOwner (fun r => by rw [hStored]; exact id) hread hfree
    ⟨rfl, rfl, rfl⟩ (fun r ho => ?_) (fun r ho => ?_) (F.map_ok h rfl hkey hInMap) rfl hmutex hcall
  · rw [hOwner] at ho; rw [hLoading]; exact h.waitLoad t r ho
  · rw [hOwner] at ho
    have hr := h.record t r ho
    simp only [RecordOk, hkey, hLoaded, hStored] at hr ⊢
    exact hr

/-! ### Steps that keep every role -/

/-- The call's requirement at its phase, for a copy of the call moved to that phase. -/
theorem Inv.callOk_of_pc (h : Inv load s) {p : Pc} (hp : (s.calls t).pc = p) :
    CallOk load { s.calls t with pc := p } := by
  have := h.call t; rw [CallOk, hp] at this; exact this

/-- `Load` writes into the record's pair, which is empty until then. -/
theorem Inv.leaderLoad (h : Inv load s) {r : Nat} {c : Call} {x : Record}
    (hp : (s.calls t).pc = .leaderLoad r) (L : Local s s' t r c x)
    (hc : c = { s.calls t with pc := .leaderStore r, err := (load (s.calls t).key).err })
    (hx : x = { s.records r with
      bufPair := loadInto (load (s.calls t).key) (s.records r).bufPair }) :
    Inv load s' := by
  subst hc hx
  have hown : (s.calls t).pc.isOwner r := by simp [hp, Pc.isOwner]
  have hempty : (s.records r).bufPair = BufPair.empty := by
    simpa [RecordOk, hp, Pc.loaded] using (h.record t r hown).1
  refine h.frame L.toFrame (.inl hown) rfl (fun _ => by rw [hp]; rfl) (fun _ => by rw [hp]; rfl)
    (fun _ e => by simp [hp, Pc.stored] at e) (fun _ e => by cases e) (fun _ e => by cases e)
    ⟨rfl, rfl, rfl⟩ (fun r' ho => ?_) (fun r' ho => ?_)
    (L.map_ok h L.inflight rfl fun _ => by rw [hp]; rfl) L.fresh
    (L.mutex_ok h L.mutex fun e => by simp [Pc.holdsLock] at e) ?_
  · obtain rfl : r = r' := by simpa [Pc.isOwner] using ho
    rw [L.record]; simpa [hp, Pc.loading] using h.waitLoad t r hown
  · obtain rfl : r = r' := by simpa [Pc.isOwner] using ho
    rw [L.record]; simp [RecordOk, Pc.loaded, Pc.stored, hempty]
  · exact ⟨h.callOk_of_pc hp, rfl⟩

/-- The leader stores the error of `Load` in the record. -/
theorem Inv.leaderStore (h : Inv load s) {r : Nat} {c : Call} {x : Record}
    (hp : (s.calls t).pc = .leaderStore r) (L : Local s s' t r c x)
    (hc : c = { s.calls t with pc := .leaderCopy r }) (hx : x = { s.records r with err := (s.calls t).err }) :
    Inv load s' := by
  subst hc hx
  have hown : (s.calls t).pc.isOwner r := by simp [hp, Pc.isOwner]
  have hcall := h.call t
  rw [CallOk, hp] at hcall
  refine h.frame L.toFrame (.inl hown) rfl (fun _ => by rw [hp]; rfl) (fun _ => by rw [hp]; rfl)
    (fun _ e => by simp [hp, Pc.stored] at e) (fun _ e => by cases e) (fun _ e => by cases e)
    ⟨rfl, rfl, rfl⟩ (fun r' ho => ?_) (fun r' ho => ?_)
    (L.map_ok h L.inflight rfl fun _ => by rw [hp]; rfl) L.fresh
    (L.mutex_ok h L.mutex fun e => by simp [Pc.holdsLock] at e) hcall
  · obtain rfl : r = r' := by simpa [Pc.isOwner] using ho
    rw [L.record]; simpa [hp, Pc.loading] using h.waitLoad t r hown
  · obtain rfl : r = r' := by simpa [Pc.isOwner] using ho
    have hr := (h.record t r hown).1
    rw [L.record]
    simp only [RecordOk, hp, Pc.loaded, decide_True, if_true] at hr ⊢
    exact ⟨hr, fun _ => hcall.2⟩

/-- `waitLoad.Done` takes the counter from one to zero. -/
theorem Inv.leaderDone (h : Inv load s) {r : Nat} {c : Call} {x : Record}
    (hp : (s.calls t).pc = .leaderDone r) (L : Local s s' t r c x)
    (hc : c = { s.calls t with pc := .leaderLock r })
    (hx : x = { s.records r with waitLoad := (s.records r).waitLoad - 1 }) :
    Inv load s' := by
  subst hc hx
  have hown : (s.calls t).pc.isOwner r := by simp [hp, Pc.isOwner]
  refine h.frame L.toFrame (.inl hown) rfl (fun _ => by rw [hp]; rfl) (fun _ => by rw [hp]; rfl)
    (fun _ e => by rw [hp] at e; exact e) (fun _ e => by cases e) (fun _ e => by cases e)
    ⟨rfl, rfl, rfl⟩ (fun r' ho => ?_) (fun r' ho => ?_)
    (L.map_ok h L.inflight rfl fun _ => by rw [hp]; rfl) L.fresh
    (L.mutex_ok h L.mutex fun e => by simp [Pc.holdsLock] at e) ?_
  · obtain rfl : r = r' := by simpa [Pc.isOwner] using ho
    have := h.waitLoad t r hown
    rw [L.record]; simp [hp, Pc.loading] at this ⊢; simp [this]
  · obtain rfl : r = r' := by simpa [Pc.isOwner] using ho
    rw [L.record]; simpa [RecordOk, hp, Pc.loaded, Pc.stored] using h.record t r hown
  · exact (h.callOk_of_pc hp :)

/-! ### Steps that add or drop a role -/

/-- A call that finds its key becomes a dependent of the record under it: the record has an
owner, so it is handed out, and no goroutine is freeing it. -/
theorem Inv.lookupFound (h : Inv load s) {r : Nat} {c : Call} {x : Record}
    (hp : (s.calls t).pc = .lookup) (hr : s.inflight (s.calls t).key = some r)
    (L : Local s s' t r c x) (hc : c = { s.calls t with pc := .depUnlock r })
    (hx : x = { s.records r with
      waitFree := (s.records r).waitFree + 1
      readers := insert t (s.records r).readers }) :
    Inv load s' := by
  subst hc hx
  obtain ⟨o, ho, hko⟩ := h.map.owner _ r hr
  have hoo := Pc.isOwner_of_inMap ho
  have hot : o ≠ t := by rintro rfl; simp [hp, Pc.inMap] at ho
  have hl := h.live o r (by simp [hoo])
  have hnot : t ∉ (s.records r).readers := by rw [h.readers, hp]; simp [Pc.isDep]
  -- `t` owned nothing, and `r` keeps all but its dependents
  have hown : ∀ t' r', (s.calls t').pc.isOwner r' → t' ≠ t := by
    rintro t' r' h' rfl; simp [hp, Pc.isOwner] at h'
  have hsame : ∀ r', (s'.records r').pooled = (s.records r').pooled ∧
      (s'.records r').waitLoad = (s.records r').waitLoad ∧
      RecordOk load (s'.records r') = RecordOk load (s.records r') := fun r' => by
    by_cases hr' : r' = r
    · subst hr'; rw [L.record]; exact ⟨rfl, rfl, rfl⟩
    · rw [L.records r' hr']; exact ⟨rfl, rfl, rfl⟩
  refine ⟨L.mutex_ok h L.mutex fun _ => by simp [hp, Pc.holdsLock], fun t' r' h' => ?live,
    fun t1 t2 r' h1 h2 => ?owner_unique, L.map_ok h L.inflight rfl fun _ => by rw [hp]; rfl,
    fun t' r' h' => ?dep_owner, fun r' h' => ?pooled, fun r' h' => ?idle, fun t' r' h' => ?waitLoad, fun t' r' => ?readers,
    fun r' => ?waitFree, fun t' r' h' => ?freeing, fun t' r' h' => ?record, L.call_ok h ?call⟩
  case live =>
    rw [L.fresh, (hsame r').1]
    by_cases ht : t' = t
    · subst ht
      obtain rfl : r = r' := by simpa [L.self, Pc.isOwner, Pc.isDep] using h'
      exact hl
    · rw [L.calls t' ht] at h'; exact h.live t' r' h'
  case owner_unique =>
    by_cases ht1 : t1 = t
    · subst ht1; simp [L.self, Pc.isOwner] at h1
    by_cases ht2 : t2 = t
    · subst ht2; simp [L.self, Pc.isOwner] at h2
    rw [L.calls t1 ht1] at h1; rw [L.calls t2 ht2] at h2; exact h.owner_unique t1 t2 r' h1 h2
  case dep_owner =>
    by_cases ht : t' = t
    · subst ht
      obtain rfl : r = r' := by simpa [L.self, Pc.isDep] using h'
      exact ⟨o, by rw [L.calls o hot]; exact hoo, by rw [L.calls o hot, L.self]; exact hko,
        fun e => by simp [L.self] at e⟩
    · rw [L.calls t' ht] at h' ⊢
      obtain ⟨o', ho', hko', hst'⟩ := h.dep_owner t' r' h'
      have := hown o' r' ho'
      exact ⟨o', by rw [L.calls o' this]; exact ho', by rw [L.calls o' this]; exact hko',
        fun e => by rw [L.calls o' this]; exact hst' e⟩
  case pooled => rw [L.fresh]; rw [(hsame r').1] at h'; exact h.pooled r' h'
  case idle =>
    rw [L.fresh, (hsame r').1] at h'
    by_cases hr' : r' = r
    · subst hr'
      simp only [hl.1, Bool.false_eq_true, false_or] at h'; exact absurd hl.2 (Nat.not_lt.mpr h')
    · rw [L.records r' hr']; exact h.idle r' h'
  case waitLoad =>
    by_cases ht : t' = t
    · subst ht; simp [L.self, Pc.isOwner] at h'
    · rw [L.calls t' ht] at h' ⊢; rw [(hsame r').2.1]; exact h.waitLoad t' r' h'
  case readers =>
    by_cases hr' : r' = r
    · subst hr'
      rw [L.record]
      by_cases ht : t' = t
      · subst ht; simp [L.self, Pc.isDep]
      · rw [L.calls t' ht]; simp only [Finset.mem_insert, ht, false_or]; exact h.readers t' r'
    · rw [L.records r' hr']
      by_cases ht : t' = t
      · subst ht; rw [h.readers, hp, L.self]; simp [Pc.isDep, Ne.symm hr']
      · rw [L.calls t' ht]; exact h.readers t' r'
  case waitFree =>
    by_cases hr' : r' = r
    · subst hr'; rw [L.record]; simp [h.waitFree, Finset.card_insert_of_not_mem hnot]
    · rw [L.records r' hr']; exact h.waitFree r'
  case freeing =>
    by_cases ht : t' = t
    · subst ht; simp [L.self] at h'
    rw [L.calls t' ht] at h'
    by_cases hr' : r' = r
    · -- the goroutine freeing `r` would be its owner, which is still in the map
      subst hr'
      obtain rfl := h.owner_unique o t' r' hoo (by simp [h', Pc.isOwner])
      simp [h', Pc.inMap] at ho
    · rw [L.records r' hr']; exact h.freeing t' r' h'
  case record =>
    by_cases ht : t' = t
    · subst ht; simp [L.self, Pc.isOwner] at h'
    · rw [L.calls t' ht] at h' ⊢; rw [(hsame r').2.2]; exact h.record t' r' h'
  case call => exact (h.callOk_of_pc hp :)

/-- A dependent's deferred `waitFree.Done` drops it from the record's readers. -/
theorem Inv.depDone (h : Inv load s) {r : Nat} {c : Call} {x : Record}
    (hp : (s.calls t).pc = .depDone r) (L : Local s s' t r c x)
    (hc : c = { s.calls t with pc := .depReturned })
    (hx : x = { s.records r with
      waitFree := (s.records r).waitFree - 1
      readers := (s.records r).readers.erase t }) :
    Inv load s' := by
  subst hc hx
  have hdep : (s.calls t).pc.isDep r := by simp [hp, Pc.isDep]
  have hmem : t ∈ (s.records r).readers := (h.readers t r).2 hdep
  have hl := h.live t r (by simp [hdep])
  -- `t` owned nothing, and `r` keeps all but its dependents
  have hown : ∀ t' r', (s.calls t').pc.isOwner r' → t' ≠ t := fun t' r' ho => s.owner_ne_dep ho hdep
  have hsame : ∀ r', (s'.records r').pooled = (s.records r').pooled ∧
      (s'.records r').waitLoad = (s.records r').waitLoad ∧
      RecordOk load (s'.records r') = RecordOk load (s.records r') := fun r' => by
    by_cases hr' : r' = r
    · subst hr'; rw [L.record]; exact ⟨rfl, rfl, rfl⟩
    · rw [L.records r' hr']; exact ⟨rfl, rfl, rfl⟩
  refine ⟨L.mutex_ok h L.mutex fun e => by simp [Pc.holdsLock] at e, fun t' r' h' => ?live,
    fun t1 t2 r' h1 h2 => ?owner_unique, L.map_ok h L.inflight rfl fun _ => by rw [hp]; rfl,
    fun t' r' h' => ?dep_owner, fun r' h' => ?pooled, fun r' h' => ?idle, fun t' r' h' => ?waitLoad, fun t' r' => ?readers,
    fun r' => ?waitFree, fun t' r' h' => ?freeing, fun t' r' h' => ?record, L.call_ok h ?call⟩
  case live =>
    by_cases ht : t' = t
    · subst ht; simp [L.self, Pc.isOwner, Pc.isDep] at h'
    · rw [L.calls t' ht] at h'; rw [L.fresh, (hsame r').1]; exact h.live t' r' h'
  case owner_unique =>
    by_cases ht1 : t1 = t
    · subst ht1; simp [L.self, Pc.isOwner] at h1
    by_cases ht2 : t2 = t
    · subst ht2; simp [L.self, Pc.isOwner] at h2
    rw [L.calls t1 ht1] at h1; rw [L.calls t2 ht2] at h2; exact h.owner_unique t1 t2 r' h1 h2
  case dep_owner =>
    by_cases ht : t' = t
    · subst ht; simp [L.self, Pc.isDep] at h'
    · rw [L.calls t' ht] at h' ⊢
      obtain ⟨o, ho, hko, hst⟩ := h.dep_owner t' r' h'
      have := hown o r' ho
      exact ⟨o, by rw [L.calls o this]; exact ho, by rw [L.calls o this]; exact hko,
        fun e => by rw [L.calls o this]; exact hst e⟩
  case pooled => rw [L.fresh]; rw [(hsame r').1] at h'; exact h.pooled r' h'
  case idle =>
    rw [L.fresh, (hsame r').1] at h'
    by_cases hr' : r' = r
    · subst hr'
      simp only [hl.1, Bool.false_eq_true, false_or] at h'; exact absurd hl.2 (Nat.not_lt.mpr h')
    · rw [L.records r' hr']; exact h.idle r' h'
  case waitLoad =>
    by_cases ht : t' = t
    · subst ht; simp [L.self, Pc.isOwner] at h'
    · rw [L.calls t' ht] at h' ⊢; rw [(hsame r').2.1]; exact h.waitLoad t' r' h'
  case readers =>
    by_cases hr' : r' = r
    · subst hr'
      rw [L.record]
      by_cases ht : t' = t
      · subst ht; simp [L.self, Pc.isDep]
      · rw [L.calls t' ht]; simp only [Finset.mem_erase, ne_eq, ht, not_false_eq_true, true_and]
        exact h.readers t' r'
    · rw [L.records r' hr']
      by_cases ht : t' = t
      · subst ht; rw [h.readers, hp, L.self]; simp [Pc.isDep, Ne.symm hr']
      · rw [L.calls t' ht]; exact h.readers t' r'
  case waitFree =>
    by_cases hr' : r' = r
    · subst hr'; rw [L.record]; simp [h.waitFree, Finset.card_erase_of_mem hmem]
    · rw [L.records r' hr']; exact h.waitFree r'
  case freeing =>
    by_cases ht : t' = t
    · subst ht; simp [L.self] at h'
    rw [L.calls t' ht] at h'
    have hf := h.freeing t' r' h'
    by_cases hr' : r' = r
    · subst hr'; rw [L.record]; simp [hf]
    · rw [L.records r' hr']; exact hf
  case record =>
    by_cases ht : t' = t
    · subst ht; simp [L.self, Pc.isOwner] at h'
    · rw [L.calls t' ht] at h' ⊢; rw [(hsame r').2.2]; exact h.record t' r' h'
  case call => exact (h.callOk_of_pc hp :)

/-- The leader deletes its key: the map entry goes, nothing else does. -/
theorem Inv.leaderDelete (h : Inv load s) {r : Nat} {c : Call}
    (hp : (s.calls t).pc = .leaderDelete r) (F : Frame s s' t r c (s.records r))
    (hm : s'.mutex = s.mutex) (hin : s'.inflight = Function.update s.inflight (s.calls t).key none)
    (hfresh : s'.fresh = s.fresh) (hc : c = { s.calls t with pc := .leaderUnlock2 r }) :
    Inv load s' := by
  subst hc
  have hown : (s.calls t).pc.isOwner r := by simp [hp, Pc.isOwner]
  have hentry := h.map.entry t r (by simp [hp, Pc.inMap])
  refine h.frame F (.inr rfl) rfl (fun _ => by rw [hp]; rfl) (fun _ => by rw [hp]; rfl)
    (fun _ e => by rw [hp] at e; exact e) (fun _ e => by cases e) (fun _ e => by cases e)
    ⟨rfl, rfl, rfl⟩ (fun r' ho => ?_) (fun r' ho => ?_) ⟨fun k r' hk => ?_, fun t' r' h' => ?_⟩
    hfresh (F.mutex_ok h hm fun _ => by simp [hp, Pc.holdsLock]) ?_
  · obtain rfl : r = r' := by simpa [Pc.isOwner] using ho
    rw [F.record]; simpa [hp, Pc.loading] using h.waitLoad t r hown
  · obtain rfl : r = r' := by simpa [Pc.isOwner] using ho
    rw [F.record]; simpa [RecordOk, hp, Pc.loaded, Pc.stored] using h.record t r hown
  · rw [hin] at hk
    by_cases hk' : k = (s.calls t).key
    · subst hk'; simp at hk
    rw [Function.update_noteq hk'] at hk
    obtain ⟨o, ho, hko⟩ := h.map.owner k r' hk
    have hot : o ≠ t := by rintro rfl; exact hk' hko.symm
    exact ⟨o, by rw [F.calls o hot]; exact ho, by rw [F.calls o hot]; exact hko⟩
  · by_cases ht : t' = t
    · subst ht; simp [F.self, Pc.inMap] at h'
    rw [F.calls t' ht] at h' ⊢
    -- another entry has another key: the same key would give it `r`, and `t` owns `r`
    have hk' : (s.calls t').key ≠ (s.calls t).key := by
      intro e
      have := h.map.entry t' r' h'
      rw [e, hentry, Option.some.injEq] at this
      subst this
      exact ht (h.owner_unique t' t r (Pc.isOwner_of_inMap h') hown)
    rw [hin, Function.update_noteq hk']; exact h.map.entry t' r' h'
  · exact (h.callOk_of_pc hp :)

/-- The goroutine frees the record: no map entry and no dependent reaches it, so it can go
back to the pool, idle. -/
theorem Inv.freeInflightFetch (h : Inv load s) {r : Nat} {c : Call} {x : Record}
    (hp : (s.calls t).pc = .freeing r) (L : Local s s' t r c x)
    (hc : c = { s.calls t with pc := .freed })
    (hx : x = { s.records r with err := none, bufPair := BufPair.empty, pooled := true }) :
    Inv load s' := by
  subst hc hx
  have hown : (s.calls t).pc.isOwner r := by simp [hp, Pc.isOwner]
  have hnone : (s.records r).readers = ∅ := h.freeing t r hp
  have hl := h.live t r (by simp [hown])
  -- no other thread works on `r`
  have hother : ∀ t', t' ≠ t → (s.calls t').pc.isOwner r = false ∧ (s.calls t').pc.isDep r = false :=
    fun t' ht => ⟨Bool.eq_false_iff.mpr fun ho => ht (h.owner_unique t' t r ho hown),
      Bool.eq_false_iff.mpr fun hd => by simpa [hnone] using (h.readers t' r).2 hd⟩
  have hne : ∀ t' r', t' ≠ t → ((s.calls t').pc.isOwner r' || (s.calls t').pc.isDep r') →
      r' ≠ r := by
    rintro t' r' ht h' rfl; simp [hother t' ht] at h'
  refine ⟨L.mutex_ok h L.mutex fun e => by simp [Pc.holdsLock] at e, fun t' r' h' => ?live,
    fun t1 t2 r' h1 h2 => ?owner_unique, L.map_ok h L.inflight rfl fun _ => by rw [hp]; rfl,
    fun t' r' h' => ?dep_owner, fun r' h' => ?pooled, fun r' h' => ?idle, fun t' r' h' => ?waitLoad, fun t' r' => ?readers,
    fun r' => ?waitFree, fun t' r' h' => ?freeing, fun t' r' h' => ?record, L.call_ok h ?call⟩
  case live =>
    by_cases ht : t' = t
    · subst ht; simp [L.self, Pc.isOwner, Pc.isDep] at h'
    · rw [L.calls t' ht] at h'
      rw [L.fresh, L.records r' (hne t' r' ht h')]; exact h.live t' r' h'
  case owner_unique =>
    by_cases ht1 : t1 = t
    · subst ht1; simp [L.self, Pc.isOwner] at h1
    by_cases ht2 : t2 = t
    · subst ht2; simp [L.self, Pc.isOwner] at h2
    rw [L.calls t1 ht1] at h1; rw [L.calls t2 ht2] at h2; exact h.owner_unique t1 t2 r' h1 h2
  case dep_owner =>
    by_cases ht : t' = t
    · subst ht; simp [L.self, Pc.isDep] at h'
    · rw [L.calls t' ht] at h' ⊢
      obtain ⟨o, ho, hko, hst⟩ := h.dep_owner t' r' h'
      have hr' := hne t' r' ht (by simp [h'])
      have hot : o ≠ t := by rintro rfl; exact hr' (Pc.isOwner_unique ho hown)
      exact ⟨o, by rw [L.calls o hot]; exact ho, by rw [L.calls o hot]; exact hko,
        fun e => by rw [L.calls o hot]; exact hst e⟩
  case pooled =>
    rw [L.fresh]
    by_cases hr' : r' = r
    · subst hr'; exact hl.2
    · rw [L.records r' hr'] at h'; exact h.pooled r' h'
  case idle =>
    by_cases hr' : r' = r
    · subst hr'
      have hw := h.waitLoad t r' hown
      simp only [hp, Pc.loading, Bool.false_eq_true, if_false] at hw
      rw [L.record]
      exact ⟨hw, by rw [h.waitFree, hnone]; rfl, rfl, rfl, hnone⟩
    · rw [L.fresh, L.records r' hr'] at h'; rw [L.records r' hr']; exact h.idle r' h'
  case waitLoad =>
    by_cases ht : t' = t
    · subst ht; simp [L.self, Pc.isOwner] at h'
    · rw [L.calls t' ht] at h' ⊢
      rw [L.records r' (hne t' r' ht (by simp [h']))]; exact h.waitLoad t' r' h'
  case readers =>
    have hrd : (s'.records r').readers = (s.records r').readers := by
      by_cases hr' : r' = r
      · subst hr'; rw [L.record]
      · rw [L.records r' hr']
    rw [hrd]
    by_cases ht : t' = t
    · subst ht; rw [h.readers, hp, L.self]; simp [Pc.isDep]
    · rw [L.calls t' ht]; exact h.readers t' r'
  case waitFree =>
    by_cases hr' : r' = r
    · subst hr'; rw [L.record]; exact h.waitFree r'
    · rw [L.records r' hr']; exact h.waitFree r'
  case freeing =>
    by_cases ht : t' = t
    · subst ht; simp [L.self] at h'
    · rw [L.calls t' ht] at h'
      rw [L.records r' (hne t' r' ht (by simp [h', Pc.isOwner]))]; exact h.freeing t' r' h'
  case record =>
    by_cases ht : t' = t
    · subst ht; simp [L.self, Pc.isOwner] at h'
    · rw [L.calls t' ht] at h' ⊢
      rw [L.records r' (hne t' r' ht (by simp [h']))]; exact h.record t' r' h'
  case call => exact (h.callOk_of_pc hp :)

/-- `getInflightFetch` hands a call that missed the map a pooled or a new record, which no
thread works on; the call becomes its leader and puts it in the map. -/
theorem Inv.allocate (h : Inv load s) {r : Nat} {c : Call} {x : Record}
    (hp : (s.calls t).pc = .lookup) (hnone : s.inflight (s.calls t).key = none)
    (hpool : (s.records r).pooled = true ∨ r = s.fresh) (F : Frame s s' t r c x)
    (hm : s'.mutex = s.mutex)
    (hin : s'.inflight = Function.update s.inflight (s.calls t).key (some r))
    (hfresh : s'.fresh = if r = s.fresh then s.fresh + 1 else s.fresh)
    (hc : c = { s.calls t with pc := .leaderUnlock r })
    (hx : x = { s.records r with waitLoad := (s.records r).waitLoad + 1, pooled := false }) :
    Inv load s' := by
  subst hc hx
  have hidle := h.idle r (hpool.imp id fun e => e.ge)
  have hlt : r < s'.fresh := by
    rw [hfresh]
    split_ifs with hr
    · omega
    · exact (h.pooled r (hpool.resolve_right hr)).trans_le le_rfl
  have hle : s.fresh ≤ s'.fresh := by rw [hfresh]; split_ifs <;> omega
  -- no thread works on `r`, and `t` on nothing
  have hfree : ∀ t', ((s.calls t').pc.isOwner r || (s.calls t').pc.isDep r) = false := by
    intro t'
    refine Bool.eq_false_iff.mpr fun h' => ?_
    have hl := h.live t' r h'
    rcases hpool with hp' | hr
    · simp [hp', hl.1] at hl
    · omega
  have hne : ∀ t' r', ((s.calls t').pc.isOwner r' || (s.calls t').pc.isDep r') → r' ≠ r := by
    rintro t' r' h' rfl; simp [hfree t'] at h'
  have hown : ∀ t' r', (s.calls t').pc.isOwner r' → t' ≠ t := by
    rintro t' r' h' rfl; simp [hp, Pc.isOwner] at h'
  refine ⟨F.mutex_ok h hm fun _ => by simp [hp, Pc.holdsLock], fun t' r' h' => ?live,
    fun t1 t2 r' h1 h2 => ?owner_unique, ⟨fun k r' hk => ?map_owner, fun t' r' h' => ?map_entry⟩,
    fun t' r' h' => ?dep_owner, fun r' h' => ?pooled, fun r' h' => ?idle, fun t' r' h' => ?waitLoad, fun t' r' => ?readers,
    fun r' => ?waitFree, fun t' r' h' => ?freeing, fun t' r' h' => ?record, F.call_ok h ?call⟩
  case live =>
    by_cases ht : t' = t
    · subst ht
      obtain rfl : r = r' := by simpa [F.self, Pc.isOwner, Pc.isDep] using h'
      rw [F.record]; exact ⟨rfl, hlt⟩
    · rw [F.calls t' ht] at h'
      rw [F.records r' (hne t' r' h')]; exact (h.live t' r' h').imp id fun e => e.trans_le hle
  case owner_unique =>
    -- a second owner of `r` would have worked on it before
    have key : ∀ t2, t2 ≠ t → (s'.calls t).pc.isOwner r' → (s'.calls t2).pc.isOwner r' → False := by
      intro t2 ht2 h1 h2
      obtain rfl : r = r' := by simpa [F.self, Pc.isOwner] using h1
      rw [F.calls t2 ht2] at h2; simp [h2] at hne; exact hne t2 r (by simp [h2]) rfl
    by_cases ht1 : t1 = t
    · subst ht1
      by_cases ht2 : t2 = t1
      · exact ht2.symm
      · exact (key t2 ht2 h1 h2).elim
    by_cases ht2 : t2 = t
    · subst ht2; exact (key t1 ht1 h2 h1).elim
    rw [F.calls t1 ht1] at h1; rw [F.calls t2 ht2] at h2; exact h.owner_unique t1 t2 r' h1 h2
  case map_owner =>
    rw [hin] at hk
    by_cases hk' : k = (s.calls t).key
    · subst hk'
      simp only [Function.update_same, Option.some.injEq] at hk; subst hk
      exact ⟨t, by simp [F.self, Pc.inMap], by rw [F.self]⟩
    rw [Function.update_noteq hk'] at hk
    obtain ⟨o, ho, hko⟩ := h.map.owner k r' hk
    have hot := hown o r' (Pc.isOwner_of_inMap ho)
    exact ⟨o, by rw [F.calls o hot]; exact ho, by rw [F.calls o hot]; exact hko⟩
  case map_entry =>
    rw [hin]
    by_cases ht : t' = t
    · subst ht
      obtain rfl : r = r' := by simpa [F.self, Pc.inMap] using h'
      rw [F.self]; simp
    · rw [F.calls t' ht] at h' ⊢
      have he := h.map.entry t' r' h'
      have hk' : (s.calls t').key ≠ (s.calls t).key := fun e => by rw [e, hnone] at he; cases he
      rw [Function.update_noteq hk']; exact he
  case dep_owner =>
    by_cases ht : t' = t
    · subst ht; simp [F.self, Pc.isDep] at h'
    · rw [F.calls t' ht] at h' ⊢
      obtain ⟨o, ho, hko, hst⟩ := h.dep_owner t' r' h'
      have := hown o r' ho
      exact ⟨o, by rw [F.calls o this]; exact ho, by rw [F.calls o this]; exact hko,
        fun e => by rw [F.calls o this]; exact hst e⟩
  case pooled =>
    by_cases hr' : r' = r
    · subst hr'; rw [F.record] at h'; cases h'
    · rw [F.records r' hr'] at h'; exact (h.pooled r' h').trans_le hle
  case idle =>
    by_cases hr' : r' = r
    · subst hr'
      rw [F.record] at h'
      simp only [Bool.false_eq_true, false_or] at h'; exact absurd hlt (Nat.not_lt.mpr h')
    · rw [F.records r' hr'] at h' ⊢; exact h.idle r' (h'.imp id hle.trans)
  case waitLoad =>
    by_cases ht : t' = t
    · subst ht
      obtain rfl : r = r' := by simpa [F.self, Pc.isOwner] using h'
      rw [F.record, F.self]; simp [hidle.1, Pc.loading]
    · rw [F.calls t' ht] at h' ⊢
      rw [F.records r' (hne t' r' (by simp [h']))]; exact h.waitLoad t' r' h'
  case readers =>
    by_cases hr' : r' = r
    · subst hr'
      rw [F.record]; simp only [hidle.2.2.2.2, Finset.not_mem_empty, false_iff, Bool.not_eq_true]
      by_cases ht : t' = t
      · subst ht; simp [F.self, Pc.isDep]
      · rw [F.calls t' ht]; exact (Bool.or_eq_false_iff.mp (hfree t')).2
    · rw [F.records r' hr']
      by_cases ht : t' = t
      · subst ht; rw [h.readers, hp, F.self]; simp [Pc.isDep, Ne.symm hr']
      · rw [F.calls t' ht]; exact h.readers t' r'
  case waitFree =>
    by_cases hr' : r' = r
    · subst hr'; rw [F.record]; exact h.waitFree r'
    · rw [F.records r' hr']; exact h.waitFree r'
  case freeing =>
    by_cases ht : t' = t
    · subst ht; simp [F.self] at h'
    · rw [F.calls t' ht] at h'
      rw [F.records r' (hne t' r' (by simp [h', Pc.isOwner]))]; exact h.freeing t' r' h'
  case record =>
    by_cases ht : t' = t
    · subst ht
      obtain rfl : r = r' := by simpa [F.self, Pc.isOwner] using h'
      rw [F.record, F.self]; simp [RecordOk, hidle.2.2.2.1, Pc.loaded, Pc.stored]
    · rw [F.calls t' ht] at h' ⊢
      rw [F.records r' (hne t' r' (by simp [h']))]; exact h.record t' r' h'
  case call => exact (h.callOk_of_pc hp :)

/-! ### Every step -/

/-- Every statement of a thread keeps the invariant. -/
theorem inv_step (h : Inv load s) (hs : step load s t = some s') : Inv load s' := by
  have keep : ∀ c : Call, c.pc.holdsLock = false →
      ∀ t', ((s.setCall t c).calls t').pc.holdsLock → s.mutex = some t' :=
    fun c hc => h.mutex_setCall (fun e => by simp [hc] at e) fun _ _ e => e
  have release : (s.calls t).pc.holdsLock → ∀ c : Call, c.pc.holdsLock = false →
      ∀ t', ((s.setCall t c).calls t').pc.holdsLock → none = some t' :=
    fun hl c hc => h.mutex_setCall (fun e => by simp [hc] at e) fun t' ht e => by
      rw [h.mutex t hl, Option.some.injEq] at e; exact absurd e.symm ht
  have acquire : s.mutex = none → ∀ c : Call,
      ∀ t', ((s.setCall t c).calls t').pc.holdsLock → some t = some t' :=
    fun hm c => h.mutex_setCall (fun _ => rfl) fun _ _ e => by rw [hm] at e; cases e
  cases hp : (s.calls t).pc with
  | start =>
    simp only [step, hp] at hs
    split_ifs at hs with hm
    obtain rfl := Option.some.inj hs
    exact h.setCall rfl (fun _ => by rw [hp]; rfl) (fun _ e => by cases e) (fun _ e => by cases e)
      (acquire hm _) (h.callOk_of_pc hp :)
  | lookup =>
    simp only [step, hp] at hs
    split at hs
    · obtain rfl := Option.some.inj hs
      exact h.lookupFound hp ‹_› (Local.of_setRecord_setCall _ _ _ _ _) rfl rfl
    · cases hs
  | depUnlock r =>
    simp only [step, hp, Option.some.injEq] at hs; subst hs
    exact h.setCall rfl (fun _ => by rw [hp]; rfl) (fun _ e => by cases e) (fun _ e => by cases e)
      (release (by simp [hp, Pc.holdsLock]) _ (by rfl)) (h.callOk_of_pc hp :)
  | depWait r =>
    simp only [step, hp] at hs
    split_ifs at hs with hw
    obtain rfl := Option.some.inj hs
    -- with `waitLoad` at zero, the owner is past its `Done`, so it has stored the error
    refine h.setCall rfl (fun _ => by rw [hp]; rfl) (fun r' e => ?_) (fun _ e => by cases e)
      (keep _ (by rfl)) (h.callOk_of_pc hp :)
    obtain rfl : r = r' := by cases e; rfl
    obtain ⟨o, ho, hko, -⟩ := h.dep_owner t r (by simp [hp, Pc.isDep])
    have hl := h.waitLoad o r ho
    rw [hw] at hl
    exact ⟨o, ho, hko, Pc.stored_of_not_loading ho (Bool.eq_false_iff.mpr fun e => by simp [e] at hl)⟩
  | depRead r =>
    simp only [step, hp, Option.some.injEq] at hs; subst hs
    obtain ⟨o, ho, hko, hst⟩ := h.dep_owner t r (by simp [hp, Pc.isDep])
    have hrec := h.record o r ho
    simp only [RecordOk, Pc.loaded_of_stored (hst hp), if_true, hko, hst hp, true_implies] at hrec
    have hbuf := h.callOk_of_pc hp
    exact h.setCall rfl (fun _ => by rw [hp]; rfl) (fun _ e => by cases e) (fun _ e => by cases e)
      (keep _ (by rfl)) ⟨by simp only [hrec.1, copyInto_loadInto_empty]; rw [hbuf], hrec.2⟩
  | depDone r =>
    simp only [step, hp, Option.some.injEq] at hs; subst hs
    exact h.depDone hp (Local.of_setRecord_setCall _ _ _ _ _) rfl rfl
  | depReturned => simp [step, hp] at hs
  | leaderUnlock r =>
    simp only [step, hp, Option.some.injEq] at hs; subst hs
    exact h.setCall rfl (fun _ => by rw [hp]; rfl) (fun _ e => by cases e) (fun _ e => by cases e)
      (release (by simp [hp, Pc.holdsLock]) _ (by rfl)) (h.callOk_of_pc hp :)
  | leaderLoad r =>
    simp only [step, hp, Option.some.injEq] at hs; subst hs
    exact h.leaderLoad hp (Local.of_setRecord_setCall _ _ _ _ _) rfl rfl
  | leaderStore r =>
    simp only [step, hp, Option.some.injEq] at hs; subst hs
    exact h.leaderStore hp (Local.of_setRecord_setCall _ _ _ _ _) rfl rfl
  | leaderCopy r =>
    simp only [step, hp, Option.some.injEq] at hs; subst hs
    have hown : (s.calls t).pc.isOwner r := by simp [hp, Pc.isOwner]
    have hrec := h.record t r hown
    have hcall := h.call t
    simp only [RecordOk, hp, Pc.loaded, Pc.stored, decide_True, if_true, true_implies] at hrec
    rw [CallOk, hp] at hcall
    exact h.setCall rfl (fun _ => by rw [hp]; rfl) (fun _ e => by cases e) (fun _ e => by cases e)
      (keep _ (by rfl)) ⟨by rw [hrec.1, copyInto_loadInto_empty, hcall.1],
        by rw [hrec.1, hcall.2]; exact copyErr_loadInto _⟩
  | leaderDone r =>
    simp only [step, hp, Option.some.injEq] at hs; subst hs
    exact h.leaderDone hp (Local.of_setRecord_setCall _ _ _ _ _) rfl rfl
  | leaderLock r =>
    simp only [step, hp] at hs
    split_ifs at hs with hm
    obtain rfl := Option.some.inj hs
    exact h.setCall rfl (fun _ => by rw [hp]; rfl) (fun _ e => by cases e) (fun _ e => by cases e)
      (acquire hm _) (h.callOk_of_pc hp :)
  | leaderDelete r =>
    simp only [step, hp, Option.some.injEq] at hs; subst hs
    exact h.leaderDelete hp ((Frame.of_setCall _ _ _ _).update _ _ _) rfl rfl rfl rfl
  | leaderUnlock2 r =>
    simp only [step, hp, Option.some.injEq] at hs; subst hs
    exact h.setCall rfl (fun _ => by rw [hp]; rfl) (fun _ e => by cases e) (fun _ e => by cases e)
      (release (by simp [hp, Pc.holdsLock]) _ (by rfl)) (h.callOk_of_pc hp :)
  | freeWait r =>
    simp only [step, hp] at hs
    split_ifs at hs with hw
    obtain rfl := Option.some.inj hs
    refine h.setCall rfl (fun _ => by rw [hp]; rfl) (fun _ e => by cases e) (fun r' e => ?_)
      (keep _ (by rfl)) (h.callOk_of_pc hp :)
    obtain rfl : r = r' := by cases e; rfl
    rw [h.waitFree, Finset.card_eq_zero] at hw; exact hw
  | freeing r =>
    simp only [step, hp, Option.some.injEq] at hs; subst hs
    exact h.freeInflightFetch hp (Local.of_setRecord_setCall _ _ _ _ _) rfl rfl
  | freed => simp [step, hp] at hs

/-- Handing out a record keeps the invariant. -/
theorem inv_allocate (h : Inv load s) {r : Nat} (hs : allocate s t r = some s') :
    Inv load s' := by
  simp only [allocate] at hs
  split at hs
  · next hg =>
    obtain rfl := Option.some.inj hs
    exact h.allocate hg.1 hg.2.1 hg.2.2 ((Frame.of_setRecord_setCall _ _ _ _ _).update _ _ _) rfl
      rfl rfl rfl rfl
  · cases hs

theorem inv_next (h : Inv load s) : ∀ {a : Act}, next load s a = some s' → Inv load s'
  | .step _, hs => inv_step h hs
  | .allocate _ _, hs => inv_allocate h hs

/-- The invariant holds in every state reachable from the initial one, under any
interleaving. -/
theorem inv_reachable {keys : Nat → UInt64} {bufs : Nat → BufPair}
    (hr : Reachable load (initial keys bufs) s) : Inv load s := by
  induction hr with
  | refl => exact inv_initial load keys bufs
  | tail _ hs ih => obtain ⟨a, ha⟩ := hs; exact inv_next ih ha

end Steps

end Singleflight

end GraphQLTools
