import GraphQLTools.SingleflightSafety

/-!
# Singleflight: every call can return

The safety results (`singleflight_safe`) hold of a protocol that never moves, so they say
nothing of whether a call of `resolveSingleFetch` can get stuck. A call waits at three places:
on `inflightFetchMu` (before either `Lock`), on `waitLoad` (a dependent) and on `waitFree` (the
goroutine a leader starts). Each of them waits for a thread that can move on its own:

* the mutex is held only by a thread inside a critical section (`MutexHeld`, the one fact of
  this kind the invariant `Inv` does not state), which lets it go within three statements;
* `waitLoad` is one only while the record's leader is before `waitLoad.Done`, five statements
  that wait for nothing;
* `waitFree` counts the dependents that registered, and once `waitLoad` is zero each of them is
  at most four statements from its `waitFree.Done`.

So from every reachable state some run takes a given call to its return, and a leader's
goroutine to the point where it has put the record back in the pool (`advance`, by the rank of
the call's phase); and as a call that has returned stays so, any finite set of calls can all
return (`calls_canFinish`). `Load` is one statement here, so this assumes that it returns.
-/

namespace GraphQLTools

namespace Singleflight

/-! ## Phases -/

namespace Pc

/-- How many statements a call still has to run at this phase, on its longest path: the
leader's, through its goroutine. Every statement lowers it. -/
def rank : Pc → Nat
  | .start => 12
  | .lookup => 11
  | .leaderUnlock _ => 10
  | .leaderLoad _ => 9
  | .leaderStore _ => 8
  | .leaderCopy _ => 7
  | .leaderDone _ => 6
  | .leaderLock _ => 5
  | .leaderDelete _ | .depUnlock _ => 4
  | .leaderUnlock2 _ | .depWait _ => 3
  | .freeWait _ | .depRead _ => 2
  | .freeing _ | .depDone _ => 1
  | .freed | .depReturned => 0

/-- A dependent that has returned, or a leader whose goroutine has pooled the record. -/
def finished (p : Pc) : Prop := p = .depReturned ∨ p = .freed

theorem rank_of_finished {p : Pc} (h : p.finished) : p.rank = 0 := by
  rcases h with rfl | rfl <;> rfl

end Pc

@[simp] theorem St.setCall_mutex (s : St) (t : Nat) (c : Call) : (s.setCall t c).mutex = s.mutex :=
  rfl

/-- Only a thread inside a critical section holds `inflightFetchMu`. -/
def MutexHeld (s : St) : Prop := ∀ h, s.mutex = some h → (s.calls h).pc.holdsLock

section Steps

variable {load : UInt64 → LoadResult} {s s' : St} {t : Nat}

/-- **What one statement does**, besides the records and the map: the other calls stay, the
thread's phase goes down in rank, and the mutex is taken on entering a critical section, let
go on leaving one, and stays otherwise. -/
theorem step_effect (hm : (s.calls t).pc.holdsLock → s.mutex = some t)
    (hs : step load s t = some s') :
    (∀ u, u ≠ t → s'.calls u = s.calls u) ∧ (s'.calls t).pc.rank < (s.calls t).pc.rank ∧
      s'.mutex = if (s'.calls t).pc.holdsLock then some t
        else if (s.calls t).pc.holdsLock then none else s.mutex := by
  cases hp : (s.calls t).pc <;> simp only [step, hp] at hs <;> (try split_ifs at hs) <;>
    (try split at hs) <;> (try simp only [Option.some.injEq, reduceCtorEq] at hs) <;>
    (try subst hs) <;> simp_all [St.setPc_calls, St.setCall_calls, Pc.rank, Pc.holdsLock]

/-- `getInflightFetch` at the lookup: the thread becomes the leader, and nothing else moves. -/
theorem allocate_effect {r : Nat} (hs : allocate s t r = some s') :
    (∀ u, u ≠ t → s'.calls u = s.calls u) ∧ (s.calls t).pc = .lookup ∧
      (s'.calls t).pc = .leaderUnlock r ∧ s'.mutex = s.mutex := by
  simp only [allocate] at hs
  split at hs
  · next hg =>
    obtain rfl := Option.some.inj hs
    simp_all [St.setPc_calls]
  · cases hs

/-- The thread an action moves. -/
def Act.thread : Act → Nat
  | .step t => t
  | .allocate t _ => t

/-- An action moves its own thread to a phase of lower rank and no other thread. -/
theorem next_effect (hi : Inv load s) {a : Act} (hs : next load s a = some s') :
    (∀ u, u ≠ a.thread → s'.calls u = s.calls u) ∧
      (s'.calls a.thread).pc.rank < (s.calls a.thread).pc.rank := by
  cases a with
  | step t => exact ⟨(step_effect (hi.mutex t) hs).1, (step_effect (hi.mutex t) hs).2.1⟩
  | allocate t r =>
    obtain ⟨hcalls, hp, hp', -⟩ := allocate_effect hs
    exact ⟨hcalls, by simp [Act.thread, hp, hp', Pc.rank]⟩

/-- An action of the mutex holder leaves the mutex free or still its own. -/
theorem mutex_of_holder (hi : Inv load s) {a : Act} (hh : s.mutex = some a.thread)
    (hs : next load s a = some s') : s'.mutex = none ∨ s'.mutex = some a.thread := by
  cases a with
  | step t =>
    rw [(step_effect (hi.mutex t) hs).2.2]
    split_ifs
    · exact .inr rfl
    · exact .inl rfl
    · exact .inr hh
  | allocate t r => exact .inr ((allocate_effect hs).2.2.2.trans hh)

theorem mutexHeld_initial (keys : Nat → UInt64) (bufs : Nat → BufPair) :
    MutexHeld (initial keys bufs) := fun _ h => by simp [initial] at h

/-- Every action keeps the mutex with a thread inside a critical section. -/
theorem MutexHeld.next (hi : Inv load s) (hm : MutexHeld s) {a : Act}
    (hs : next load s a = some s') : MutexHeld s' := by
  intro h hh
  cases a with
  | step t =>
    obtain ⟨hcalls, -, hmut⟩ := step_effect (hi.mutex t) hs
    rw [hmut] at hh
    split_ifs at hh with h₁ h₂
    · cases hh; exact h₁
    · by_cases ht : h = t
      · subst ht; exact absurd (hm h hh) h₂
      · rw [hcalls h ht]; exact hm h hh
  | allocate t r =>
    obtain ⟨hcalls, -, hpc, hmut⟩ := allocate_effect hs
    rw [hmut] at hh
    by_cases ht : h = t
    · subst ht; rw [hpc]; rfl
    · rw [hcalls h ht]; exact hm h hh

/-- The invariant of the protocol, with `MutexHeld`. -/
structure Good (load : UInt64 → LoadResult) (s : St) : Prop where
  inv : Inv load s
  mutexHeld : MutexHeld s

theorem Good.next (hg : Good load s) {a : Act} (hs : next load s a = some s') : Good load s' :=
  ⟨inv_next hg.inv hs, hg.mutexHeld.next hg.inv hs⟩

theorem run_cons {a : Act} {s₁ : St} (hs : next load s a = some s₁) (acts : List Act) :
    run load s (a :: acts) = run load s₁ acts := by
  simp [run, List.foldlM_cons, hs]

theorem run_cons_eq_some {a : Act} {acts : List Act} (h : run load s (a :: acts) = some s') :
    ∃ s₁, next load s a = some s₁ ∧ run load s₁ acts = some s' := by
  simpa only [run, List.foldlM_cons, Option.bind_eq_bind, Option.bind_eq_some] using h

theorem run_trans {s₁ s₂ : St} {acts acts' : List Act} (h₁ : run load s acts = some s₁)
    (h₂ : run load s₁ acts' = some s₂) : run load s (acts ++ acts') = some s₂ := by
  simp only [run, List.foldlM_append] at h₁ ⊢
  rw [h₁]
  exact h₂

theorem Good.run {acts : List Act} (hg : Good load s) (h : run load s acts = some s') :
    Good load s' := by
  induction acts generalizing s with
  | nil => cases h; exact hg
  | cons a acts ih =>
    obtain ⟨s₁, hs, h₁⟩ := run_cons_eq_some h
    exact ih (hg.next hs) h₁

theorem good_reachable {keys : Nat → UInt64} {bufs : Nat → BufPair}
    (hr : Reachable load (initial keys bufs) s) : Good load s := by
  induction hr with
  | refl => exact ⟨inv_initial load keys bufs, mutexHeld_initial keys bufs⟩
  | tail _ hs ih => obtain ⟨a, ha⟩ := hs; exact ih.next ha

end Steps

/-! ## Moves -/

/-- What the next statement of a call at phase `p` waits for holds: the mutex is free before a
`Lock`, `waitLoad` is zero before `waitLoad.Wait`, `waitFree` before `waitFree.Wait`; and the
call has not returned. -/
def Ready (s : St) : Pc → Prop
  | .start | .leaderLock _ => s.mutex = none
  | .depWait r => (s.records r).waitLoad = 0
  | .freeWait r => (s.records r).waitFree = 0
  | .depReturned | .freed => False
  | _ => True

/-- Some run from `s` to `s'` moves no call but `t`'s. -/
def RunsAlone (load : UInt64 → LoadResult) (t : Nat) (s s' : St) : Prop :=
  ∃ acts, run load s acts = some s' ∧ ∀ u, u ≠ t → s'.calls u = s.calls u

section Moves

variable {load : UInt64 → LoadResult} {s s' s₁ : St} {t : Nat}

/-- A ready call can move: by its statement, or at the lookup of a key the map does not hold,
by taking the next fresh record. -/
theorem can_move (load : UInt64 → LoadResult) (h : Ready s (s.calls t).pc) :
    ∃ a, a.thread = t ∧ ∃ s', next load s a = some s' := by
  cases hp : (s.calls t).pc <;> simp only [hp, Ready] at h
  case lookup =>
    cases hk : s.inflight (s.calls t).key with
    | none => exact ⟨.allocate t s.fresh, rfl, by simp [next, allocate, hp, hk]⟩
    | some r => exact ⟨.step t, rfl, by simp [next, step, hp, hk]⟩
  all_goals exact ⟨.step t, rfl, by simp [next, step, hp, h]⟩

theorem Ready.of_holdsLock {p : Pc} (h : p.holdsLock) : Ready s p := by
  cases p <;> simp_all [Pc.holdsLock, Ready]

theorem Ready.of_loading {p : Pc} {r : Nat} (h : p.loading r) : Ready s p := by
  cases p <;> simp_all [Pc.loading, Ready]

/-- A dependent is ready once its record is loaded. -/
theorem Ready.of_isDep {p : Pc} {r : Nat} (h : p.isDep r) (hw : (s.records r).waitLoad = 0) :
    Ready s p := by
  cases p <;> simp_all [Pc.isDep, Ready]

theorem RunsAlone.refl (load : UInt64 → LoadResult) (t : Nat) (s : St) : RunsAlone load t s s :=
  ⟨[], rfl, fun _ _ => rfl⟩

theorem RunsAlone.cons (hi : Inv load s) {a : Act} (hs : next load s a = some s₁)
    (h : RunsAlone load a.thread s₁ s') : RunsAlone load a.thread s s' := by
  obtain ⟨acts, hrun, hcalls⟩ := h
  exact ⟨a :: acts, by rw [run_cons hs]; exact hrun,
    fun u hu => (hcalls u hu).trans ((next_effect hi hs).1 u hu)⟩

/-- A loading leader's statement keeps it the owner of its record. -/
theorem owner_next {o r : Nat} (hl : (s.calls o).pc.loading r) {a : Act} (ha : a.thread = o)
    (hs : next load s a = some s') : (s'.calls o).pc.isOwner r := by
  cases a with
  | allocate t r' =>
    obtain rfl : t = o := ha
    simp [(allocate_effect hs).2.1, Pc.loading] at hl
  | step t =>
    obtain rfl : t = o := ha
    cases hp : (s.calls t).pc <;>
      simp only [hp, Pc.loading, decide_eq_true_eq, Bool.false_eq_true] at hl <;>
      subst hl <;> simp [next, step, hp] at hs <;> subst hs <;>
      simp [St.setPc_calls, St.setCall_calls, Pc.isOwner]

/-- A dependent's statement keeps it a dependent of its record, or returns it. -/
theorem dep_next {d r : Nat} (hd : (s.calls d).pc.isDep r) {a : Act} (ha : a.thread = d)
    (hs : next load s a = some s') :
    (s'.calls d).pc.isDep r ∨ (s'.calls d).pc = .depReturned := by
  cases a with
  | allocate t r' =>
    obtain rfl : t = d := ha
    simp [(allocate_effect hs).2.1, Pc.isDep] at hd
  | step t =>
    obtain rfl : t = d := ha
    cases hp : (s.calls t).pc <;>
      simp only [hp, Pc.isDep, decide_eq_true_eq, Bool.false_eq_true] at hd <;>
      subst hd <;> simp only [next, step, hp] at hs <;> (try split_ifs at hs) <;> cases hs <;>
      simp [St.setPc_calls, St.setCall_calls, Pc.isDep]

end Moves

/-! ## Every wait ends -/

section Waits

variable {load : UInt64 → LoadResult} {s : St}

/-- **The mutex is let go.** Its holder is inside a critical section, which it leaves within
three statements of its own. -/
theorem release (hg : Good load s) {h : Nat} (hh : s.mutex = some h) :
    ∃ s', RunsAlone load h s s' ∧ s'.mutex = none := by
  generalize hn : (s.calls h).pc.rank = n
  induction n using Nat.strong_induction_on generalizing s with
  | _ n ih =>
  obtain ⟨a, rfl, s₁, hs⟩ := can_move load (Ready.of_holdsLock (hg.mutexHeld _ hh))
  rcases mutex_of_holder hg.inv hh hs with hm | hm
  · exact ⟨s₁, (RunsAlone.refl load _ s₁).cons hg.inv hs, hm⟩
  · obtain ⟨s₂, hrun, hm₂⟩ := ih _ (hn ▸ (next_effect hg.inv hs).2) (hg.next hs) hm rfl
    exact ⟨s₂, hrun.cons hg.inv hs, hm₂⟩

/-- **`waitLoad` reaches zero.** The owner of a record runs its own statements up to
`waitLoad.Done`; none of them waits. -/
theorem finishLoading (hg : Good load s) {o r : Nat} (ho : (s.calls o).pc.isOwner r) :
    ∃ s', RunsAlone load o s s' ∧ (s'.records r).waitLoad = 0 := by
  generalize hn : (s.calls o).pc.rank = n
  induction n using Nat.strong_induction_on generalizing s with
  | _ n ih =>
  by_cases hl : (s.calls o).pc.loading r
  · obtain ⟨a, rfl, s₁, hs⟩ := can_move load (Ready.of_loading hl)
    obtain ⟨s₂, hrun, hw⟩ := ih _ (hn ▸ (next_effect hg.inv hs).2) (hg.next hs)
      (owner_next hl rfl hs) rfl
    exact ⟨s₂, hrun.cons hg.inv hs, hw⟩
  · exact ⟨s, .refl load o s, by simpa [hl] using hg.inv.waitLoad o r ho⟩

/-- **A dependent returns** once its leader is past `waitLoad.Done`: its four statements wait
for nothing else. -/
theorem finishDependent (hg : Good load s) {d o r : Nat} (hd : (s.calls d).pc.isDep r)
    (ho : (s.calls o).pc.isOwner r) (hol : (s.calls o).pc.loading r = false) :
    ∃ s', RunsAlone load d s s' ∧ (s'.calls d).pc = .depReturned := by
  generalize hn : (s.calls d).pc.rank = n
  induction n using Nat.strong_induction_on generalizing s with
  | _ n ih =>
  have hw : (s.records r).waitLoad = 0 := by simpa [hol] using hg.inv.waitLoad o r ho
  have hod : o ≠ d := s.owner_ne_dep ho hd
  obtain ⟨a, rfl, s₁, hs⟩ := can_move load (Ready.of_isDep hd hw)
  have ho₁ : s₁.calls o = s.calls o := (next_effect hg.inv hs).1 o hod
  rcases dep_next hd rfl hs with hd₁ | hd₁
  · obtain ⟨s₂, hrun, hret⟩ := ih _ (hn ▸ (next_effect hg.inv hs).2) (hg.next hs) hd₁
      (ho₁ ▸ ho) (ho₁ ▸ hol) rfl
    exact ⟨s₂, hrun.cons hg.inv hs, hret⟩
  · exact ⟨s₁, (RunsAlone.refl load _ s₁).cons hg.inv hs, hd₁⟩

/-- **`waitFree` reaches zero.** Once the owner of a record is past `waitLoad.Done`, every
dependent registered on the record returns, one after the other, and the owner does not move. -/
theorem drainReaders (hg : Good load s) {o r : Nat} (ho : (s.calls o).pc.isOwner r)
    (hol : (s.calls o).pc.loading r = false) :
    ∃ acts s', run load s acts = some s' ∧ s'.calls o = s.calls o ∧
      (s'.records r).waitFree = 0 := by
  generalize hn : (s.records r).readers.card = n
  induction n using Nat.strong_induction_on generalizing s with
  | _ n ih =>
  obtain ⟨d, hd⟩ | hempty := (s.records r).readers.eq_empty_or_nonempty.symm
  · have hdep := (hg.inv.readers d r).1 hd
    obtain ⟨s₁, ⟨acts, hrun, hcalls⟩, hret⟩ := finishDependent hg hdep ho hol
    have ho₁ := hcalls o (s.owner_ne_dep ho hdep)
    have hg₁ := hg.run hrun
    have hsub : (s₁.records r).readers ⊂ (s.records r).readers := by
      refine Finset.ssubset_iff_of_subset (fun u hu => ?_) |>.2 ⟨d, hd, fun hd₁ => ?_⟩
      · have hu := (hg₁.inv.readers u r).1 hu
        have hud : u ≠ d := by rintro rfl; simp [hret, Pc.isDep] at hu
        exact (hg.inv.readers u r).2 (hcalls u hud ▸ hu)
      · simpa [hret, Pc.isDep] using (hg₁.inv.readers d r).1 hd₁
    obtain ⟨acts', s₂, hrun', ho₂, hw⟩ := ih _ (hn ▸ Finset.card_lt_card hsub) hg₁ (ho₁ ▸ ho)
      (ho₁ ▸ hol) rfl
    exact ⟨acts ++ acts', s₂, run_trans hrun hrun', ho₂.trans ho₁, hw⟩
  · exact ⟨[], s, rfl, rfl, by rw [hg.inv.waitFree, hempty, Finset.card_empty]⟩

end Waits

/-! ## Every call returns -/

section Progress

variable {load : UInt64 → LoadResult} {s : St}

/-- A call outside the critical sections waits for the mutex only as long as its holder. -/
theorem freeMutex (hg : Good load s) {t : Nat} (ht : (s.calls t).pc.holdsLock = false) :
    ∃ acts s', run load s acts = some s' ∧ s'.calls t = s.calls t ∧ s'.mutex = none := by
  cases hm : s.mutex with
  | none => exact ⟨[], s, rfl, rfl, hm⟩
  | some h =>
    have hht : h ≠ t := by rintro rfl; simp [hg.mutexHeld _ hm] at ht
    obtain ⟨s', ⟨acts, hrun, hcalls⟩, hm'⟩ := release hg hm
    exact ⟨acts, s', hrun, hcalls t hht.symm, hm'⟩

/-- Whatever a call waits for, a run of the other calls brings it about. -/
theorem unblock (hg : Good load s) {t : Nat} (hf : ¬(s.calls t).pc.finished) :
    ∃ acts s', run load s acts = some s' ∧ s'.calls t = s.calls t ∧ Ready s' (s.calls t).pc := by
  cases hp : (s.calls t).pc
  case start | leaderLock =>
    exact freeMutex hg (by simp [hp, Pc.holdsLock])
  case depWait r =>
    have hd : (s.calls t).pc.isDep r := by simp [hp, Pc.isDep]
    obtain ⟨o, ho, -⟩ := hg.inv.dep_owner t r hd
    obtain ⟨s', ⟨acts, hrun, hcalls⟩, hw⟩ := finishLoading hg ho
    exact ⟨acts, s', hrun, hcalls t (s.owner_ne_dep ho hd).symm, hw⟩
  case freeWait r =>
    exact drainReaders hg (by simp [hp, Pc.isOwner]) (by simp [hp, Pc.loading])
  case depReturned | freed => exact absurd (by simp [hp, Pc.finished]) hf
  all_goals exact ⟨[], s, rfl, rfl, trivial⟩

/-- **A call that has not returned can move**, after the calls it waits for. -/
theorem advance (hg : Good load s) {t : Nat} (hf : ¬(s.calls t).pc.finished) :
    ∃ acts s', run load s acts = some s' ∧ (s'.calls t).pc.rank < (s.calls t).pc.rank := by
  obtain ⟨acts, s₁, hrun, ht, hready⟩ := unblock hg hf
  obtain ⟨a, rfl, s₂, hs⟩ := can_move load (by rw [ht]; exact hready : Ready s₁ (s₁.calls t).pc)
  refine ⟨acts ++ [a], s₂, run_trans hrun (by rw [run_cons hs]; rfl), ?_⟩
  exact ht ▸ (next_effect (hg.run hrun).inv hs).2

theorem call_canFinish (hg : Good load s) (t : Nat) :
    ∃ acts s', run load s acts = some s' ∧ (s'.calls t).pc.finished := by
  generalize hn : (s.calls t).pc.rank = n
  induction n using Nat.strong_induction_on generalizing s with
  | _ n ih =>
  by_cases hf : (s.calls t).pc.finished
  · exact ⟨[], s, rfl, hf⟩
  · obtain ⟨acts, s₁, hrun, hlt⟩ := advance hg hf
    obtain ⟨acts', s₂, hrun', hf₂⟩ := ih _ (hn ▸ hlt) (hg.run hrun) rfl
    exact ⟨acts ++ acts', s₂, run_trans hrun hrun', hf₂⟩

/-- A call that has returned is left as it is by every run. -/
theorem calls_of_finished (hg : Good load s) {u : Nat} (hf : (s.calls u).pc.finished)
    {acts : List Act} {s' : St} (hrun : run load s acts = some s') : s'.calls u = s.calls u := by
  induction acts generalizing s with
  | nil => cases hrun; rfl
  | cons a acts ih =>
    obtain ⟨s₁, hs, hrun₁⟩ := run_cons_eq_some hrun
    have hau : u ≠ a.thread := by
      rintro rfl
      exact Nat.not_lt_zero _ (Pc.rank_of_finished hf ▸ (next_effect hg.inv hs).2)
    have h₁ := (next_effect hg.inv hs).1 u hau
    exact (ih (hg.next hs) (h₁ ▸ hf) hrun₁).trans h₁

/-- **No call is stuck.** From every state that calls of `resolveSingleFetch` reach under any
interleaving, some run takes every call of a finite set to its return: dependents past
`waitFree.Done`, leaders past the goroutine that pools their record. -/
theorem calls_canFinish {keys : Nat → UInt64} {bufs : Nat → BufPair}
    (hr : Reachable load (initial keys bufs) s) (T : Finset Nat) :
    ∃ acts s', run load s acts = some s' ∧
      ∀ t ∈ T, (s'.calls t).pc = .depReturned ∨ (s'.calls t).pc = .freed := by
  have hg := good_reachable hr
  induction T using Finset.induction_on with
  | empty => exact ⟨[], s, rfl, by simp⟩
  | @insert t T _ ih =>
    obtain ⟨acts, s₁, hrun, hT⟩ := ih
    obtain ⟨acts', s₂, hrun', ht⟩ := call_canFinish (hg.run hrun) t
    refine ⟨acts ++ acts', s₂, run_trans hrun hrun', fun u hu => ?_⟩
    rcases Finset.mem_insert.1 hu with rfl | hu
    · exact ht
    · rw [calls_of_finished (hg.run hrun) (hT u hu) hrun']
      exact hT u hu

/-- Call 0 is loading the key and call 1 waits on it. -/
def errWait : St := (run errLoad errStart (errRun.take 6)).getD errStart

theorem errWait_reachable : Reachable errLoad errStart errWait :=
  reachable_of_run (errRun.take 6) rfl

theorem calls_canFinish_errWait : (errWait.calls 1).pc = .depWait 0 ∧
    (errWait.records 0).waitLoad = 1 ∧
    ∃ acts s', run errLoad errWait acts = some s' ∧
      ∀ t ∈ ({0, 1} : Finset Nat), (s'.calls t).pc = .depReturned ∨ (s'.calls t).pc = .freed :=
  ⟨rfl, rfl, calls_canFinish errWait_reachable {0, 1}⟩

end Progress

end Singleflight

end GraphQLTools
