import EmbedSanitizer.Exactness
import EmbedSanitizer.Schedules

namespace EmbedSanitizer
open HappensBefore ThreadEvents EpochDetector Interleaving

section Joining
variable {cpp : Cpp}

theorem ftAcquire_joined {t t' : ThreadState} {l l' : LockState} (ran : ftAcquire cpp t l = some (t',l')) (n : ℕ) :
    (meaning l'.L n).sle (meaning t'.C n) = true := by
  have same := extended_same t.C l.L
  obtain ⟨V,joined,_,entries⟩ := joinInto_spec cpp same
  rw [same] at joined
  simp only [ftAcquire,extendVectorClocks,joined,Option.bind_eq_bind,Option.bind_some] at ran
  obtain ⟨t₁,updated,ran⟩ := bind_some ran
  obtain ⟨epoch,_,updated⟩ := bind_some updated
  cases updated
  cases ran
  rw [entries]
  exact sle_maxInt_right _ _

theorem tsanThreadLock_joined {s s' : Runtime} {self : ThreadID} {lock : Address}
    (ran : tsanThreadLock cpp s self lock = some s') : ∃ t, s'.TS.find self = some t ∧
      ∀ n, (meaning (s'.lockClock lock) n).sle (meaning t.C n) = true := by
  obtain ⟨s₁,_,ran⟩ := bind_some ran
  obtain ⟨t,_,ran⟩ := bind_some ran
  obtain ⟨l,_,ran⟩ := bind_some ran
  obtain ⟨⟨t',l'⟩,acquired,ran⟩ := bind_some ran
  cases ran
  refine ⟨t',by simp,fun n => ?_⟩
  have carried : ({s₁ with TS := s₁.TS.insert self t', LS := s₁.LS.insert lock l'} : Runtime).lockClock lock = l'.L := by
    simp [Runtime.lockClock]
  rw [carried]
  exact ftAcquire_joined acquired n

end Joining

section Held
variable {main : ThreadID} {acts : List Step}

theorem attempts_callbacks (acts : List Step) : callbacks (attempts acts) = (callbacks acts).map Call.attempt :=
  callbacks_map Call.attempt acts

theorem attempts_disciplined (scheduled : Scheduled main (attempts acts)) :
    Disciplined ((callbacks acts).map Call.attempt) := by
  rw [← attempts_callbacks]
  exact disciplined_callbacks.2.mpr (callbacks_disciplined scheduled)

-- The callback for a release comes after that for the lock of the same thread, and
-- no other callback about the mutex is made in between.
theorem release_acquired {calls : List Call} (disciplined : Disciplined (calls.map Call.attempt)) {k : ℕ} {t : ThreadID} {m : Address}
    (found : calls[k]? = some ⟨t,.threadUnlock m⟩) : ∃ i, i < k ∧ calls[i]? = some ⟨t,.threadLock m⟩ ∧
      ∀ j c, i < j → j < k → calls[j]? = some c → (∀ u, c ≠ ⟨u,.threadLock m⟩) ∧ ∀ u, c ≠ ⟨u,.threadUnlock m⟩ := by
  have at_k : (calls.map Call.attempt)[k]? = some (.release t m) := by rw [List.getElem?_map,found]; rfl
  have now := disciplined_take disciplined (k+1)
  rw [take_at at_k] at now
  obtain ⟨i,acquired,quiet⟩ := holder_since (disciplined_snoc.mp now).2
  have bound := (List.getElem?_eq_some_iff.mp acquired).1
  have less : i < k := Nat.lt_of_lt_of_le bound (List.length_take_le k _)
  rw [List.getElem?_take_of_lt less,List.getElem?_map] at acquired
  obtain ⟨c,at_i,event⟩ := Option.map_eq_some_iff.mp acquired
  refine ⟨i,less,by rw [at_i,event_acquire.mp event],fun j d later earlier at_j => ?_⟩
  have others := quiet j d.attempt later (by rw [List.getElem?_take_of_lt earlier,List.getElem?_map,at_j]; rfl)
  exact ⟨fun u same => others.1 u (by rw [same]; rfl),fun u same => others.2 u (by rw [same]; rfl)⟩

theorem release_joined {calls : List Call} (disciplined : Disciplined (calls.map Call.attempt)) {cpp : Cpp} {s sk : Runtime}
    {k : ℕ} {t : ThreadID} {m : Address} {reports : List (Option Report)} (found : calls[k]? = some ⟨t,.threadUnlock m⟩)
    (ran : invokeAll cpp s (calls.take k) = some (sk,reports)) : ∃ i si early ti, i < k ∧ calls[i]? = some ⟨t,.threadLock m⟩ ∧
      invokeAll cpp s (calls.take (i+1)) = some (si,early) ∧ si.TS.find t = some ti ∧
      (∀ n, (meaning (si.lockClock m) n).sle (meaning ti.C n) = true) ∧ sk.lockClock m = si.lockClock m := by
  obtain ⟨i,less,acquired,quiet⟩ := release_acquired disciplined found
  rw [take_split calls (show i + 1 ≤ k from less)] at ran
  obtain ⟨si,early,late,first,rest⟩ := invokeAll_append ran
  have reached := first
  rw [take_at acquired] at first
  obtain ⟨s₀,_,_,_,last⟩ := invokeAll_append first
  obtain ⟨⟨s₁,report⟩,locked,last⟩ := bind_some last
  cases last
  obtain ⟨s₂,called,same⟩ := Option.map_eq_some_iff.mp locked
  cases same
  obtain ⟨ti,at_t,joined⟩ := tsanThreadLock_joined called
  have middle : ∀ c ∈ (calls.take k).drop (i+1), (∀ u, c ≠ ⟨u,.threadLock m⟩) ∧ ∀ u, c ≠ ⟨u,.threadUnlock m⟩ := by
    intro c member
    obtain ⟨n,at_n⟩ := List.getElem?_of_mem member
    rw [List.getElem?_drop] at at_n
    have bound := Nat.lt_of_lt_of_le (List.getElem?_eq_some_iff.mp at_n).1 (List.length_take_le k calls)
    rw [List.getElem?_take_of_lt bound] at at_n
    exact quiet _ c (by omega) bound at_n
  have kept := invokeAll_lock rest (fun c member => (middle c member).1) (fun c member => (middle c member).2)
  refine ⟨i,si,early,ti,less,acquired,reached,at_t,joined,?_⟩
  unfold Runtime.lockClock
  rw [kept]

theorem eventsFrom_take (n : CInt) (calls : List Call) (k : ℕ) : eventsFrom n (calls.take k) = (eventsFrom n calls).take k := by
  induction calls generalizing n k with
  | nil => simp [eventsFrom]
  | cons c rest ih =>
    cases k with
    | zero => rfl
    | succ k => simp [eventsFrom,ih]

theorem observed_disciplined (scheduled : Scheduled main (attempts acts)) (n : CInt) :
    Disciplined (eventsFrom n (callbacks acts)) := by
  rw [← observed_callbacks]
  exact disciplined_callbacks.2.mpr (callbacks_disciplined ((gated_scheduledFrom (observed_gated n acts)).mp scheduled))

theorem release_raises (scheduled : Scheduled main (attempts acts)) {cpp : Cpp} {s : Runtime} (prepared : s.Prepared)
    (named : Named s ((callbacks acts).map Call.attempt)) (spare : Spare cpp s (eventsFrom s.isConcurrent (callbacks acts)))
    {k : ℕ} {t : ThreadID} {m : Address} (found : (callbacks acts)[k]? = some ⟨t,.threadUnlock m⟩) :
    ∃ sk reports tk, invokeAll cpp s ((callbacks acts).take k) = some (sk,reports) ∧ sk.TS.find t = some tk ∧
      ∀ id j, sk.slot id = some j → count (sk.lockClock m) j ≤ count tk.C j := by
  have events := calls_named named s.isConcurrent
  obtain ⟨sk,verdicts,ran,sim,slots,_⟩ := run_sim prepared.sim _ (named_take events k) (spare_take spare k)
  have at_k : (eventsFrom s.isConcurrent (callbacks acts))[k]? = some (.release t m) := by
    rw [eventsFrom_at,found]; rfl
  have now := disciplined_take (observed_disciplined scheduled s.isConcurrent) (k+1)
  rw [take_at at_k] at now
  have holds : holders ((eventsFrom s.isConcurrent (callbacks acts)).take k) m = some t := (disciplined_snoc.mp now).2
  obtain ⟨tk,at_t⟩ := found_of_slot slots (events _ (List.mem_of_getElem? at_k) t (by simp [threadsOf]))
  refine ⟨sk,_,tk,by rw [invokeAll_events,eventsFrom_take,ran]; rfl,at_t,fun id j at_j => ?_⟩
  have held := LogicalClock.held_le holds id
  rw [← run_clocks] at held
  rw [(sim.clocks.locks m).counts id j at_j,(sim.clocks.threads t tk at_t).models.counts id j at_j]
  exact held

-- The callbacks of every schedule follow what really happens to the mutexes and to
-- the threads: each mutex goes round by round, from a lock to its callback, to the
-- callback for the release and to the unlock, all by one thread; a thread has made
-- all its callbacks when its join is told; and the clock that a release overwrites
-- is the one that the same thread has joined at its acquire, so that for prepared
-- threads no entry of it is ahead of the thread that releases.
theorem callbacks_follow_holds (scheduled : Scheduled main (attempts acts)) :
    (∀ m, ∃ ts : List ThreadID, (attempts acts).filter (Action.on m) <+: ts.flatMap (round m)) ∧
    Disciplined ((callbacks acts).map Call.attempt) ∧
    (∀ (i j : ℕ) (c : Call) (t u : ThreadID), acts[i]? = some (.callback c) → c.self = u →
      acts[j]? = some (.callback ⟨t,.threadJoin u⟩) → i < j) ∧
    (∀ (cpp : Cpp) (s sk : Runtime) (reports : List (Option Report)) (k : ℕ) (t : ThreadID) (m : Address),
      (callbacks acts)[k]? = some ⟨t,.threadUnlock m⟩ → invokeAll cpp s ((callbacks acts).take k) = some (sk,reports) →
      ∃ i si early ti, i < k ∧ (callbacks acts)[i]? = some ⟨t,.threadLock m⟩ ∧
        invokeAll cpp s ((callbacks acts).take (i+1)) = some (si,early) ∧ si.TS.find t = some ti ∧
        (∀ n, (meaning (si.lockClock m) n).sle (meaning ti.C n) = true) ∧ sk.lockClock m = si.lockClock m) ∧
    ∀ (cpp : Cpp) (s : Runtime), s.Prepared → Named s ((callbacks acts).map Call.attempt) →
      Spare cpp s (eventsFrom s.isConcurrent (callbacks acts)) → ∀ (k : ℕ) (t : ThreadID) (m : Address),
      (callbacks acts)[k]? = some ⟨t,.threadUnlock m⟩ → ∃ sk reports tk, invokeAll cpp s ((callbacks acts).take k) = some (sk,reports) ∧
        sk.TS.find t = some tk ∧ ∀ id j, sk.slot id = some j → count (sk.lockClock m) j ≤ count tk.C j := by
  refine ⟨rounds scheduled,attempts_disciplined scheduled,?_,?_,?_⟩
  · intro i j c t u at_i own at_j
    have actor : c.attempt.actor = u := by
      rw [← own]
      cases c with
      | mk self callback => cases callback <;> rfl
    refine acts_before_join scheduled (t := t) (u := u) (i := i) (j := j) (a := .callback c.attempt) ?_ ?_ actor
    · rw [attempts,List.getElem?_map,at_j]; rfl
    · rw [attempts,List.getElem?_map,at_i]; rfl
  · intro cpp s sk reports k t m found ran
    exact release_joined (attempts_disciplined scheduled) found ran
  · intro cpp s prepared named spare k t m found
    exact release_raises scheduled prepared named spare found

def turns : List Step :=
  [.create 1 2,.callback ⟨1,.threadCreate 2⟩,.lock 2 8,.callback ⟨2,.threadLock 8⟩,.callback ⟨2,.threadUnlock 8⟩,.unlock 2 8,.lock 1 8]

theorem callbacks_follow_holds_turns : (∃ ts : List ThreadID, (attempts turns).filter (Action.on 8) <+: ts.flatMap (round 8)) ∧
    ∃ sk reports tk, invokeAll (.checked .leftFirst) (.ofThreads [1,2] (by decide)) ((callbacks turns).take 2) = some (sk,reports) ∧
      sk.TS.find 2 = some tk ∧ ∀ id j, sk.slot id = some j → count (sk.lockClock 8) j ≤ count tk.C j := by
  obtain ⟨rounds,_,_,_,raised⟩ := callbacks_follow_holds (show Scheduled 1 (attempts turns) by decide)
  exact ⟨rounds 8,raised _ _ (ofThreads_prepared (by decide)) (by decide) (by decide) 2 2 8 rfl⟩

end Held
end EmbedSanitizer
