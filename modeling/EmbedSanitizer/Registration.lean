import EmbedSanitizer.CallbackRuns
import EmbedSanitizer.ClockRefinement

namespace EmbedSanitizer

-- What getState has made of a thread that it meets for the first time, before it
-- stores the epoch at the thread's own slot.
def newcomer (tid : ℕ) : ThreadState := updateThreadClock tid ⟨tid,[],lane tid + 1⟩

theorem newcomer_length (tid : ℕ) : (newcomer tid).C.length = tid := by simp [newcomer,updateThreadClock]

section First
variable {cpp : Cpp} {s s' : Runtime} {id : ThreadID}

theorem getState_absent (absent : s.TS.find id = none) : getState cpp s id =
    (cpp.store (newcomer (s.TS.size + 1)).C (s.TS.size + 1) (lane (s.TS.size + 1) + 1)).map fun C =>
      let joined := (s.TS.insert id ⟨s.TS.size + 1,[],lane (s.TS.size + 1) + 1⟩).mapValues (updateThreadClock (s.TS.size + 1))
      {s with TS := joined.insert id {newcomer (s.TS.size + 1) with C}, NumThreads := s.TS.size + 2} := by
  have grown : ∀ v, (s.TS.insert id v).size = s.TS.size + 1 := fun v => UnorderedMap.size_insert_absent s.TS v absent
  have beyond : cpp.set (newcomer (s.TS.size + 1)).C (s.TS.size + 1) (lane (s.TS.size + 1) + 1) =
      cpp.store (newcomer (s.TS.size + 1)).C (s.TS.size + 1) (lane (s.TS.size + 1) + 1) := by
    unfold Cpp.set; rw [if_neg (by rw [newcomer_length]; omega)]
  unfold getState
  rw [absent]
  simp only [updateThreadClocks,grown,UnorderedMap.size_mapValues,UnorderedMap.find_mapValues,UnorderedMap.find_insert,
    if_true,Option.map_some,Option.bind_eq_bind,Option.bind_some]
  rw [Option.map_eq_bind]
  exact congrArg (Option.bind · _) beyond

theorem getState_stops (order : ArgumentOrder) (absent : s.TS.find id = none) : getState (.checked order) s id = none := by
  rw [getState_absent absent]; rfl

theorem getLockState_threads (ran : getLockState cpp s lock = some s') : s'.TS = s.TS := by
  unfold getLockState at ran
  split at ran
  · cases ran; rfl
  · obtain ⟨_,_,ran⟩ := bind_some ran
    cases ran; rfl

theorem evaluate_stops {left right : Runtime → Option Runtime} (stops : left s = none)
    (later : ∀ s', right s = some s' → left s' = none) : cpp.evaluate left right s = none := by
  unfold Cpp.evaluate
  split
  · simp [stops]
  · cases ran : right s with
    | none => rfl
    | some s' => simp [later s' ran]

end First

def Call.IsAccess (c : Call) : Prop := ∃ entry addr site, c.callback = .access entry addr site

theorem first_stops (order : ArgumentOrder) {c : Call} (synchronizes : ¬ c.IsAccess) : c.invoke (.checked order) .empty = none := by
  have stops : ∀ id, getState (.checked order) .empty id = none := fun id => getState_stops order rfl
  have registers : ∀ id id', (Cpp.checked order).evaluate (getState (.checked order) · id) (getState (.checked order) · id')
      .empty = none := by
    intro id id'
    refine evaluate_stops (stops id) fun s' ran => ?_
    rw [stops id'] at ran; cases ran
  have locks : ∀ id m, (Cpp.checked order).evaluate (getState (.checked order) · id) (getLockState (.checked order) · m)
      .empty = none := by
    intro id m
    refine evaluate_stops (stops id) fun s' ran => getState_stops order ?_
    rw [getLockState_threads ran]; rfl
  cases c with
  | mk self callback =>
  cases callback with
  | access entry addr site => exact absurd ⟨entry,addr,site,rfl⟩ synchronizes
  | threadCreate child => simp [Call.invoke,tsanThreadCreate,registers]
  | threadJoin child => simp [Call.invoke,tsanThreadJoin,registers]
  | threadLock lock => simp [Call.invoke,tsanThreadLock,locks]
  | threadUnlock lock => simp [Call.invoke,tsanThreadUnlock,locks]

theorem access_skipped {cpp : Cpp} {s : Runtime} (quiet : s.isConcurrent = 0) {c : Call} (access : c.IsAccess) :
    c.invoke cpp s = some (s,none) := by
  obtain ⟨entry,addr,site,callback⟩ := access
  rw [invoke_event]
  simp [Call.event,callback,quiet,perform,Call.report]

-- From the empty runtime every subscript is in range exactly when nothing but
-- accesses is called: the first callback that registers a thread stops.
theorem subscripts_iff_accesses (order : ArgumentOrder) (calls : List Call) :
    (invokeAll (.checked order) .empty calls).isSome = true ↔ ∀ c ∈ calls, c.IsAccess := by
  induction calls with
  | nil => simp [invokeAll]
  | cons c rest ih =>
    rw [List.forall_mem_cons,invokeAll]
    by_cases access : c.IsAccess
    · rw [access_skipped rfl access,and_iff_right access,← ih]
      cases ran : invokeAll (.checked order) .empty rest <;> simp [ran]
    · simp [first_stops order access,access]

theorem first_lock_out_of_range : (invokeAll (.checked .leftFirst) .empty [⟨1,.threadLock 8⟩]).isSome = false := by
  decide

end EmbedSanitizer
