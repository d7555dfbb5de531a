import EmbedSanitizer.TsanInterface
import EmbedSanitizer.PartialRuns

namespace EmbedSanitizer
open ThreadEvents

def AccessCallback.report (entry : AccessCallback) (site : Site) : Report :=
  match entry.check with
  | .read => .reportRaceOnRead site
  | .write | .update => .reportRaceOnWrite site

def Call.report (c : Call) (isRace : Bool) : Option Report :=
  match c.callback with
  | .access entry _ site => if isRace then some (entry.report site) else none
  | _ => none

-- What the callback would be if it were never skipped.
def Call.attempt (c : Call) : Event := c.event 1

section Invocations
variable (cpp : Cpp)

theorem invoke_check (entry : AccessCallback) (s : Runtime) (self : ThreadID) (addr : Address) (site : Site) :
    entry.invoke cpp s self addr site = match entry.check with
      | .read => readCallback cpp s self addr site
      | .write => writeCallback cpp s self addr site true
      | .update => writeCallback cpp s self addr site false := by
  cases entry <;> rfl

theorem invoke_event (c : Call) (s : Runtime) : c.invoke cpp s =
    (perform cpp s (c.event s.isConcurrent)).map fun (s',isRace) => (s',c.report isRace) := by
  cases c with
  | mk self callback =>
  cases callback with
  | access entry addr site =>
    simp only [Call.invoke,Call.event,Call.report,AccessCallback.report,invoke_check]
    by_cases checked : s.isConcurrent ≠ 0
    · cases entry.check <;> simp only [if_pos checked,readCallback,writeCallback,perform,Option.map_eq_bind] <;> rfl
    · cases entry.check <;> simp only [if_neg checked,readCallback,writeCallback,perform] <;> rfl
  | _ => simp [Call.invoke,Call.event,Call.report,perform,Function.comp_def]

end Invocations

section Frames
variable {cpp : Cpp} {s s' : Runtime} {id : ThreadID}

theorem bind_some {o : Option α} {f : α → Option β} (ran : (o >>= f) = some b) : ∃ a, o = some a ∧ f a = some b :=
  Option.bind_eq_some_iff.mp ran

def Runtime.shared (s : Runtime) : CInt × UnorderedMap Address LockState := (s.isConcurrent,s.LS)

theorem getState_frame (ran : getState cpp s id = some s') : ∃ TS n, s' = {s with TS, NumThreads := n} := by
  unfold getState at ran
  split at ran
  · cases ran; exact ⟨s.TS,s.NumThreads,rfl⟩
  · obtain ⟨_,_,ran⟩ := bind_some ran
    obtain ⟨_,_,ran⟩ := bind_some ran
    cases ran; exact ⟨_,_,rfl⟩

theorem getState_shared (ran : getState cpp s id = some s') : s'.shared = s.shared := by
  obtain ⟨TS,n,rfl⟩ := getState_frame ran
  rfl

theorem getVarState_shared (ran : getVarState cpp s self addr isWrite = some s') : s'.shared = s.shared := by
  unfold getVarState at ran
  split at ran
  · cases ran; rfl
  · obtain ⟨s₁,registered,ran⟩ := bind_some ran
    obtain ⟨_,_,ran⟩ := bind_some ran
    cases ran
    have kept := getState_shared registered
    exact kept

theorem getLockState_frame (ran : getLockState cpp s lock = some s') :
    ∃ LS : UnorderedMap Address LockState, s' = {s with LS} ∧ ∀ m, m ≠ lock → LS.find m = s.LS.find m := by
  unfold getLockState at ran
  split at ran
  · cases ran; exact ⟨s.LS,rfl,fun _ _ => rfl⟩
  · obtain ⟨L,_,ran⟩ := bind_some ran
    cases ran
    exact ⟨_,rfl,fun m other => by simp [other]⟩

theorem getLockState_kept (ran : getLockState cpp s lock = some s') :
    s'.isConcurrent = s.isConcurrent ∧ ∀ m, m ≠ lock → s'.LS.find m = s.LS.find m := by
  obtain ⟨LS,rfl,others⟩ := getLockState_frame ran
  exact ⟨rfl,others⟩

theorem evaluate_keeps {β : Type*} (f : Runtime → β) {left right : Runtime → Option Runtime}
    (keepsL : ∀ s s', left s = some s' → f s' = f s) (keepsR : ∀ s s', right s = some s' → f s' = f s)
    (ran : cpp.evaluate left right s = some s') : f s' = f s := by
  unfold Cpp.evaluate at ran
  split at ran
  · obtain ⟨s₁,first,second⟩ := bind_some ran
    exact (keepsR _ _ second).trans (keepsL _ _ first)
  · obtain ⟨s₁,first,second⟩ := bind_some ran
    exact (keepsL _ _ second).trans (keepsR _ _ first)

theorem evaluate_states (ran : cpp.evaluate (getState cpp · t) (getState cpp · u) s = some s') : s'.shared = s.shared :=
  evaluate_keeps Runtime.shared (fun _ _ => getState_shared) (fun _ _ => getState_shared) ran

theorem evaluate_access_states (ran : cpp.evaluate (getVarState cpp · id addr isWrite) (getState cpp · id) s = some s') :
    s'.shared = s.shared :=
  evaluate_keeps Runtime.shared (fun _ _ => getVarState_shared) (fun _ _ => getState_shared) ran

theorem evaluate_lock_states (ran : cpp.evaluate (getState cpp · id) (getLockState cpp · lock) s = some s') :
    s'.isConcurrent = s.isConcurrent ∧ ∀ m, m ≠ lock → s'.LS.find m = s.LS.find m := by
  have counter : s'.isConcurrent = s.isConcurrent := evaluate_keeps Runtime.isConcurrent
    (fun _ _ ran => congrArg Prod.fst (getState_shared ran)) (fun _ _ ran => (getLockState_kept ran).1) ran
  refine ⟨counter,fun m other => evaluate_keeps (fun s => s.LS.find m) ?_ ?_ ran⟩
  · intro s s' ran
    have same : s'.LS = s.LS := congrArg Prod.snd (getState_shared ran)
    rw [same]
  · exact fun _ _ ran => (getLockState_kept ran).2 m other

theorem callRead_shared (ran : callRead cpp s self addr = some (s',b)) : s'.shared = s.shared := by
  obtain ⟨s₁,evaluated,ran⟩ := bind_some ran
  obtain ⟨_,_,ran⟩ := bind_some ran
  obtain ⟨_,_,ran⟩ := bind_some ran
  obtain ⟨⟨_,_⟩,_,ran⟩ := bind_some ran
  cases ran
  have kept := evaluate_access_states evaluated
  exact kept

theorem callWrite_shared (ran : callWrite cpp s self addr isWrite = some (s',b)) : s'.shared = s.shared := by
  obtain ⟨s₁,evaluated,ran⟩ := bind_some ran
  obtain ⟨_,_,ran⟩ := bind_some ran
  obtain ⟨_,_,ran⟩ := bind_some ran
  obtain ⟨⟨_,_⟩,_,ran⟩ := bind_some ran
  cases ran
  have kept := evaluate_access_states evaluated
  exact kept

theorem callFork_frame (ran : callFork cpp s t u = some s') : ∃ TS, s' = {s with TS, isConcurrent := s.isConcurrent + 1} := by
  obtain ⟨_,_,ran⟩ := bind_some ran
  split at ran
  · obtain ⟨_,_,ran⟩ := bind_some ran
    cases ran; exact ⟨_,rfl⟩
  · obtain ⟨_,_,ran⟩ := bind_some ran
    obtain ⟨⟨_,_⟩,_,ran⟩ := bind_some ran
    cases ran; exact ⟨_,rfl⟩

theorem callJoin_frame (ran : callJoin cpp s t u = some s') :
    ∃ TS, s' = {s with TS, isConcurrent := if s.isConcurrent ≠ 0 then s.isConcurrent - 1 else s.isConcurrent} := by
  obtain ⟨_,_,ran⟩ := bind_some ran
  split at ran
  · obtain ⟨_,_,ran⟩ := bind_some ran
    cases ran; exact ⟨_,rfl⟩
  · obtain ⟨_,_,ran⟩ := bind_some ran
    obtain ⟨⟨_,_⟩,_,ran⟩ := bind_some ran
    cases ran; exact ⟨_,rfl⟩

theorem create_frame (ran : tsanThreadCreate cpp s t u = some s') : ∃ s₁ TS,
    cpp.evaluate (getState cpp · t) (getState cpp · u) s = some s₁ ∧ s' = {s₁ with TS, isConcurrent := s₁.isConcurrent + 1} := by
  obtain ⟨s₁,evaluated,called⟩ := bind_some ran
  obtain ⟨TS,same⟩ := callFork_frame called
  exact ⟨s₁,TS,evaluated,same⟩

theorem join_frame (ran : tsanThreadJoin cpp s t u = some s') : ∃ s₁ TS, cpp.evaluate (getState cpp · t) (getState cpp · u) s = some s₁ ∧
    s' = {s₁ with TS, isConcurrent := if s₁.isConcurrent ≠ 0 then s₁.isConcurrent - 1 else s₁.isConcurrent} := by
  obtain ⟨s₁,evaluated,called⟩ := bind_some ran
  obtain ⟨TS,same⟩ := callJoin_frame called
  exact ⟨s₁,TS,evaluated,same⟩

theorem mutex_frame (ran : tsanThreadLock cpp s t m = some s' ∨ tsanThreadUnlock cpp s t m = some s') : ∃ s₁ TS l,
    cpp.evaluate (getState cpp · t) (getLockState cpp · m) s = some s₁ ∧ s' = {s₁ with TS, LS := s₁.LS.insert m l} := by
  rcases ran with ran | ran
  all_goals
    obtain ⟨s₁,evaluated,called⟩ := bind_some ran
    obtain ⟨_,_,called⟩ := bind_some called
    obtain ⟨_,_,called⟩ := bind_some called
    obtain ⟨⟨_,l⟩,_,called⟩ := bind_some called
    cases called
    exact ⟨s₁,_,l,evaluated,rfl⟩

theorem mutex_kept (ran : tsanThreadLock cpp s t m = some s' ∨ tsanThreadUnlock cpp s t m = some s') :
    s'.isConcurrent = s.isConcurrent ∧ ∀ k, k ≠ m → s'.LS.find k = s.LS.find k := by
  obtain ⟨s₁,TS,l,evaluated,rfl⟩ := mutex_frame ran
  obtain ⟨counter,locks⟩ := evaluate_lock_states evaluated
  exact ⟨counter,fun k other => by simpa [other] using locks k other⟩

-- Whatever C++ leaves open, the counter moves with the forks and joins only, and
-- the clock of a mutex with the callbacks about it.
theorem perform_kept {e : Event} (ran : perform cpp s e = some (s',b)) :
    s'.isConcurrent = concurrentAfter s.isConcurrent e ∧
      ∀ m, (∀ t, e ≠ .acquire t m) → (∀ t, e ≠ .release t m) → s'.LS.find m = s.LS.find m := by
  have both : ∀ {s₁ : Runtime}, s₁.shared = s.shared → s₁.isConcurrent = s.isConcurrent ∧ ∀ m, s₁.LS.find m = s.LS.find m := by
    intro s₁ same
    exact ⟨congrArg Prod.fst same,fun m => by rw [show s₁.LS = s.LS from congrArg Prod.snd same]⟩
  cases e with
  | fork t u =>
    obtain ⟨_,called,same⟩ := Option.map_eq_some_iff.mp ran
    cases same
    obtain ⟨s₁,TS,evaluated,rfl⟩ := create_frame called
    obtain ⟨counter,locks⟩ := both (evaluate_states evaluated)
    exact ⟨by rw [counter]; rfl,fun m _ _ => locks m⟩
  | join t u =>
    obtain ⟨_,called,same⟩ := Option.map_eq_some_iff.mp ran
    cases same
    obtain ⟨s₁,TS,evaluated,rfl⟩ := join_frame called
    obtain ⟨counter,locks⟩ := both (evaluate_states evaluated)
    exact ⟨by rw [counter]; rfl,fun m _ _ => locks m⟩
  | acquire t m =>
    obtain ⟨_,called,same⟩ := Option.map_eq_some_iff.mp ran
    cases same
    obtain ⟨counter,locks⟩ := mutex_kept (.inl called)
    exact ⟨counter,fun k acquires _ => locks k fun same => acquires t (by rw [same])⟩
  | release t m =>
    obtain ⟨_,called,same⟩ := Option.map_eq_some_iff.mp ran
    cases same
    obtain ⟨counter,locks⟩ := mutex_kept (.inr called)
    exact ⟨counter,fun k _ releases => locks k fun same => releases t (by rw [same])⟩
  | access t kind a =>
    have kept : s'.shared = s.shared := by
      cases kind with
      | read => exact callRead_shared ran
      | write => exact callWrite_shared ran
      | update => exact callWrite_shared ran
    obtain ⟨counter,locks⟩ := both kept
    exact ⟨counter,fun m _ _ => locks m⟩
  | skip t => cases ran; exact ⟨rfl,fun _ _ _ => rfl⟩

theorem perform_counter {e : Event} (ran : perform cpp s e = some (s',b)) :
    s'.isConcurrent = concurrentAfter s.isConcurrent e := (perform_kept ran).1

end Frames

section Runs
variable {cpp : Cpp} {s : Runtime}

theorem performAll_runAll (cpp : Cpp) (s : Runtime) (tr : List Event) : performAll cpp s tr = PartialRuns.runAll (perform cpp) s tr := by
  induction tr generalizing s with
  | nil => rfl
  | cons e rest ih =>
    simp only [performAll,PartialRuns.runAll,ih,Option.map_eq_bind]
    rfl

theorem invokeAll_events (calls : List Call) : invokeAll cpp s calls =
    (performAll cpp s (eventsFrom s.isConcurrent calls)).map fun (s',verdicts) =>
      (s',List.zipWith Call.report calls verdicts) := by
  induction calls generalizing s with
  | nil => rfl
  | cons c rest ih =>
    rw [invokeAll,invoke_event,eventsFrom,performAll]
    cases ran : perform cpp s (c.event s.isConcurrent) with
    | none => rfl
    | some result =>
      obtain ⟨s₁,b⟩ := result
      have counter := perform_counter ran
      simp only [Option.map_some,Option.bind_eq_bind,Option.bind_some,ih,counter]
      cases performAll cpp s₁ (eventsFrom (concurrentAfter s.isConcurrent (c.event s.isConcurrent)) rest) <;> rfl

theorem concurrentAfter_event (n : CInt) (c : Call) : concurrentAfter n (c.event n) = concurrentAfter n c.attempt := by
  cases c with
  | mk self callback =>
  cases callback with
  | access entry addr site => simp only [Call.attempt,Call.event]; split <;> rfl
  | _ => rfl

theorem invokeAll_counter {calls : List Call} (ran : invokeAll cpp s calls = some (s',reports)) :
    s'.isConcurrent = (calls.map Call.attempt).foldl concurrentAfter s.isConcurrent := by
  induction calls generalizing s reports with
  | nil => cases ran; rfl
  | cons c rest ih =>
    obtain ⟨⟨s₁,report⟩,first,ran⟩ := bind_some ran
    obtain ⟨⟨s₂,later⟩,second,ran⟩ := bind_some ran
    cases ran
    rw [invoke_event] at first
    obtain ⟨⟨s₃,b⟩,performed,same⟩ := Option.map_eq_some_iff.mp first
    cases same
    rw [ih second,perform_counter performed,concurrentAfter_event]
    rfl

theorem invokeAll_append {first second : List Call} (ran : invokeAll cpp s (first ++ second) = some (s',reports)) :
    ∃ s₁ early late, invokeAll cpp s first = some (s₁,early) ∧ invokeAll cpp s₁ second = some (s',late) := by
  induction first generalizing s reports with
  | nil => exact ⟨s,[],reports,rfl,ran⟩
  | cons c rest ih =>
    obtain ⟨⟨s₁,report⟩,one,ran⟩ := bind_some ran
    obtain ⟨⟨s₂,later⟩,others,same⟩ := bind_some ran
    cases same
    obtain ⟨s₃,early,late,middle,last⟩ := ih others
    exact ⟨s₃,report :: early,late,by simp [invokeAll,one,middle],last⟩

theorem event_acquire {n : CInt} {c : Call} : c.event n = .acquire t m ↔ c = ⟨t,.threadLock m⟩ := by
  cases c with
  | mk self callback =>
  cases callback with
  | access entry addr site => simp only [Call.event]; split <;> simp
  | _ => simp [Call.event]

theorem event_release {n : CInt} {c : Call} : c.event n = .release t m ↔ c = ⟨t,.threadUnlock m⟩ := by
  cases c with
  | mk self callback =>
  cases callback with
  | access entry addr site => simp only [Call.event]; split <;> simp
  | _ => simp [Call.event]

theorem invokeAll_lock {calls : List Call} (ran : invokeAll cpp s calls = some (s',reports))
    (locks : ∀ c ∈ calls, ∀ t, c ≠ ⟨t,.threadLock m⟩) (unlocks : ∀ c ∈ calls, ∀ t, c ≠ ⟨t,.threadUnlock m⟩) :
    s'.LS.find m = s.LS.find m := by
  induction calls generalizing s reports with
  | nil => cases ran; rfl
  | cons c rest ih =>
    obtain ⟨⟨s₁,report⟩,one,ran⟩ := bind_some ran
    obtain ⟨⟨s₂,later⟩,others,same⟩ := bind_some ran
    cases same
    rw [invoke_event] at one
    obtain ⟨⟨s₃,b⟩,performed,same⟩ := Option.map_eq_some_iff.mp one
    cases same
    have kept := (perform_kept performed).2 m (fun t => mt event_acquire.mp (locks c List.mem_cons_self t))
      (fun t => mt event_release.mp (unlocks c List.mem_cons_self t))
    rw [← kept]
    exact ih others (fun d member => locks d (List.mem_cons_of_mem _ member))
      (fun d member => unlocks d (List.mem_cons_of_mem _ member))

end Runs
end EmbedSanitizer
