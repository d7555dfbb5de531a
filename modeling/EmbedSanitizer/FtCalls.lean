import EmbedSanitizer.CallbackRuns
import EmbedSanitizer.ClockRefinement

namespace EmbedSanitizer

-- A call of one of the operations on states that exist by then.
inductive FtCall where
  | acquire (t : ThreadID) (m : Address)
  | release (t : ThreadID) (m : Address)
  | fork (t u : ThreadID)
  | join (t u : ThreadID)
  | read (t : ThreadID) (a : Address)
  | write (t : ThreadID) (a : Address)
  deriving DecidableEq, Repr

section Calls
variable (cpp : Cpp) (s : Runtime)

def FtCall.run : FtCall → Option Runtime
  | .acquire t m => do
    let st ← s.TS.find t
    let l ← s.LS.find m
    let (st,l) ← ftAcquire cpp st l
    some {s with TS := s.TS.insert t st, LS := s.LS.insert m l}
  | .release t m => do
    let st ← s.TS.find t
    let l ← s.LS.find m
    let (st,l) ← ftRelease cpp st l
    some {s with TS := s.TS.insert t st, LS := s.LS.insert m l}
  | .fork t u => callFork cpp s t u
  | .join t u => callJoin cpp s t u
  | .read t a => do
    let x ← s.Vstates.find a
    let st ← s.TS.find t
    let (x,_) ← ftRead cpp s.NumThreads x st
    some {s with Vstates := s.Vstates.insert a x, reads := s.reads + 1}
  | .write t a => do
    let x ← s.Vstates.find a
    let st ← s.TS.find t
    let (x,_) ← ftWrite cpp x st
    some {s with Vstates := s.Vstates.insert a x, writes := s.writes + 1}

def FtCall.Known : FtCall → Prop
  | .acquire t m | .release t m => s.Registered t ∧ ∃ l, s.LS.find m = some l
  | .fork t u | .join t u => s.Registered t ∧ s.Registered u
  | .read t a | .write t a => s.Registered t ∧ ∃ x, s.Vstates.find a = some x

def FtCall.Synchronizes : FtCall → Prop
  | .acquire .. | .release .. | .fork .. | .join .. => True
  | .read .. | .write .. => False

end Calls

-- A thread that has taken the maximum with D, and a thread that has raised its own
-- entry by one; both may have grown to n entries.
structure Joined (t : ThreadState) (D : VectorClock) (t' : ThreadState) : Prop where
  tid : t'.tid = t.tid
  valid : t'.Valid
  entries : ∀ i, meaning t'.C i = maxInt (meaning t.C i) (meaning D i)
  length : t'.C.length = max t.C.length D.length

structure Ticked (t : ThreadState) (n : ℕ) (t' : ThreadState) : Prop where
  tid : t'.tid = t.tid
  valid : t'.Valid
  entries : ∀ i, meaning t'.C i = if i = t.tid then t.epoch + 1 else meaning t.C i
  length : t'.C.length = max t.C.length n

structure Copied (C : VectorClock) (n : ℕ) (V : VectorClock) : Prop where
  entries : ∀ i, meaning V i = meaning C i
  length : V.length = max n C.length

section Operations
variable (cpp : Cpp) {t u t' : ThreadState}

theorem ticked_epoch_succ (ticked : Ticked t n t') : t'.epoch = t.epoch + 1 := by
  rw [ticked.valid.epoch,ticked.entries,if_pos ticked.tid]

theorem acquire_joined (lock : LockState) (valid : t.Valid) : ∃ t' lock', ftAcquire cpp t lock = some (t',lock') ∧
    Joined t lock.L t' ∧ Copied lock.L t.C.length lock'.L := by
  obtain ⟨V,joined,length,_⟩ := joinInto_spec cpp (extended_same t.C lock.L)
  rw [extended_same] at joined
  obtain ⟨t',lock',ran,tid,valid',_,entries,kept⟩ := ftAcquire_spec cpp lock valid.room
  have whole := ran
  simp only [ftAcquire,extendVectorClocks,joined,Option.bind_eq_bind,Option.bind_some] at whole
  obtain ⟨_,updated,same⟩ := bind_some whole
  obtain ⟨_,_,updated⟩ := bind_some updated
  cases updated
  cases same
  exact ⟨_,_,ran,⟨tid,valid',entries,by simp [length,extend_length]⟩,⟨kept,by simp [extend_length]⟩⟩

theorem release_ticked (lock : LockState) (valid : t.Valid) : ∃ t' lock', ftRelease cpp t lock = some (t',lock') ∧
    Ticked t lock.L.length t' ∧ Copied t.C lock.L.length lock'.L := by
  obtain ⟨V,copied,length,_⟩ := copyInto_spec cpp (extended_same t.C lock.L).symm
  obtain ⟨t',lock',ran,tid,valid',_,entries,kept⟩ := ftRelease_spec cpp lock valid.room
  have room : t.tid < (extendVectorClock t.C (max t.C.length lock.L.length)).length := Nat.lt_of_lt_of_le valid.room (extend_le _ _)
  have whole := ran
  simp only [ftRelease,extendVectorClocks,copied,Option.bind_eq_bind,Option.bind_some] at whole
  rw [updateEpoch_spec cpp (t := {t with C := _}) room,Option.bind_some,increment_spec cpp (t := ⟨t.tid,_,_⟩) room] at whole
  cases whole
  rw [← valid.epoch] at entries
  exact ⟨_,_,ran,⟨tid,valid',entries,by simp [extend_length]⟩,⟨kept,by simp [length,extend_length,Nat.max_comm]⟩⟩

theorem fork_moved (valid : t.Valid) (validU : u.Valid) : ∃ t' u', ftFork cpp t u = some (t',u') ∧
    Ticked t u.C.length t' ∧ Joined u t.C u' := by
  obtain ⟨V,joined,length,_⟩ := joinInto_spec cpp (extended_same t.C u.C).symm
  obtain ⟨t',u',ran,tid,tidU,valid',validU',_,_,ticked,entries⟩ := ftFork_spec cpp valid.room validU.room
  have room : t.tid < (extendVectorClock t.C (max t.C.length u.C.length)).length := Nat.lt_of_lt_of_le valid.room (extend_le _ _)
  have roomU : u.tid < V.length := Nat.lt_of_lt_of_le validU.room (length ▸ extend_le _ _)
  have whole := ran
  simp only [ftFork,extendVectorClocks,joined,Option.bind_eq_bind,Option.bind_some] at whole
  rw [updateEpoch_spec cpp (t := {u with C := V}) roomU,Option.bind_some,increment_spec cpp (t := {t with C := _}) room] at whole
  cases whole
  exact ⟨_,_,ran,⟨tid,valid',ticked,by simp [extend_length]⟩,⟨tidU,validU',entries,by simp [length,extend_length,Nat.max_comm]⟩⟩

theorem join_moved (valid : t.Valid) (validU : u.Valid) : ∃ t' u', ftJoin cpp t u = some (t',u') ∧
    Joined t u.C t' ∧ Ticked u t.C.length u' := by
  obtain ⟨V,joined,length,_⟩ := joinInto_spec cpp (extended_same t.C u.C)
  obtain ⟨t',u',ran,tid,tidU,valid',validU',_,_,entries,ticked⟩ := ftJoin_spec cpp valid.room validU.room
  have room : t.tid < V.length := Nat.lt_of_lt_of_le valid.room (length ▸ extend_le _ _)
  have roomU : u.tid < (extendVectorClock u.C (max t.C.length u.C.length)).length := Nat.lt_of_lt_of_le validU.room (extend_le _ _)
  have whole := ran
  simp only [ftJoin,extendVectorClocks,joined,Option.bind_eq_bind,Option.bind_some] at whole
  rw [updateEpoch_spec cpp (t := {t with C := V}) room,Option.bind_some,increment_spec cpp (t := {u with C := _}) roomU] at whole
  cases whole
  exact ⟨_,_,ran,⟨tid,valid',entries,by simp [length,extend_length]⟩,⟨tidU,validU',ticked,by simp [extend_length,Nat.max_comm]⟩⟩

theorem self_ticked (valid : t.Valid) : ∃ t', ftSelf cpp t = some t' ∧ Ticked t t.C.length t' := by
  obtain ⟨V,joined,length,_⟩ := joinInto_spec cpp (C := t.C) rfl
  obtain ⟨t',ran,tid,valid',_,entries⟩ := ftSelf_spec cpp valid.room
  have room : t.tid < V.length := by rw [length]; exact valid.room
  have whole := ran
  simp only [ftSelf,joined,Option.bind_eq_bind,Option.bind_some] at whole
  rw [updateEpoch_spec cpp (t := {t with C := V}) room,Option.bind_some,increment_spec cpp (t := ⟨t.tid,V,_⟩) room] at whole
  cases whole
  rw [← valid.epoch] at entries
  exact ⟨_,ran,tid,valid',entries,by simp [length]⟩

end Operations

inductive SyncStep (s : Runtime) : FtCall → Runtime → Prop
  | acquire {id : ThreadID} (found : s.TS.find id = some t) (held : s.LS.find m = some l) (moved : Joined t l.L t')
      (copied : Copied l.L t.C.length l'.L) : SyncStep s (.acquire id m) {s with TS := s.TS.insert id t', LS := s.LS.insert m l'}
  | release {id : ThreadID} (found : s.TS.find id = some t) (held : s.LS.find m = some l) (moved : Ticked t l.L.length t')
      (copied : Copied t.C l.L.length l'.L) : SyncStep s (.release id m) {s with TS := s.TS.insert id t', LS := s.LS.insert m l'}
  | fork {id id' : ThreadID} (different : id ≠ id') (found : s.TS.find id = some t) (foundU : s.TS.find id' = some u) (moved : Ticked t u.C.length t')
      (movedU : Joined u t.C u') (n : CInt) :
      SyncStep s (.fork id id') {s with TS := (s.TS.insert id t').insert id' u', isConcurrent := n}
  | join {id id' : ThreadID} (different : id ≠ id') (found : s.TS.find id = some t) (foundU : s.TS.find id' = some u) (moved : Joined t u.C t')
      (movedU : Ticked u t.C.length u') (n : CInt) :
      SyncStep s (.join id id') {s with TS := (s.TS.insert id t').insert id' u', isConcurrent := n}
  | forkSelf {id : ThreadID} (found : s.TS.find id = some t) (moved : Ticked t t.C.length t') (n : CInt) :
      SyncStep s (.fork id id) {s with TS := s.TS.insert id t', isConcurrent := n}
  | joinSelf {id : ThreadID} (found : s.TS.find id = some t) (moved : Ticked t t.C.length t') (n : CInt) :
      SyncStep s (.join id id) {s with TS := s.TS.insert id t', isConcurrent := n}

def Runtime.Valid (s : Runtime) : Prop := ∀ id t, s.TS.find id = some t → t.Valid

theorem sync_step (cpp : Cpp) {s : Runtime} (valid : s.Valid) {c : FtCall} (known : c.Known s) (synchronizes : c.Synchronizes) :
    ∃ s', c.run cpp s = some s' ∧ SyncStep s c s' := by
  cases c with
  | acquire id m =>
    obtain ⟨⟨t,found⟩,l,held⟩ := known
    obtain ⟨t',l',ran,moved,copied⟩ := acquire_joined cpp l (valid id t found)
    exact ⟨_,by simp [FtCall.run,found,held,ran],.acquire found held moved copied⟩
  | release id m =>
    obtain ⟨⟨t,found⟩,l,held⟩ := known
    obtain ⟨t',l',ran,moved,copied⟩ := release_ticked cpp l (valid id t found)
    exact ⟨_,by simp [FtCall.run,found,held,ran],.release found held moved copied⟩
  | fork id id' =>
    obtain ⟨⟨t,found⟩,u,foundU⟩ := known
    by_cases same : id = id'
    · subst same
      obtain ⟨t',ran,moved⟩ := self_ticked cpp (valid id t found)
      exact ⟨_,by simp [FtCall.run,callFork,found,ran],.forkSelf found moved (s.isConcurrent + 1)⟩
    · obtain ⟨t',u',ran,moved,movedU⟩ := fork_moved cpp (valid id t found) (valid id' u foundU)
      exact ⟨_,by simp [FtCall.run,callFork,found,foundU,same,ran],.fork same found foundU moved movedU (s.isConcurrent + 1)⟩
  | join id id' =>
    obtain ⟨⟨t,found⟩,u,foundU⟩ := known
    let n := if s.isConcurrent ≠ 0 then s.isConcurrent - 1 else s.isConcurrent
    by_cases same : id = id'
    · subst same
      obtain ⟨t',ran,moved⟩ := self_ticked cpp (valid id t found)
      exact ⟨_,by simp [FtCall.run,callJoin,n,found,ran],.joinSelf found moved n⟩
    · obtain ⟨t',u',ran,moved,movedU⟩ := join_moved cpp (valid id t found) (valid id' u foundU)
      exact ⟨_,by simp [FtCall.run,callJoin,n,found,foundU,same,ran],.join same found foundU moved movedU n⟩
  | read id a => cases synchronizes
  | write id a => cases synchronizes

def FtCall.event : FtCall → Event
  | .acquire t m => .acquire t m
  | .release t m => .release t m
  | .fork t u => .fork t u
  | .join t u => .join t u
  | .read t a => .access t .read a
  | .write t a => .access t .write a

theorem sync_silent {c : FtCall} (synchronizes : c.Synchronizes) : ¬ IsAccess c.event := by
  rintro ⟨i,kind,a,same⟩
  cases c with
  | read | write => cases synchronizes
  | _ => cases same

theorem sync_named {s : Runtime} {c : FtCall} (known : c.Known s) (synchronizes : c.Synchronizes) :
    ∀ id ∈ threadsOf c.event, s.Registered id := by
  cases c with
  | acquire i m => simpa [FtCall.event,threadsOf] using known.1
  | release i m => simpa [FtCall.event,threadsOf] using known.1
  | fork i j => simpa [FtCall.event,threadsOf,FtCall.Known] using known
  | join i j => simpa [FtCall.event,threadsOf,FtCall.Known] using known
  | read i a => cases synchronizes
  | write i a => cases synchronizes

theorem perform_run (cpp : Cpp) {s : Runtime} {c : FtCall} (known : c.Known s) (synchronizes : c.Synchronizes) :
    perform cpp s c.event = (c.run cpp s).map (·,false) := by
  cases c with
  | acquire t m =>
    obtain ⟨known,l,held⟩ := known
    have opened : getLockState cpp s m = some s := by simp [getLockState,held]
    simp only [FtCall.event,perform,tsanThreadLock,evaluate_lock cpp known m,opened]
    rfl
  | release t m =>
    obtain ⟨known,l,held⟩ := known
    have opened : getLockState cpp s m = some s := by simp [getLockState,held]
    simp only [FtCall.event,perform,tsanThreadUnlock,evaluate_lock cpp known m,opened]
    rfl
  | fork t u =>
    simp only [FtCall.event,perform,tsanThreadCreate,evaluate_registered cpp known.1 known.2]
    rfl
  | join t u =>
    simp only [FtCall.event,perform,tsanThreadJoin,evaluate_registered cpp known.1 known.2]
    rfl
  | read t a => cases synchronizes
  | write t a => cases synchronizes

end EmbedSanitizer
