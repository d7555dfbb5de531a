import EmbedSanitizer.VectorClocks
import EmbedSanitizer.TsanInterface
import EmbedSanitizer.LogicalClock

namespace EmbedSanitizer
open ThreadEvents LogicalClock

-- Where each thread has its slot; fixed while no thread is registered.
abbrev Slots := ThreadID → Option ℕ

def Slots.Apart (slot : Slots) : Prop := ∀ id id' k, slot id = some k → slot id' = some k → id = id'

structure Models (slot : Slots) (V : VectorClock) (v : ThreadID → ℕ) : Prop where
  lanes : Lanes V
  counts : ∀ id k, slot id = some k → count V k = v id

theorem meaning_nil (i : ℕ) : meaning [] i = lane i := rfl

theorem lanes_nil : Lanes [] := fun i => TID_lane i

theorem models_nil (slot : Slots) : Models slot [] fun _ => 0 := ⟨lanes_nil,fun _ k _ => CLOCK_lane k⟩

section Vectors
variable {slot : Slots} {C D V : VectorClock} {v w : ThreadID → ℕ}

theorem models_same (models : Models slot C v) (same : ∀ i, meaning V i = meaning C i) : Models slot V v where
  lanes := fun i => by rw [same]; exact models.lanes i
  counts := fun id k at_k => by unfold count; rw [same]; exact models.counts id k at_k

theorem models_max (left : Models slot C v) (right : Models slot D w)
    (joined : ∀ i, meaning V i = maxInt (meaning C i) (meaning D i)) : Models slot V fun x => max (v x) (w x) := by
  have lanes : ∀ i, TID (meaning C i) = TID (meaning D i) := fun i => (left.lanes i).trans (right.lanes i).symm
  refine ⟨fun i => ?_,fun id k at_k => ?_⟩
  · rw [joined,TID_maxInt (lanes i)]; exact left.lanes i
  · unfold count
    rw [joined,CLOCK_maxInt (lanes k)]
    exact congrArg₂ max (left.counts id k at_k) (right.counts id k at_k)

theorem models_succ (models : Models slot C v) (apart : slot.Apart) (at_k : slot t = some k)
    (room : CLOCK (meaning C k) ≠ 0xFFFFFF)
    (ticked : ∀ i, meaning V i = if i = k then meaning C k + 1 else meaning C i) :
    Models slot V (Function.update v t (v t + 1)) := by
  obtain ⟨sameLane,next⟩ := packed_succ room
  refine ⟨fun i => ?_,fun id j at_j => ?_⟩
  · rw [ticked]
    split
    · rename_i own; rw [sameLane,own]; exact models.lanes k
    · exact models.lanes i
  · unfold count
    rw [ticked]
    by_cases own : j = k
    · have same := apart id t k (own ▸ at_j) at_k
      subst same
      rw [if_pos own,next,Function.update_self]
      exact congrArg (· + 1) (models.counts id k at_k)
    · have other : id ≠ t := by rintro rfl; exact own (Option.some.inj (at_j.symm.trans at_k))
      rw [if_neg own,Function.update_of_ne other]
      exact models.counts id j at_j

end Vectors

structure ThreadState.Fits (slot : Slots) (t : ThreadState) (v : ThreadID → ℕ) : Prop where
  valid : t.Valid
  room : ∀ id k, slot id = some k → k < t.C.length
  models : Models slot t.C v

section Operations
variable {slot : Slots} {id : ThreadID} {t u : ThreadState} {v w : ThreadID → ℕ} (cpp : Cpp)

theorem ThreadState.Fits.epoch_clock (fits : t.Fits slot v) (at_t : slot id = some t.tid) : CLOCK t.epoch = v id := by
  rw [fits.valid.epoch]; exact fits.models.counts id t.tid at_t

theorem fits_grown {t' : ThreadState} {v' : ThreadID → ℕ} (fits : t.Fits slot v) (valid : t'.Valid)
    (grown : t.C.length ≤ t'.C.length) (models : Models slot t'.C v') : t'.Fits slot v' :=
  ⟨valid,fun id k at_k => Nat.lt_of_lt_of_le (fits.room id k at_k) grown,models⟩

theorem acquire_fits {lock : LockState} (fits : t.Fits slot v) (held : Models slot lock.L w) :
    ∃ t' lock', ftAcquire cpp t lock = some (t',lock') ∧ t'.tid = t.tid ∧
      t'.Fits slot (fun x => max (v x) (w x)) ∧ Models slot lock'.L w := by
  obtain ⟨t',lock',ran,tid,valid,grown,joined,kept⟩ := ftAcquire_spec cpp lock fits.valid.room
  exact ⟨t',lock',ran,tid,fits_grown fits valid grown (models_max fits.models held joined),models_same held kept⟩

theorem release_fits (lock : LockState) (fits : t.Fits slot v) (apart : slot.Apart) (at_t : slot id = some t.tid)
    (room : CLOCK t.epoch ≠ 0xFFFFFF) : ∃ t' lock', ftRelease cpp t lock = some (t',lock') ∧ t'.tid = t.tid ∧
      t'.Fits slot (Function.update v id (v id + 1)) ∧ Models slot lock'.L v := by
  obtain ⟨t',lock',ran,tid,valid,grown,ticked,copied⟩ := ftRelease_spec cpp lock fits.valid.room
  rw [fits.valid.epoch] at room
  exact ⟨t',lock',ran,tid,fits_grown fits valid grown (models_succ fits.models apart at_t room ticked),
    models_same fits.models copied⟩

theorem fork_fits (fits : t.Fits slot v) (fitsU : u.Fits slot w) (apart : slot.Apart) (at_t : slot id = some t.tid)
    (room : CLOCK t.epoch ≠ 0xFFFFFF) : ∃ t' u', ftFork cpp t u = some (t',u') ∧ t'.tid = t.tid ∧ u'.tid = u.tid ∧
      t'.Fits slot (Function.update v id (v id + 1)) ∧ u'.Fits slot (fun x => max (w x) (v x)) := by
  obtain ⟨t',u',ran,tid,tidU,valid,validU,grown,grownU,ticked,joined⟩ :=
    ftFork_spec cpp fits.valid.room fitsU.valid.room
  rw [fits.valid.epoch] at room ticked
  exact ⟨t',u',ran,tid,tidU,fits_grown fits valid grown (models_succ fits.models apart at_t room ticked),
    fits_grown fitsU validU grownU (models_max fitsU.models fits.models joined)⟩

theorem join_fits (fits : t.Fits slot v) (fitsU : u.Fits slot w) (apart : slot.Apart) (at_u : slot id = some u.tid)
    (room : CLOCK u.epoch ≠ 0xFFFFFF) : ∃ t' u', ftJoin cpp t u = some (t',u') ∧ t'.tid = t.tid ∧ u'.tid = u.tid ∧
      t'.Fits slot (fun x => max (v x) (w x)) ∧ u'.Fits slot (Function.update w id (w id + 1)) := by
  obtain ⟨t',u',ran,tid,tidU,valid,validU,grown,grownU,joined,ticked⟩ :=
    ftJoin_spec cpp fits.valid.room fitsU.valid.room
  rw [fitsU.valid.epoch] at room ticked
  exact ⟨t',u',ran,tid,tidU,fits_grown fits valid grown (models_max fits.models fitsU.models joined),
    fits_grown fitsU validU grownU (models_succ fitsU.models apart at_u room ticked)⟩

theorem self_fits (fits : t.Fits slot v) (apart : slot.Apart) (at_t : slot id = some t.tid)
    (room : CLOCK t.epoch ≠ 0xFFFFFF) : ∃ t', ftSelf cpp t = some t' ∧ t'.tid = t.tid ∧
      t'.Fits slot (Function.update v id (v id + 1)) := by
  obtain ⟨t',ran,tid,valid,grown,ticked⟩ := ftSelf_spec cpp fits.valid.room
  rw [fits.valid.epoch] at room
  exact ⟨t',ran,tid,fits_grown fits valid grown (models_succ fits.models apart at_t room ticked)⟩

end Operations

def Runtime.slot (s : Runtime) : Slots := fun id => (s.TS.find id).map (·.tid)

-- A mutex without a state stands for the empty clock.
def Runtime.lockClock (s : Runtime) (m : Address) : VectorClock := ((s.LS.find m).map (·.L)).getD []

def Runtime.Registered (s : Runtime) (id : ThreadID) : Prop := ∃ t, s.TS.find id = some t

def Runtime.Unspent (s : Runtime) : Prop := ∀ id t, s.TS.find id = some t → CLOCK t.epoch ≠ 0xFFFFFF

structure ClockSim (s : Runtime) (σ : Clocks ThreadID Address) : Prop where
  apart : s.slot.Apart
  threads : ∀ id t, s.TS.find id = some t → t.Fits s.slot (σ (.thread id))
  locks : ∀ m, Models s.slot (s.lockClock m) (σ (.lock m))

section States
variable {s : Runtime} {σ : Clocks ThreadID Address} {id : ThreadID} {t t' : ThreadState} {v : ThreadID → ℕ}

theorem slot_of (found : s.TS.find id = some t) : s.slot id = some t.tid := by simp [Runtime.slot,found]

theorem slot_insert (found : s.TS.find id = some t) (same : t'.tid = t.tid) :
    ({s with TS := s.TS.insert id t'} : Runtime).slot = s.slot := by
  funext id'
  by_cases own : id' = id
  · subst own; simp [Runtime.slot,found,same]
  · simp [Runtime.slot,own]

theorem clockSim_thread (sim : ClockSim s σ) (found : s.TS.find id = some t) (same : t'.tid = t.tid)
    (fits : t'.Fits s.slot v) : ClockSim {s with TS := s.TS.insert id t'} (put σ (.thread id) v) := by
  have slots := slot_insert found same
  refine ⟨slots ▸ sim.apart,?_,?_⟩
  · intro id' u at_u
    rw [slots]
    by_cases own : id' = id
    · subst own
      have equal : t' = u := by simpa using at_u
      subst equal
      have now : put σ (.thread id') v (.thread id') = v := by simp
      rw [now]; exact fits
    · have kept : put σ (.thread id) v (.thread id') = σ (.thread id') := by simp [own]
      rw [kept]; exact sim.threads id' u (by simpa [own] using at_u)
  · intro m
    have kept : put σ (.thread id) v (.lock m) = σ (.lock m) := by simp
    rw [slots,kept]; exact sim.locks m

theorem clockSim_lock {lock : LockState} (sim : ClockSim s σ) (models : Models s.slot lock.L v) :
    ClockSim {s with LS := s.LS.insert m lock} (put σ (.lock m) v) := by
  refine ⟨sim.apart,?_,?_⟩
  · intro id' u at_u
    have kept : put σ (.lock m) v (.thread id') = σ (.thread id') := by simp
    rw [kept]; exact sim.threads id' u at_u
  · intro m'
    by_cases own : m' = m
    · subst own
      have now : put σ (.lock m') v (.lock m') = v := by simp
      have held : ({s with LS := s.LS.insert m' lock} : Runtime).lockClock m' = lock.L := by simp [Runtime.lockClock]
      rw [now,held]; exact models
    · have kept : put σ (.lock m) v (.lock m') = σ (.lock m') := by simp [own]
      have held : ({s with LS := s.LS.insert m lock} : Runtime).lockClock m' = s.lockClock m' := by
        simp [Runtime.lockClock,own]
      rw [kept,held]; exact sim.locks m'

end States

structure Frame (s s' : Runtime) : Prop where
  slots : s'.slot = s.slot
  Vstates : s'.Vstates = s.Vstates
  NumThreads : s'.NumThreads = s.NumThreads

section Steps
variable (cpp : Cpp) {s : Runtime} {σ : Clocks ThreadID Address} {t u : ThreadID}

theorem getState_registered (known : s.Registered t) : getState cpp s t = some s := by
  obtain ⟨st,found⟩ := known; simp [getState,found]

theorem evaluate_registered (known : s.Registered t) (knownU : s.Registered u) :
    cpp.evaluate (getState cpp · t) (getState cpp · u) s = some s := by
  unfold Cpp.evaluate
  split <;> simp [getState_registered cpp known,getState_registered cpp knownU]

theorem getLockState_spec (s : Runtime) (m : Address) : ∃ l LS, getLockState cpp s m = some {s with LS} ∧
    LS.find m = some l ∧ (∀ i, meaning l.L i = meaning (s.lockClock m) i) ∧ ∀ m', m' ≠ m → LS.find m' = s.LS.find m' := by
  unfold getLockState
  cases found : s.LS.find m with
  | some l => exact ⟨l,s.LS,rfl,found,by simp [Runtime.lockClock,found],fun _ _ => rfl⟩
  | none =>
    obtain ⟨L,made,_,entries⟩ := newVectorClock_spec cpp [] s.NumThreads
    refine ⟨⟨L⟩,s.LS.insert m ⟨L⟩,by simp [made],by simp,?_,fun m' other => by simp [other]⟩
    intro i; rw [entries]; simp [Runtime.lockClock,found,meaning_nil]

theorem evaluate_lock (known : s.Registered t) (m : Address) :
    cpp.evaluate (getState cpp · t) (getLockState cpp · m) s = getLockState cpp s m := by
  obtain ⟨l,LS,ran,_⟩ := getLockState_spec cpp s m
  have still : ({s with LS} : Runtime).Registered t := known
  unfold Cpp.evaluate
  split <;> simp [ran,getState_registered cpp known,getState_registered cpp still]

theorem clockSim_getLockState (sim : ClockSim s σ) {LS : UnorderedMap Address LockState} (found : LS.find m = some l)
    (same : ∀ i, meaning l.L i = meaning (s.lockClock m) i) (others : ∀ m', m' ≠ m → LS.find m' = s.LS.find m') :
    ClockSim {s with LS} σ := by
  refine ⟨sim.apart,sim.threads,fun m' => ?_⟩
  by_cases own : m' = m
  · subst own
    have held : ({s with LS} : Runtime).lockClock m' = l.L := by simp [Runtime.lockClock,found]
    rw [held]; exact models_same (sim.locks m') same
  · have held : ({s with LS} : Runtime).lockClock m' = s.lockClock m' := by simp [Runtime.lockClock,others m' own]
    rw [held]; exact sim.locks m'

theorem callFork_sim (sim : ClockSim s σ) (unspent : s.Unspent) (known : s.Registered t) (knownU : s.Registered u) :
    ∃ s', callFork cpp s t u = some s' ∧ ClockSim s' (step σ (.fork t u : Event)) ∧ Frame s s' ∧
      s'.isConcurrent = s.isConcurrent + 1 := by
  obtain ⟨st,found⟩ := known
  obtain ⟨su,foundU⟩ := knownU
  have counted : ClockSim {s with isConcurrent := s.isConcurrent + 1} σ := ⟨sim.apart,sim.threads,sim.locks⟩
  have fits := sim.threads t st found
  by_cases own : t = u
  · subst own
    obtain ⟨st',ran,tid,fits'⟩ := self_fits cpp fits sim.apart (slot_of found) (unspent t st found)
    refine ⟨{s with TS := s.TS.insert t st', isConcurrent := s.isConcurrent + 1},by simp [callFork,found,ran],?_,⟨slot_insert found tid,rfl,rfl⟩,rfl⟩
    rw [fork_self]
    exact clockSim_thread counted found tid fits'
  · obtain ⟨st',su',ran,tid,tidU,fits',fitsU'⟩ := fork_fits cpp fits (sim.threads u su foundU) sim.apart
      (slot_of found) (unspent t st found)
    have other : (s.TS.insert t st').find u = some su := by simp [Ne.symm own,foundU]
    have slots := slot_insert (s := s) found tid
    refine ⟨{s with TS := (s.TS.insert t st').insert u su', isConcurrent := s.isConcurrent + 1},
      by simp [callFork,found,foundU,own,ran],?_,⟨?_,rfl,rfl⟩,rfl⟩
    · rw [fork_eq_put σ own]
      exact clockSim_thread (clockSim_thread counted found tid fits') other tidU (slots ▸ fitsU')
    · exact (slot_insert (s := {s with TS := s.TS.insert t st'}) other tidU).trans slots

theorem callJoin_sim (sim : ClockSim s σ) (unspent : s.Unspent) (known : s.Registered t) (knownU : s.Registered u) :
    ∃ s', callJoin cpp s t u = some s' ∧ ClockSim s' (step σ (.join t u : Event)) ∧ Frame s s' ∧
      s'.isConcurrent = if s.isConcurrent ≠ 0 then s.isConcurrent - 1 else s.isConcurrent := by
  obtain ⟨st,found⟩ := known
  obtain ⟨su,foundU⟩ := knownU
  let n := if s.isConcurrent ≠ 0 then s.isConcurrent - 1 else s.isConcurrent
  have counted : ClockSim {s with isConcurrent := n} σ := ⟨sim.apart,sim.threads,sim.locks⟩
  have fits := sim.threads t st found
  by_cases own : t = u
  · subst own
    obtain ⟨st',ran,tid,fits'⟩ := self_fits cpp fits sim.apart (slot_of found) (unspent t st found)
    refine ⟨{s with TS := s.TS.insert t st', isConcurrent := n},by simp [callJoin,n,found,ran],?_,⟨slot_insert found tid,rfl,rfl⟩,rfl⟩
    rw [join_self,fork_self]
    exact clockSim_thread counted found tid fits'
  · obtain ⟨st',su',ran,tid,tidU,fits',fitsU'⟩ := join_fits cpp fits (sim.threads u su foundU) sim.apart
      (slot_of foundU) (unspent u su foundU)
    have other : (s.TS.insert t st').find u = some su := by simp [Ne.symm own,foundU]
    have slots := slot_insert (s := s) found tid
    refine ⟨{s with TS := (s.TS.insert t st').insert u su', isConcurrent := n},
      by simp [callJoin,n,found,foundU,own,ran],?_,⟨?_,rfl,rfl⟩,rfl⟩
    · rw [join_eq_put σ own]
      exact clockSim_thread (clockSim_thread counted found tid fits') other tidU (slots ▸ fitsU')
    · exact (slot_insert (s := {s with TS := s.TS.insert t st'}) other tidU).trans slots

theorem lock_sim (sim : ClockSim s σ) (known : s.Registered t) (m : Address) :
    ∃ s', tsanThreadLock cpp s t m = some s' ∧ ClockSim s' (step σ (.acquire t m : Event)) ∧ Frame s s' ∧
      s'.isConcurrent = s.isConcurrent := by
  obtain ⟨l,LS,opened,foundL,same,others⟩ := getLockState_spec cpp s m
  have simL := clockSim_getLockState sim foundL same others
  have evaluated := evaluate_lock cpp known m
  obtain ⟨st,found⟩ := known
  have held := models_same (sim.locks m) same
  obtain ⟨st',l',ran,tid,fits',held'⟩ := acquire_fits cpp (sim.threads t st found) held
  have slots := slot_insert (s := s) found tid
  refine ⟨{s with TS := s.TS.insert t st', LS := LS.insert m l'},by simp [tsanThreadLock,evaluated,opened,found,foundL,ran],?_,⟨slots,rfl,rfl⟩,rfl⟩
  rw [acquire_eq_put]
  exact clockSim_lock (clockSim_thread simL found tid fits') (slots ▸ held')

theorem unlock_sim (sim : ClockSim s σ) (unspent : s.Unspent) (known : s.Registered t) (m : Address) :
    ∃ s', tsanThreadUnlock cpp s t m = some s' ∧ ClockSim s' (step σ (.release t m : Event)) ∧ Frame s s' ∧
      s'.isConcurrent = s.isConcurrent := by
  obtain ⟨l,LS,opened,foundL,same,others⟩ := getLockState_spec cpp s m
  have simL := clockSim_getLockState sim foundL same others
  have evaluated := evaluate_lock cpp known m
  obtain ⟨st,found⟩ := known
  obtain ⟨st',l',ran,tid,fits',held'⟩ := release_fits cpp l (sim.threads t st found) sim.apart (slot_of found)
    (unspent t st found)
  have slots := slot_insert (s := s) found tid
  refine ⟨{s with TS := s.TS.insert t st', LS := LS.insert m l'},by simp [tsanThreadUnlock,evaluated,opened,found,foundL,ran],?_,⟨slots,rfl,rfl⟩,rfl⟩
  rw [release_eq_put]
  exact clockSim_lock (clockSim_thread simL found tid fits') (slots ▸ held')

end Steps

def threadsOf : Event → List ThreadID
  | .fork t u | .join t u => [t,u]
  | .acquire t _ | .release t _ | .access t _ _ | .skip t => [t]

def IsAccess (e : Event) : Prop := ∃ t kind a, e = .access t kind a

theorem clock_step (cpp : Cpp) {s : Runtime} {σ : Clocks ThreadID Address} (sim : ClockSim s σ) (unspent : s.Unspent)
    {e : Event} (named : ∀ t ∈ threadsOf e, s.Registered t) (silent : ¬ IsAccess e) :
    ∃ s', perform cpp s e = some (s',false) ∧ ClockSim s' (step σ e) ∧ Frame s s' ∧
      s'.isConcurrent = concurrentAfter s.isConcurrent e := by
  cases e with
  | fork t u =>
    have known : s.Registered t := named t (by simp [threadsOf])
    have knownU : s.Registered u := named u (by simp [threadsOf])
    obtain ⟨s',ran,sim',frame,counter⟩ := callFork_sim cpp sim unspent known knownU
    exact ⟨s',by simp [perform,tsanThreadCreate,evaluate_registered cpp known knownU,ran],sim',frame,counter⟩
  | join t u =>
    have known : s.Registered t := named t (by simp [threadsOf])
    have knownU : s.Registered u := named u (by simp [threadsOf])
    obtain ⟨s',ran,sim',frame,counter⟩ := callJoin_sim cpp sim unspent known knownU
    exact ⟨s',by simp [perform,tsanThreadJoin,evaluate_registered cpp known knownU,ran],sim',frame,counter⟩
  | acquire t m =>
    obtain ⟨s',ran,sim',frame,counter⟩ := lock_sim cpp sim (named t (by simp [threadsOf])) m
    exact ⟨s',by simp [perform,ran],sim',frame,counter⟩
  | release t m =>
    obtain ⟨s',ran,sim',frame,counter⟩ := unlock_sim cpp sim unspent (named t (by simp [threadsOf])) m
    exact ⟨s',by simp [perform,ran],sim',frame,counter⟩
  | access t kind a => exact absurd ⟨t,kind,a,rfl⟩ silent
  | skip t => exact ⟨s,rfl,sim,⟨rfl,rfl,rfl⟩,rfl⟩

end EmbedSanitizer
