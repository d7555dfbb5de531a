import EmbedSanitizer.EpochPacking
import EmbedSanitizer.AccessSteps
import EmbedSanitizer.EpochProgress

namespace EmbedSanitizer
open ThreadEvents LogicalClock

def Runtime.Passed (s : Runtime) (e : CInt) : Prop := ∃ id t, s.TS.find id = some t ∧ TID e = t.tid ∧ CLOCK e ≤ CLOCK t.epoch

structure Runtime.Accounts (s : Runtime) (x : VarState) : Prop where
  write : s.Passed x.W
  read : x.R ≠ READ_SHARED → s.Passed x.R
  lanes : Lanes x.Rvc
  readers : ∀ id t, s.TS.find id = some t → count x.Rvc t.tid ≤ CLOCK t.epoch

-- Each thread is ahead of what any other and any mutex knows of it.
structure Runtime.Owned (s : Runtime) : Prop where
  valid : s.Valid
  entries : ∀ id t, s.TS.find id = some t → InLanes t.C
  locks : ∀ m l, s.LS.find m = some l → InLanes l.L
  foreign : ∀ id t id' u, s.TS.find id = some t → s.TS.find id' = some u → id ≠ id' → count u.C t.tid < CLOCK t.epoch
  held : ∀ id t m l, s.TS.find id = some t → s.LS.find m = some l → count l.L t.tid < CLOCK t.epoch
  vars : ∀ a x, s.Vstates.find a = some x → s.Accounts x

structure Runtime.Roomy (s : Runtime) : Prop where
  threads : ∀ id t id' u, s.TS.find id = some t → s.TS.find id' = some u → t.tid < u.C.length
  readers : ∀ id t a x, s.TS.find id = some t → s.Vstates.find a = some x → x.R = READ_SHARED ∨ x.Rvc.length ≠ 0 → t.tid < x.Rvc.length
  created : ∀ id t, s.TS.find id = some t → t.tid < s.NumThreads
  clocks : ∀ id t, s.TS.find id = some t → CLOCK t.epoch < 0xFFFFFF

section States
variable {s s' : Runtime} {id : ThreadID} {t : ThreadState}

theorem Runtime.Owned.count_own (owned : s.Owned) (found : s.TS.find id = some t) : count t.C t.tid = CLOCK t.epoch := by
  rw [(owned.valid id t found).epoch]; rfl

theorem Runtime.Owned.tid_epoch (owned : s.Owned) (found : s.TS.find id = some t) : TID t.epoch = t.tid := by
  have valid := owned.valid id t found
  rw [valid.epoch]
  exact owned.entries id t found t.tid _ (meaning_in valid.room)

theorem Runtime.Owned.apart (owned : s.Owned) : s.slot.Apart := by
  intro id id' k at_id at_id'
  obtain ⟨t,found,rfl⟩ := slot_some.mp at_id
  obtain ⟨u,foundU,same⟩ := slot_some.mp at_id'
  by_contra different
  have less := owned.foreign id t id' u found foundU different
  have more := owned.foreign id' u id t foundU found (Ne.symm different)
  have own := owned.count_own found
  have ownU := owned.count_own foundU
  rw [same] at more ownU
  omega

theorem Runtime.Owned.passed_epoch (owned : s.Owned) (found : s.TS.find id = some t) : s.Passed t.epoch :=
  ⟨id,t,found,owned.tid_epoch found,Nat.le_refl _⟩

-- The vector that a channel has at the runtime, and the clocks that all of them hold.
def Runtime.vector (s : Runtime) : Channel ThreadID Address → VectorClock
  | .thread id => ((s.TS.find id).map (·.C)).getD []
  | .lock m => s.lockClock m

def Runtime.clocks (s : Runtime) : Clocks ThreadID Address := fun c id =>
  match s.slot id with
  | some k => count (s.vector c) k
  | none => if c = .thread id then 1 else 0

theorem clocks_at (found : s.TS.find id = some t) (c : Channel ThreadID Address) : s.clocks c id = count (s.vector c) t.tid := by
  simp [Runtime.clocks,slot_of found]

theorem vector_thread (found : s.TS.find id = some t) : s.vector (.thread id) = t.C := by simp [Runtime.vector,found]

theorem clocks_sim (owned : s.Owned) (roomy : s.Roomy) : ClockSim s s.clocks where
  apart := owned.apart
  threads := by
    intro id t found
    refine ⟨owned.valid id t found,?_,(inLanes_iff.mp (owned.entries id t found)).1,?_⟩
    · intro id' k at_k
      obtain ⟨u,foundU,rfl⟩ := slot_some.mp at_k
      exact roomy.threads id' u id t foundU found
    · intro id' k at_k
      obtain ⟨u,foundU,rfl⟩ := slot_some.mp at_k
      rw [clocks_at foundU,vector_thread found]
  locks := by
    intro m
    refine ⟨?_,?_⟩
    · cases held : s.LS.find m with
      | none => simpa [Runtime.lockClock,held] using lanes_nil
      | some l => simpa [Runtime.lockClock,held] using (inLanes_iff.mp (owned.locks m l held)).1
    · intro id' k at_k
      obtain ⟨u,foundU,rfl⟩ := slot_some.mp at_k
      exact (clocks_at foundU (.lock m)).symm

theorem clocks_owned (owned : s.Owned) (live : ∀ id t, s.TS.find id = some t → 0 < CLOCK t.epoch) : LogicalClock.Owned s.clocks := by
  intro c id other
  cases found : s.TS.find id with
  | none => simp [Runtime.clocks,Runtime.slot,found,other]
  | some t =>
    rw [clocks_at found,clocks_at found,vector_thread found,owned.count_own found]
    have absent : ∀ k, count [] k < CLOCK t.epoch := by
      intro k
      rw [count,meaning_nil,CLOCK_lane]
      exact live id t found
    cases c with
    | thread id' =>
      cases foundU : s.TS.find id' with
      | none => simpa [Runtime.vector,foundU] using absent t.tid
      | some u =>
        rw [vector_thread foundU]
        exact owned.foreign id t id' u found foundU (by rintro rfl; exact other rfl)
    | lock m =>
      cases held : s.LS.find m with
      | none => simpa [Runtime.vector,Runtime.lockClock,held] using absent t.tid
      | some l =>
        have vector : s.vector (.lock m) = l.L := by simp [Runtime.vector,Runtime.lockClock,held]
        rw [vector]
        exact owned.held id t m l found held

theorem owned_of_sim {σ : Clocks ThreadID Address} (sim : ClockSim s σ) (owned : LogicalClock.Owned σ) :
    (∀ id t id' u, s.TS.find id = some t → s.TS.find id' = some u → id ≠ id' → count u.C t.tid < CLOCK t.epoch) ∧
    ∀ id t m l, s.TS.find id = some t → s.LS.find m = some l → count l.L t.tid < CLOCK t.epoch := by
  constructor
  · intro id t id' u found foundU different
    have at_t := slot_of found
    rw [(sim.threads id t found).epoch_clock at_t,(sim.threads id' u foundU).models.counts id t.tid at_t]
    exact owned (.thread id') id (by simpa using Ne.symm different)
  · intro id t m l found held
    have at_t := slot_of found
    have vector : s.lockClock m = l.L := by simp [Runtime.lockClock,held]
    have counts := (sim.locks m).counts id t.tid at_t
    rw [vector] at counts
    rw [(sim.threads id t found).epoch_clock at_t,counts]
    exact owned (.lock m) id (by simp)

theorem accounts_grown {x : VarState} (slots : s'.slot = s.slot)
    (grown : ∀ id t t', s.TS.find id = some t → s'.TS.find id = some t' → CLOCK t.epoch ≤ CLOCK t'.epoch) (accounts : s.Accounts x) :
    s'.Accounts x := by
  have passed : ∀ e, s.Passed e → s'.Passed e := by
    rintro e ⟨id,t,found,tid,reached⟩
    have at_t : s'.slot id = some t.tid := by rw [slots]; exact slot_of found
    obtain ⟨t',found',same⟩ := slot_some.mp at_t
    exact ⟨id,t',found',tid.trans same.symm,Nat.le_trans reached (grown id t t' found found')⟩
  refine ⟨passed _ accounts.write,fun unshared => passed _ (accounts.read unshared),accounts.lanes,fun id t' found' => ?_⟩
  have at_t : s.slot id = some t'.tid := by rw [← slots]; exact slot_of found'
  obtain ⟨t,found,same⟩ := slot_some.mp at_t
  rw [← same]
  exact Nat.le_trans (accounts.readers id t found) (grown id t t' found found')

end States

theorem joined_epoch_kept {t t' : ThreadState} {D : VectorClock} (moved : Joined t D t') (valid : t.Valid) (lanes : InLanes t.C) (lanesD : InLanes D)
    (behind : count D t.tid < CLOCK t.epoch) : t'.epoch = t.epoch := by
  have same : TID (meaning t.C t.tid) = TID (meaning D t.tid) :=
    ((inLanes_iff.mp lanes).1 t.tid).trans ((inLanes_iff.mp lanesD).1 t.tid).symm
  have order : ¬ CLOCK (meaning t.C t.tid) < CLOCK (meaning D t.tid) := by
    rw [← valid.epoch]
    exact Nat.not_lt_of_le (Nat.le_of_lt behind)
  rw [moved.valid.epoch,moved.tid,moved.entries,maxInt,if_neg (mt (slt_lane same).mp order),← valid.epoch]

def FtCall.Distinct : FtCall → Prop
  | .fork t u | .join t u => t ≠ u
  | _ => True

section Calls
variable {cpp : Cpp} {s s' : Runtime} {c : FtCall}

theorem Runtime.Owned.live (owned : s.Owned) (known : c.Known s) (synchronizes : c.Synchronizes) (distinct : c.Distinct) :
    ∀ id t, s.TS.find id = some t → 0 < CLOCK t.epoch := by
  intro id t found
  have others : ∀ i j, i ≠ j → s.Registered i → s.Registered j → 0 < CLOCK t.epoch := by
    rintro i j different ⟨u,foundU⟩ ⟨v,foundV⟩
    by_cases own : id = i
    · subst own
      exact Nat.zero_lt_of_lt (owned.foreign id t j v found foundV different)
    · exact Nat.zero_lt_of_lt (owned.foreign id t i u found foundU own)
  cases c with
  | acquire i m =>
    obtain ⟨_,l,held⟩ := known
    exact Nat.zero_lt_of_lt (owned.held id t m l found held)
  | release i m =>
    obtain ⟨_,l,held⟩ := known
    exact Nat.zero_lt_of_lt (owned.held id t m l found held)
  | fork i j => exact others i j distinct known.1 known.2
  | join i j => exact others i j distinct known.1 known.2
  | read i a => cases synchronizes
  | write i a => cases synchronizes

theorem sync_kept_epoch {id : ThreadID} {t : ThreadState} (owned : s.Owned) (step : SyncStep s c s') (found : s.TS.find id = some t)
    (quiet : c.ticks ≠ some id) : ∃ t', s'.TS.find id = some t' ∧ t'.epoch = t.epoch := by
  have joined : ∀ {i : ThreadID} {u u' : ThreadState} {D : VectorClock} {TS : UnorderedMap ThreadID ThreadState},
      s.TS.find i = some u → InLanes D → count D u.tid < CLOCK u.epoch → Joined u D u' → TS.find id = some t ∨ id = i →
      ∃ t', (TS.insert i u').find id = some t' ∧ t'.epoch = t.epoch := by
    intro i u u' D TS foundU lanesD behind moved place
    by_cases own : id = i
    · subst own
      cases found.symm.trans foundU
      exact ⟨u',by simp,joined_epoch_kept moved (owned.valid id t found) (owned.entries id t found) lanesD behind⟩
    · exact ⟨t,by simp [own,place.resolve_right own],rfl⟩
  have other : ∀ {i : ThreadID} {u : ThreadState}, some i ≠ some id → (s.TS.insert i u).find id = some t := by
    intro i u different
    simp [show id ≠ i by rintro rfl; exact different rfl,found]
  cases step with
  | acquire foundT held moved _ =>
    exact joined foundT (owned.locks _ _ held) (owned.held _ _ _ _ foundT held) moved (.inl found)
  | release _ _ _ _ => exact ⟨t,other quiet,rfl⟩
  | fork different foundT foundU _ moved _ =>
    exact joined foundU (owned.entries _ _ foundT) (owned.foreign _ _ _ _ foundU foundT (Ne.symm different)) moved (.inl (other quiet))
  | @join u v u' v' i j different foundT foundU moved _ _ =>
    obtain ⟨t',at_id,epoch⟩ := joined foundT (owned.entries _ _ foundU) (owned.foreign _ _ _ _ foundT foundU different) moved (.inl found)
    have apart : id ≠ j := by rintro rfl; exact quiet rfl
    exact ⟨t',by simpa [apart] using at_id,epoch⟩
  | forkSelf _ _ _ => exact ⟨t,other quiet,rfl⟩
  | joinSelf _ _ _ => exact ⟨t,other quiet,rfl⟩

theorem sync_owned (owned : s.Owned) (roomy : s.Roomy) (known : c.Known s) (synchronizes : c.Synchronizes) (distinct : c.Distinct) :
    ∃ s', c.run cpp s = some s' ∧ s'.Owned ∧ SyncStep s c s' := by
  have unspent : s.Unspent := fun id t found => Nat.ne_of_lt (roomy.clocks id t found)
  have named := sync_named known synchronizes
  have silent := sync_silent synchronizes
  have sim := clocks_sim owned roomy
  have ahead := clocks_owned owned (owned.live known synchronizes distinct)
  obtain ⟨s',ran,step⟩ := sync_step cpp owned.valid known synchronizes
  obtain ⟨s₁,performed,sim',frame,_⟩ := clock_step cpp sim unspent named silent
  rw [perform_run cpp known synchronizes,ran] at performed
  cases performed
  obtain ⟨entries,locks⟩ := sync_lanes owned.valid owned.entries owned.locks step fun id t _ found => unspent id t found
  obtain ⟨foreign,held⟩ := owned_of_sim sim' (owned_step ahead c.event)
  refine ⟨s',ran,⟨sync_valid owned.valid step,entries,locks,foreign,held,fun a x found => ?_⟩,step⟩
  rw [frame.Vstates] at found
  refine accounts_grown frame.slots (fun id t t' found found' => ?_) (owned.vars a x found)
  rw [(sim.threads id t found).epoch_clock (slot_of found),(sim'.threads id t' found').epoch_clock (slot_of found')]
  exact thread_step_le s.clocks c.event id id

end Calls

section Accesses
variable {s : Runtime} {id : ThreadID} {t : ThreadState} {x x' : VarState}

theorem passed_room (roomy : s.Roomy) (found : s.TS.find id = some t) (passed : s.Passed e) : TID e < t.C.length := by
  obtain ⟨id',u,foundU,tid,_⟩ := passed
  rw [tid]
  exact roomy.threads id' u id t foundU found

theorem read_room (roomy : s.Roomy) (accounts : s.Accounts x) (found : s.TS.find id = some t) (foundX : s.Vstates.find a = some x) :
    ReadRoom s.NumThreads x t where
  write := passed_room roomy found accounts.write
  read := fun unshared => passed_room roomy found (accounts.read unshared)
  shared := fun _ shared => roomy.readers id t a x found foundX (.inl shared)
  share := by
    intro _ unseen
    obtain ⟨id',u,foundU,tid,_⟩ := accounts.read unseen.1
    have inside : ∀ i v, s.TS.find i = some v → v.tid < x.slots s.NumThreads := by
      intro i v foundV
      unfold VarState.slots
      split
      · exact roomy.created i v foundV
      · rename_i allocated
        exact roomy.readers i v a x foundV foundX (.inr allocated)
    exact ⟨inside id t found,tid ▸ inside id' u foundU⟩

theorem write_room (roomy : s.Roomy) (accounts : s.Accounts x) (found : s.TS.find id = some t) : WriteRoom x t where
  write := passed_room roomy found accounts.write
  read := fun unshared => passed_room roomy found (accounts.read unshared)

theorem readers_store {V U : VectorClock} (owned : s.Owned) (lanes : Lanes V) (readers : ∀ id t, s.TS.find id = some t → count V t.tid ≤ CLOCK t.epoch)
    (passed : s.Passed e) (stored : ∀ i, meaning U i = if i = TID e then e else meaning V i) :
    Lanes U ∧ ∀ id t, s.TS.find id = some t → count U t.tid ≤ CLOCK t.epoch := by
  refine ⟨lanes_store lanes stored (Nat.mod_eq_of_lt (TID_lt e)).symm,fun id t found => ?_⟩
  unfold count
  rw [stored]
  split
  · rename_i own
    obtain ⟨id',u,foundU,tid,reached⟩ := passed
    have same : id = id' := owned.apart id id' t.tid (slot_of found) (by rw [slot_of foundU,own,tid])
    subst same
    cases found.symm.trans foundU
    exact reached
  · exact readers id t found

theorem read_accounts (owned : s.Owned) (accounts : s.Accounts x) (found : s.TS.find id = some t) (step : ReadStep n x t x') :
    s.Accounts x' := by
  have passed := owned.passed_epoch found
  have tid := owned.tid_epoch found
  cases step with
  | racy _ => exact accounts
  | same _ => exact accounts
  | shared shared room =>
    obtain ⟨lanes,readers⟩ := readers_store owned accounts.lanes accounts.readers passed (fun i => by rw [tid]; exact meaning_set room t.epoch i)
    exact ⟨accounts.write,accounts.read,lanes,readers⟩
  | exclusive unshared seen => exact ⟨accounts.write,fun _ => passed,accounts.lanes,accounts.readers⟩
  | @share V unseen length entries room earlier =>
    have lanesV : Lanes V := lanes_same accounts.lanes entries
    have readersV : ∀ id t, s.TS.find id = some t → count V t.tid ≤ CLOCK t.epoch := by
      intro id t found
      unfold count
      rw [entries]
      exact accounts.readers id t found
    obtain ⟨lanesR,readersR⟩ := readers_store owned lanesV readersV (accounts.read unseen.1) (meaning_set earlier x.R)
    have inside : t.tid < (V.set (TID x.R) x.R).length := by simpa using room
    obtain ⟨lanes,readers⟩ := readers_store owned lanesR readersR passed (fun i => by rw [tid]; exact meaning_set inside t.epoch i)
    exact ⟨accounts.write,fun unshared => absurd rfl unshared,lanes,readers⟩

theorem write_accounts (owned : s.Owned) (accounts : s.Accounts x) (found : s.TS.find id = some t) (step : WriteStep x t x') :
    s.Accounts x' := by
  have passed := owned.passed_epoch found
  cases step with
  | racy _ => exact accounts
  | same _ => exact accounts
  | exclusive unshared => exact ⟨passed,accounts.read,accounts.lanes,accounts.readers⟩
  | shared shared =>
    refine ⟨passed,fun _ => ⟨id,t,found,?_,?_⟩,accounts.lanes,accounts.readers⟩
    · rw [TID_lane,Nat.mod_eq_of_lt (TID_lt _)]
      exact owned.tid_epoch found
    · rw [CLOCK_lane]
      exact Nat.zero_le _

theorem owned_store (owned : s.Owned) (accounts : s.Accounts x) (a : Address) (reads writes : CInt) :
    ({s with Vstates := s.Vstates.insert a x, reads, writes} : Runtime).Owned :=
  ⟨owned.valid,owned.entries,owned.locks,owned.foreign,owned.held,
    UnorderedMap.insert_all (fun a x found => ⟨(owned.vars a x found).1,(owned.vars a x found).2,(owned.vars a x found).3,(owned.vars a x found).4⟩)
      ⟨accounts.1,accounts.2,accounts.3,accounts.4⟩ a⟩

theorem own_read_behind (owned : s.Owned) (accounts : s.Accounts x) (found : s.TS.find id = some t) : ¬ ReaderAhead x t t.tid := by
  rintro ⟨_,ahead⟩
  have same : TID (meaning t.C t.tid) = TID (meaning x.Rvc t.tid) :=
    ((inLanes_iff.mp (owned.entries id t found)).1 t.tid).trans (accounts.lanes t.tid).symm
  have more := (slt_lane same).mp ahead
  have behind := accounts.readers id t found
  rw [← owned.count_own found] at behind
  exact Nat.not_lt_of_le behind more

end Accesses

theorem Runtime.Registry.owned {s : Runtime} (registry : s.Registry) (few : ∀ id t, s.TS.find id = some t → t.C.length ≤ 256)
    (unopened : ∀ a, s.Vstates.find a = none) : s.Owned := by
  have packed := registry.packed_iff.mpr few
  obtain ⟨foreign,held⟩ := owned_of_sim registry.sim owned_start
  refine ⟨registry.upright.valid,packed.entries,packed.locks,foreign,held,fun a x found => ?_⟩
  rw [unopened a] at found
  cases found

-- Each operation keeps the clocks owned. No epoch changes but by an increment, and
-- no write is reported for a read of the writing thread.
theorem ownership_kept (cpp : Cpp) {s : Runtime} (owned : s.Owned) (roomy : s.Roomy) {c : FtCall} (known : c.Known s)
    (distinct : c.Distinct) :
    (∃ s', c.run cpp s = some s' ∧ s'.Owned ∧
      ∀ id t, s.TS.find id = some t → c.ticks ≠ some id → ∃ t', s'.TS.find id = some t' ∧ t'.epoch = t.epoch) ∧
    ∀ id t a x, s.TS.find id = some t → s.Vstates.find a = some x → ¬ ReaderAhead x t t.tid ∧
      ∃ x' verdict, ftWrite cpp x t = some (x',verdict) ∧ (verdict = true ↔ WriteRaces x t) := by
  constructor
  · have synchronized : c.Synchronizes → ∃ s', c.run cpp s = some s' ∧ s'.Owned ∧
        ∀ id t, s.TS.find id = some t → c.ticks ≠ some id → ∃ t', s'.TS.find id = some t' ∧ t'.epoch = t.epoch := by
      intro synchronizes
      obtain ⟨s',ran,owned',step⟩ := sync_owned owned roomy known synchronizes distinct
      exact ⟨s',ran,owned',fun id t found quiet => sync_kept_epoch owned step found quiet⟩
    cases c with
    | read i a =>
      obtain ⟨⟨t,found⟩,x,foundX⟩ := known
      have accounts := owned.vars a x foundX
      obtain ⟨x',b,ran,step,_⟩ := read_step cpp (read_room roomy accounts found foundX)
      refine ⟨{s with Vstates := s.Vstates.insert a x', reads := s.reads + 1},by simp [FtCall.run,found,foundX,ran],?_,
        fun id t found _ => ⟨t,found,rfl⟩⟩
      exact owned_store owned (read_accounts owned accounts found step) a _ _
    | write i a =>
      obtain ⟨⟨t,found⟩,x,foundX⟩ := known
      have accounts := owned.vars a x foundX
      obtain ⟨x',b,ran,step,_⟩ := write_step cpp (write_room roomy accounts found)
      refine ⟨{s with Vstates := s.Vstates.insert a x', writes := s.writes + 1},by simp [FtCall.run,found,foundX,ran],?_,
        fun id t found _ => ⟨t,found,rfl⟩⟩
      exact owned_store owned (write_accounts owned accounts found step) a _ _
    | _ => exact synchronized trivial
  · intro id t a x found foundX
    have accounts := owned.vars a x foundX
    obtain ⟨x',verdict,ran,_,reports⟩ := write_step cpp (write_room roomy accounts found)
    exact ⟨own_read_behind owned accounts found,x',verdict,ran,reports⟩

-- Two threads that have synchronized over the mutex 8 and read the variable 100,
-- which the first of them has written.
def sharedState : Runtime where
  TS := (UnorderedMap.empty.insert 1 ⟨1,[lane 0,lane 1 + 3,lane 2 + 1],lane 1 + 3⟩).insert 2 ⟨2,[lane 0,lane 1 + 2,lane 2 + 2],lane 2 + 2⟩
  Vstates := UnorderedMap.empty.insert 100 ⟨lane 1 + 1,READ_SHARED,[lane 0,lane 1 + 2,lane 2 + 1],false⟩
  reads := 2
  writes := 1
  LS := UnorderedMap.empty.insert 8 ⟨[lane 0,lane 1 + 2,lane 2 + 1]⟩
  NumThreads := 3
  isConcurrent := 1

theorem sharedState_threads {id : ThreadID} (found : sharedState.TS.find id = some t) :
    id = 1 ∧ t = ⟨1,[lane 0,lane 1 + 3,lane 2 + 1],lane 1 + 3⟩ ∨ id = 2 ∧ t = ⟨2,[lane 0,lane 1 + 2,lane 2 + 2],lane 2 + 2⟩ := by
  simp only [sharedState,UnorderedMap.find_insert,UnorderedMap.find_empty] at found
  split at found
  · rename_i second; cases found; exact .inr ⟨second,rfl⟩
  · split at found
    · rename_i first; cases found; exact .inl ⟨first,rfl⟩
    · cases found

theorem sharedState_lock (found : sharedState.LS.find m = some l) : l = ⟨[lane 0,lane 1 + 2,lane 2 + 1]⟩ := by
  simp only [sharedState,UnorderedMap.find_insert,UnorderedMap.find_empty] at found
  split at found <;> cases found
  rfl

theorem sharedState_variable (found : sharedState.Vstates.find a = some x) :
    x = ⟨lane 1 + 1,READ_SHARED,[lane 0,lane 1 + 2,lane 2 + 1],false⟩ := by
  simp only [sharedState,UnorderedMap.find_insert,UnorderedMap.find_empty] at found
  split at found <;> cases found
  rfl

theorem sharedState_owned : sharedState.Owned where
  valid := by
    intro id t found
    rcases sharedState_threads found with ⟨rfl,rfl⟩ | ⟨rfl,rfl⟩ <;> exact ⟨by decide,by decide⟩
  entries := by
    intro id t found
    rcases sharedState_threads found with ⟨rfl,rfl⟩ | ⟨rfl,rfl⟩ <;> decide
  locks := by
    intro m l found
    rw [sharedState_lock found]
    decide
  foreign := by
    intro id t id' u found foundU different
    rcases sharedState_threads found with ⟨rfl,rfl⟩ | ⟨rfl,rfl⟩ <;>
      rcases sharedState_threads foundU with ⟨rfl,rfl⟩ | ⟨rfl,rfl⟩ <;> first | exact absurd rfl different | decide
  held := by
    intro id t m l found foundL
    rw [sharedState_lock foundL]
    rcases sharedState_threads found with ⟨rfl,rfl⟩ | ⟨rfl,rfl⟩ <;> decide
  vars := by
    intro a x foundX
    rw [sharedState_variable foundX]
    refine ⟨⟨1,_,rfl,by decide,by decide⟩,fun unshared => absurd rfl unshared,?_,?_⟩
    · exact (inLanes_iff.mp (show InLanes [lane 0,lane 1 + 2,lane 2 + 1] by decide)).1
    · intro id t found
      rcases sharedState_threads found with ⟨rfl,rfl⟩ | ⟨rfl,rfl⟩ <;> decide

theorem sharedState_roomy : sharedState.Roomy where
  threads := by
    intro id t id' u found foundU
    rcases sharedState_threads found with ⟨rfl,rfl⟩ | ⟨rfl,rfl⟩ <;>
      rcases sharedState_threads foundU with ⟨rfl,rfl⟩ | ⟨rfl,rfl⟩ <;> decide
  readers := by
    intro id t a x found foundX _
    rw [sharedState_variable foundX]
    rcases sharedState_threads found with ⟨rfl,rfl⟩ | ⟨rfl,rfl⟩ <;> decide
  created := by
    intro id t found
    rcases sharedState_threads found with ⟨rfl,rfl⟩ | ⟨rfl,rfl⟩ <;> decide
  clocks := by
    intro id t found
    rcases sharedState_threads found with ⟨rfl,rfl⟩ | ⟨rfl,rfl⟩ <;> decide

theorem ownership_kept_release :
    (∃ s', FtCall.run (.checked .leftFirst) sharedState (.release 1 8) = some s' ∧ s'.Owned ∧
      ∀ id t, sharedState.TS.find id = some t → FtCall.ticks (.release 1 8) ≠ some id →
        ∃ t', s'.TS.find id = some t' ∧ t'.epoch = t.epoch) ∧
    ∀ id t a x, sharedState.TS.find id = some t → sharedState.Vstates.find a = some x → ¬ ReaderAhead x t t.tid ∧
      ∃ x' verdict, ftWrite (.checked .leftFirst) x t = some (x',verdict) ∧ (verdict = true ↔ WriteRaces x t) :=
  ownership_kept (.checked .leftFirst) sharedState_owned sharedState_roomy ⟨⟨_,rfl⟩,_,rfl⟩ (by simp [FtCall.Distinct])

end EmbedSanitizer
