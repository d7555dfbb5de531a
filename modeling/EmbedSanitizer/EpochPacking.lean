import EmbedSanitizer.FtCalls
import EmbedSanitizer.Preparation

namespace EmbedSanitizer
open ThreadEvents PartialRuns

section Lanes
variable {C V : VectorClock} {t t' : ThreadState}

def Unshared (V : VectorClock) : Prop := ∀ i, meaning V i ≠ READ_SHARED

theorem copied_lanes (copied : Copied C n V) (lanes : InLanes C) (short : n ≤ 256) : InLanes V := by
  obtain ⟨lanes,few⟩ := inLanes_iff.mp lanes
  refine inLanes_iff.mpr ⟨fun i => ?_,?_⟩
  · rw [copied.entries]; exact lanes i
  · rw [copied.length]; exact Nat.max_le.mpr ⟨short,few⟩

theorem joined_lanes (moved : Joined t D t') (lanes : InLanes t.C) (lanesD : InLanes D) : InLanes t'.C := by
  obtain ⟨lanes,few⟩ := inLanes_iff.mp lanes
  obtain ⟨lanesD,fewD⟩ := inLanes_iff.mp lanesD
  refine inLanes_iff.mpr ⟨fun i => ?_,?_⟩
  · rw [moved.entries,TID_maxInt ((lanes i).trans (lanesD i).symm)]; exact lanes i
  · rw [moved.length]; exact Nat.max_le.mpr ⟨few,fewD⟩

theorem ticked_lanes (moved : Ticked t n t') (valid : t.Valid) (lanes : InLanes t.C) (short : n ≤ 256)
    (room : CLOCK t.epoch ≠ 0xFFFFFF) : InLanes t'.C := by
  obtain ⟨lanes,few⟩ := inLanes_iff.mp lanes
  refine inLanes_iff.mpr ⟨fun i => ?_,?_⟩
  · rw [moved.entries]
    split
    · rename_i own
      rw [own,(packed_succ room).1,valid.epoch]
      exact lanes t.tid
    · exact lanes i
  · rw [moved.length]; exact Nat.max_le.mpr ⟨few,short⟩

theorem joined_unshared (moved : Joined t D t') (unshared : Unshared t.C) (unsharedD : Unshared D) : Unshared t'.C := by
  intro i
  rw [moved.entries]
  unfold maxInt
  split
  · exact unsharedD i
  · exact unshared i

theorem ticked_unshared (moved : Ticked t n t') (unshared : Unshared t.C) (next : t.epoch + 1 ≠ READ_SHARED) : Unshared t'.C := by
  intro i
  rw [moved.entries]
  split
  · exact next
  · exact unshared i

theorem copied_unshared (copied : Copied C n V) (unshared : Unshared C) : Unshared V := by
  intro i
  rw [copied.entries]
  exact unshared i

end Lanes

structure Runtime.Packed (s : Runtime) : Prop where
  tids : ∀ id t, s.TS.find id = some t → TID t.epoch = t.tid
  entries : ∀ id t, s.TS.find id = some t → InLanes t.C
  locks : ∀ m l, s.LS.find m = some l → InLanes l.L
  apart : ∀ id t id' t', s.TS.find id = some t → s.TS.find id' = some t' → id ≠ id' → t.epoch ≠ t'.epoch
  unshared : ∀ id t, s.TS.find id = some t → t.epoch ≠ READ_SHARED

-- What holds of the vectors on the way, whether or not they keep to their lanes.
structure Runtime.Upright (s : Runtime) : Prop where
  valid : s.Valid
  apart : s.slot.Apart
  threads : ∀ id t, s.TS.find id = some t → Unshared t.C
  locks : ∀ m l, s.LS.find m = some l → Unshared l.L

def FtCall.ticks : FtCall → Option ThreadID
  | .release t _ | .fork t _ => some t
  | .join _ u => some u
  | _ => none

section Steps
variable {s s' : Runtime} {c : FtCall}

def FtCall.Spares (c : FtCall) (s : Runtime) : Prop :=
  ∀ id t, c.ticks = some id → s.TS.find id = some t → CLOCK t.epoch ≠ 0xFFFFFF ∧ t.epoch + 1 ≠ READ_SHARED

theorem sync_slots (step : SyncStep s c s') : s'.slot = s.slot := by
  cases step with
  | acquire found _ moved _ => exact slot_insert found moved.tid
  | release found _ moved _ => exact slot_insert found moved.tid
  | @fork t u t' u' id id' different found foundU moved movedU n =>
    have other : (s.TS.insert id t').find id' = some u := by simp [Ne.symm different,foundU]
    exact (slot_insert (s := {s with TS := s.TS.insert id t'}) other movedU.tid).trans (slot_insert found moved.tid)
  | @join t u t' u' id id' different found foundU moved movedU n =>
    have other : (s.TS.insert id t').find id' = some u := by simp [Ne.symm different,foundU]
    exact (slot_insert (s := {s with TS := s.TS.insert id t'}) other movedU.tid).trans (slot_insert found moved.tid)
  | forkSelf found moved _ => exact slot_insert found moved.tid
  | joinSelf found moved _ => exact slot_insert found moved.tid

theorem sync_valid (valid : s.Valid) (step : SyncStep s c s') : s'.Valid := by
  cases step with
  | acquire _ _ moved _ => exact UnorderedMap.insert_all valid moved.valid _
  | release _ _ moved _ => exact UnorderedMap.insert_all valid moved.valid _
  | fork _ _ _ moved movedU _ => exact UnorderedMap.insert_all (UnorderedMap.insert_all valid moved.valid _) movedU.valid _
  | join _ _ _ moved movedU _ => exact UnorderedMap.insert_all (UnorderedMap.insert_all valid moved.valid _) movedU.valid _
  | forkSelf _ moved _ => exact UnorderedMap.insert_all valid moved.valid _
  | joinSelf _ moved _ => exact UnorderedMap.insert_all valid moved.valid _

theorem sync_ticked {id : ThreadID} (step : SyncStep s c s') (ticks : c.ticks = some id) (found : s.TS.find id = some t) :
    ∃ t' n, s'.TS.find id = some t' ∧ Ticked t n t' := by
  cases step with
  | acquire _ _ _ _ => cases ticks
  | release at_id _ moved _ =>
    cases ticks
    cases at_id.symm.trans found
    exact ⟨_,_,by simp,moved⟩
  | fork different at_id _ moved _ _ =>
    cases ticks
    cases at_id.symm.trans found
    exact ⟨_,_,by simp [different],moved⟩
  | join _ _ at_id _ moved _ =>
    cases ticks
    cases at_id.symm.trans found
    exact ⟨_,_,by simp,moved⟩
  | forkSelf at_id moved _ =>
    cases ticks
    cases at_id.symm.trans found
    exact ⟨_,_,by simp,moved⟩
  | joinSelf at_id moved _ =>
    cases ticks
    cases at_id.symm.trans found
    exact ⟨_,_,by simp,moved⟩

def FtCall.mutex : FtCall → Option Address
  | .acquire _ m | .release _ m => some m
  | _ => none

theorem sync_mutex (step : SyncStep s c s') (mutex : c.mutex = some m) (held : s.LS.find m = some l) :
    ∃ l', s'.LS.find m = some l' ∧ l.L.length ≤ l'.L.length := by
  cases step with
  | acquire _ at_m _ copied =>
    cases mutex
    cases at_m.symm.trans held
    exact ⟨_,UnorderedMap.find_insert_self _ _ _,by rw [copied.length]; exact Nat.le_max_right _ _⟩
  | release _ at_m _ copied =>
    cases mutex
    cases at_m.symm.trans held
    exact ⟨_,UnorderedMap.find_insert_self _ _ _,by rw [copied.length]; exact Nat.le_max_left _ _⟩
  | _ => cases mutex

theorem packed_of_upright (upright : s.Upright) (entries : ∀ id t, s.TS.find id = some t → InLanes t.C)
    (locks : ∀ m l, s.LS.find m = some l → InLanes l.L) : s.Packed := by
  have tids : ∀ id t, s.TS.find id = some t → TID t.epoch = t.tid := by
    intro id t found
    have valid := upright.valid id t found
    rw [valid.epoch]
    exact entries id t found _ _ (meaning_in valid.room)
  refine ⟨tids,entries,locks,?_,?_⟩
  · intro id t id' t' found found' different same
    refine different (upright.apart id id' t.tid (slot_of found) ?_)
    rw [slot_of found',← tids id t found,same,tids id' t' found']
  · intro id t found
    rw [(upright.valid id t found).epoch]
    exact upright.threads id t found t.tid

theorem sync_upright (upright : s.Upright) (step : SyncStep s c s') (spares : c.Spares s) : s'.Upright := by
  have valid := sync_valid upright.valid step
  have apart : s'.slot.Apart := by rw [sync_slots step]; exact upright.apart
  have raised : ∀ {id : ThreadID} {t t' : ThreadState} {n : ℕ}, c.ticks = some id → s.TS.find id = some t → Ticked t n t' → Unshared t'.C :=
    fun ticks found moved => ticked_unshared moved (upright.threads _ _ found) (spares _ _ ticks found).2
  cases step with
  | acquire found held moved copied =>
    refine ⟨valid,apart,UnorderedMap.insert_all upright.threads ?_ _,UnorderedMap.insert_all upright.locks ?_ _⟩
    · exact joined_unshared moved (upright.threads _ _ found) (upright.locks _ _ held)
    · exact copied_unshared copied (upright.locks _ _ held)
  | release found held moved copied =>
    refine ⟨valid,apart,UnorderedMap.insert_all upright.threads ?_ _,UnorderedMap.insert_all upright.locks ?_ _⟩
    · exact raised rfl found moved
    · exact copied_unshared copied (upright.threads _ _ found)
  | fork _ found foundU moved movedU _ =>
    refine ⟨valid,apart,UnorderedMap.insert_all (UnorderedMap.insert_all upright.threads ?_ _) ?_ _,upright.locks⟩
    · exact raised rfl found moved
    · exact joined_unshared movedU (upright.threads _ _ foundU) (upright.threads _ _ found)
  | join _ found foundU moved movedU _ =>
    refine ⟨valid,apart,UnorderedMap.insert_all (UnorderedMap.insert_all upright.threads ?_ _) ?_ _,upright.locks⟩
    · exact joined_unshared moved (upright.threads _ _ found) (upright.threads _ _ foundU)
    · exact raised rfl foundU movedU
  | forkSelf found moved _ => exact ⟨valid,apart,UnorderedMap.insert_all upright.threads (raised rfl found moved) _,upright.locks⟩
  | joinSelf found moved _ => exact ⟨valid,apart,UnorderedMap.insert_all upright.threads (raised rfl found moved) _,upright.locks⟩

theorem sync_lanes (valid : s.Valid) (entries : ∀ id t, s.TS.find id = some t → InLanes t.C) (locks : ∀ m l, s.LS.find m = some l → InLanes l.L)
    (step : SyncStep s c s') (room : ∀ id t, c.ticks = some id → s.TS.find id = some t → CLOCK t.epoch ≠ 0xFFFFFF) :
    (∀ id t, s'.TS.find id = some t → InLanes t.C) ∧ ∀ m l, s'.LS.find m = some l → InLanes l.L := by
  have short : ∀ {V}, InLanes V → V.length ≤ 256 := fun lanes => (inLanes_iff.mp lanes).2
  have raised : ∀ {id : ThreadID} {t t' : ThreadState} {n : ℕ}, c.ticks = some id → s.TS.find id = some t → n ≤ 256 →
      Ticked t n t' → InLanes t'.C := fun ticks found few moved =>
    ticked_lanes moved (valid _ _ found) (entries _ _ found) few (room _ _ ticks found)
  cases step with
  | acquire found held moved copied =>
    refine ⟨UnorderedMap.insert_all entries ?_ _,UnorderedMap.insert_all locks ?_ _⟩
    · exact joined_lanes moved (entries _ _ found) (locks _ _ held)
    · exact copied_lanes copied (locks _ _ held) (short (entries _ _ found))
  | release found held moved copied =>
    refine ⟨UnorderedMap.insert_all entries ?_ _,UnorderedMap.insert_all locks ?_ _⟩
    · exact raised rfl found (short (locks _ _ held)) moved
    · exact copied_lanes copied (entries _ _ found) (short (locks _ _ held))
  | fork _ found foundU moved movedU _ =>
    refine ⟨UnorderedMap.insert_all (UnorderedMap.insert_all entries ?_ _) ?_ _,locks⟩
    · exact raised rfl found (short (entries _ _ foundU)) moved
    · exact joined_lanes movedU (entries _ _ foundU) (entries _ _ found)
  | join _ found foundU moved movedU _ =>
    refine ⟨UnorderedMap.insert_all (UnorderedMap.insert_all entries ?_ _) ?_ _,locks⟩
    · exact joined_lanes moved (entries _ _ found) (entries _ _ foundU)
    · exact raised rfl foundU (short (entries _ _ found)) movedU
  | forkSelf found moved _ => exact ⟨UnorderedMap.insert_all entries (raised rfl found (short (entries _ _ found)) moved) _,locks⟩
  | joinSelf found moved _ => exact ⟨UnorderedMap.insert_all entries (raised rfl found (short (entries _ _ found)) moved) _,locks⟩

theorem sync_packed (upright : s.Upright) (packed : s.Packed) (step : SyncStep s c s') (spares : c.Spares s) : s'.Packed := by
  obtain ⟨entries,locks⟩ := sync_lanes upright.valid packed.entries packed.locks step
    fun id t ticks found => (spares id t ticks found).1
  exact packed_of_upright (sync_upright upright step spares) entries locks

theorem TID_overflow (full : CLOCK x = 0xFFFFFF) : TID (x+1) ≠ TID x := by
  have bound := x.isLt
  rw [CLOCK_eq] at full
  rw [TID_eq,TID_eq,BitVec.toNat_add]
  have one : (1 : CInt).toNat = 1 := rfl
  rw [one]
  omega

theorem packed_spares (tids : ∀ id t, s.TS.find id = some t → TID t.epoch = t.tid) (step : SyncStep s c s') (packed' : s'.Packed) :
    c.Spares s := by
  intro id t ticks found
  obtain ⟨t',n,found',moved⟩ := sync_ticked step ticks found
  have next := ticked_epoch_succ moved
  constructor
  · intro full
    have tid := packed'.tids id t' found'
    rw [next,moved.tid,← tids id t found] at tid
    exact TID_overflow full tid
  · rw [← next]
    exact packed'.unshared id t' found'

end Steps

def callOf : Event → Option FtCall
  | .fork t u => some (.fork t u)
  | .join t u => some (.join t u)
  | .acquire t m => some (.acquire t m)
  | .release t m => some (.release t m)
  | _ => none

inductive Opened (s : Runtime) (c : FtCall) : Runtime → Prop
  | kept (known : ∀ m, c.mutex = some m → ∃ l, s.LS.find m = some l) : Opened s c s
  | made (mutex : c.mutex = some m) (absent : s.LS.find m = none) (length : L.length = s.NumThreads)
      (entries : ∀ i, meaning L i = lane i) : Opened s c {s with LS := s.LS.insert m ⟨L⟩}

section Events
variable {s s₁ s' : Runtime} {c : FtCall} {e : Event}

theorem getLockState_cases (cpp : Cpp) (s : Runtime) (m : Address) :
    (getLockState cpp s m = some s ∧ ∃ l, s.LS.find m = some l) ∨
    ∃ L, getLockState cpp s m = some {s with LS := s.LS.insert m ⟨L⟩} ∧ s.LS.find m = none ∧ L.length = s.NumThreads ∧
      ∀ i, meaning L i = lane i := by
  unfold getLockState
  cases found : s.LS.find m with
  | some l => exact .inl ⟨rfl,l,rfl⟩
  | none =>
    obtain ⟨L,made,length,entries⟩ := newVectorClock_spec cpp [] s.NumThreads
    exact .inr ⟨L,by simp [made],rfl,length,entries⟩

theorem opened_mutex (cpp : Cpp) (mutex : c.mutex = some m) : ∃ s₁, getLockState cpp s m = some s₁ ∧ Opened s c s₁ ∧
    s₁.TS = s.TS ∧ ∃ l, s₁.LS.find m = some l := by
  rcases getLockState_cases cpp s m with ⟨same,l,found⟩ | ⟨L,made,absent,length,entries⟩
  · refine ⟨s,same,.kept fun m' mutex' => ?_,rfl,l,found⟩
    cases mutex.symm.trans mutex'
    exact ⟨l,found⟩
  · exact ⟨_,made,.made mutex absent length entries,rfl,⟨L⟩,by simp⟩

theorem mutex_call (cpp : Cpp) (valid : s.Valid) (known : s.Registered t) (own : c = .acquire t m ∨ c = .release t m) :
    ∃ s₁ s', perform cpp s c.event = some (s',false) ∧ Opened s c s₁ ∧ s₁.TS = s.TS ∧ SyncStep s₁ c s' := by
  have mutex : c.mutex = some m := by rcases own with rfl | rfl <;> rfl
  obtain ⟨s₁,opens,opened,threads,held⟩ := opened_mutex cpp mutex
  have still : s₁.Registered t := by unfold Runtime.Registered; rw [threads]; exact known
  have valid₁ : s₁.Valid := by unfold Runtime.Valid; rw [threads]; exact valid
  have ready : c.Known s₁ := by rcases own with rfl | rfl <;> exact ⟨still,held⟩
  have synchronizes : c.Synchronizes := by rcases own with rfl | rfl <;> trivial
  obtain ⟨s',ran,step⟩ := sync_step cpp valid₁ ready synchronizes
  have called : perform cpp s c.event = (c.run cpp s₁).map (·,false) := by
    rcases own with rfl | rfl
    · simp only [FtCall.event,perform,tsanThreadLock,evaluate_lock cpp known m,opens]
      rfl
    · simp only [FtCall.event,perform,tsanThreadUnlock,evaluate_lock cpp known m,opens]
      rfl
  exact ⟨s₁,s',by rw [called,ran]; rfl,opened,threads,step⟩

theorem pair_call (cpp : Cpp) (valid : s.Valid) (known : s.Registered t) (knownU : s.Registered u)
    (own : c = .fork t u ∨ c = .join t u) :
    ∃ s₁ s', perform cpp s c.event = some (s',false) ∧ Opened s c s₁ ∧ s₁.TS = s.TS ∧ SyncStep s₁ c s' := by
  have ready : c.Known s := by rcases own with rfl | rfl <;> exact ⟨known,knownU⟩
  have synchronizes : c.Synchronizes := by rcases own with rfl | rfl <;> trivial
  have unlocked : ∀ m, c.mutex ≠ some m := by rcases own with rfl | rfl <;> simp [FtCall.mutex]
  obtain ⟨s',ran,step⟩ := sync_step cpp valid ready synchronizes
  refine ⟨s,s',?_,.kept fun m mutex => absurd mutex (unlocked m),rfl,step⟩
  rw [perform_run cpp ready synchronizes,ran]
  rfl

theorem perform_call (cpp : Cpp) (valid : s.Valid) (named : ∀ t ∈ threadsOf e, s.Registered t) (call : callOf e = some c) :
    ∃ s₁ s', perform cpp s e = some (s',false) ∧ Opened s c s₁ ∧ s₁.TS = s.TS ∧ SyncStep s₁ c s' := by
  cases e with
  | fork t u =>
    cases call
    exact pair_call cpp valid (named t (by simp [threadsOf])) (named u (by simp [threadsOf])) (.inl rfl)
  | join t u =>
    cases call
    exact pair_call cpp valid (named t (by simp [threadsOf])) (named u (by simp [threadsOf])) (.inr rfl)
  | acquire t m =>
    cases call
    exact mutex_call cpp valid (named t (by simp [threadsOf])) (.inl rfl)
  | release t m =>
    cases call
    exact mutex_call cpp valid (named t (by simp [threadsOf])) (.inr rfl)
  | _ => cases call

theorem quiet_event (silent : ¬ IsAccess e) (none : callOf e = none) (cpp : Cpp) (s : Runtime) : perform cpp s e = some (s,false) := by
  cases e with
  | access t kind a => exact absurd ⟨t,kind,a,rfl⟩ silent
  | skip t => rfl
  | _ => cases none

theorem opened_slots (opened : Opened s c s₁) : s₁.slot = s.slot ∧ s₁.TS = s.TS := by
  cases opened <;> exact ⟨rfl,rfl⟩

theorem opened_upright (upright : s.Upright) (opened : Opened s c s₁) : s₁.Upright := by
  cases opened with
  | kept _ => exact upright
  | made mutex absent length entries =>
    refine ⟨upright.valid,upright.apart,upright.threads,UnorderedMap.insert_all upright.locks (fun i => ?_) _⟩
    rw [entries]
    exact lane_unshared i

theorem opened_packed (packed : s.Packed) (opened : Opened s c s₁)
    (few : ∀ m, c.mutex = some m → s.LS.find m = none → s.NumThreads ≤ 256) : s₁.Packed := by
  cases opened with
  | kept _ => exact packed
  | made mutex absent length entries =>
    refine ⟨packed.tids,packed.entries,UnorderedMap.insert_all packed.locks ?_ _,packed.apart,packed.unshared⟩
    refine inLanes_iff.mpr ⟨fun i => ?_,length ▸ few _ mutex absent⟩
    rw [entries]
    exact TID_lane i

theorem packed_few (opened : Opened s c s₁) (step : SyncStep s₁ c s') (packed' : s'.Packed) (mutex : c.mutex = some m)
    (absent : s.LS.find m = none) : s.NumThreads ≤ 256 := by
  cases opened with
  | kept known =>
    obtain ⟨l,found⟩ := known m mutex
    cases absent.symm.trans found
  | made mutex' _ length _ =>
    cases mutex.symm.trans mutex'
    obtain ⟨l',held,grown⟩ := sync_mutex step mutex (UnorderedMap.find_insert_self _ _ _)
    have short := (inLanes_iff.mp (packed'.locks m l' held)).2
    rw [← length]
    exact Nat.le_trans grown short

end Events

-- The event takes no epoch out of its lane or to the mark for shared reads, and
-- gives no mutex a vector with more slots than there are lanes.
structure Unwrapped (s : Runtime) (e : Event) : Prop where
  clock : ∀ c id t, callOf e = some c → c.ticks = some id → s.TS.find id = some t → CLOCK t.epoch ≠ 0xFFFFFF
  mark : ∀ c id t, callOf e = some c → c.ticks = some id → s.TS.find id = some t → t.epoch + 1 ≠ READ_SHARED
  slots : ∀ c m, callOf e = some c → c.mutex = some m → s.LS.find m = none → s.NumThreads ≤ 256

section Runs
variable {cpp : Cpp} {s s' : Runtime} {e : Event} {tr rest : List Event}

theorem perform_valid (cpp : Cpp) (valid : s.Valid) (named : ∀ t ∈ threadsOf e, s.Registered t) (silent : ¬ IsAccess e) :
    ∃ s', perform cpp s e = some (s',false) ∧ s'.Valid ∧ s'.slot = s.slot := by
  cases call : callOf e with
  | none => exact ⟨s,quiet_event silent call cpp s,valid,rfl⟩
  | some c =>
    obtain ⟨s₁,s',ran,opened,threads,step⟩ := perform_call cpp valid named call
    have valid₁ : s₁.Valid := by unfold Runtime.Valid; rw [threads]; exact valid
    exact ⟨s',ran,sync_valid valid₁ step,(sync_slots step).trans (opened_slots opened).1⟩

theorem perform_packed (upright : s.Upright) (packed : s.Packed) (named : ∀ t ∈ threadsOf e, s.Registered t) (silent : ¬ IsAccess e)
    (unwrapped : Unwrapped s e) (ran : perform cpp s e = some (s',b)) : s'.Upright ∧ s'.Packed := by
  cases call : callOf e with
  | none =>
    rw [quiet_event silent call] at ran
    cases ran
    exact ⟨upright,packed⟩
  | some c =>
    obtain ⟨s₁,s₂,ran₂,opened,threads,step⟩ := perform_call cpp upright.valid named call
    cases ran.symm.trans ran₂
    have spares : c.Spares s₁ := by
      intro id t ticks found
      rw [threads] at found
      exact ⟨unwrapped.clock c id t call ticks found,unwrapped.mark c id t call ticks found⟩
    have packed₁ := opened_packed packed opened fun m => unwrapped.slots c m call
    have upright₁ := opened_upright upright opened
    exact ⟨sync_upright upright₁ step spares,sync_packed upright₁ packed₁ step spares⟩

theorem packed_unwrapped (valid : s.Valid) (packed : s.Packed) (named : ∀ t ∈ threadsOf e, s.Registered t)
    (ran : perform cpp s e = some (s',b)) (packed' : s'.Packed) : Unwrapped s e := by
  have spared : ∀ c, callOf e = some c → c.Spares s ∧ ∀ m, c.mutex = some m → s.LS.find m = none → s.NumThreads ≤ 256 := by
    intro c call
    obtain ⟨s₁,s₂,ran₂,opened,threads,step⟩ := perform_call cpp valid named call
    cases ran.symm.trans ran₂
    constructor
    · intro id t ticks found
      rw [← threads] at found
      exact packed_spares (by rw [threads]; exact packed.tids) step packed' id t ticks found
    · exact fun m => packed_few opened step packed'
  exact ⟨fun c id t call ticks found => ((spared c call).1 id t ticks found).1,
    fun c id t call ticks found => ((spared c call).1 id t ticks found).2,fun c m call => (spared c call).2 m⟩

theorem named_cons (named : Named s (e :: rest)) : (∀ t ∈ threadsOf e, s.Registered t) ∧ Named s rest :=
  ⟨named e List.mem_cons_self,fun d member => named d (List.mem_cons_of_mem _ member)⟩

theorem run_defined (valid : s.Valid) (named : Named s tr) (silent : ∀ e ∈ tr, ¬ IsAccess e) :
    ∃ s' verdicts, performAll cpp s tr = some (s',verdicts) := by
  induction tr generalizing s with
  | nil => exact ⟨s,[],rfl⟩
  | cons e rest ih =>
    obtain ⟨quiet,silent⟩ := List.forall_mem_cons.mp silent
    obtain ⟨known,named⟩ := named_cons named
    obtain ⟨s₁,ran,valid₁,slots⟩ := perform_valid cpp valid known quiet
    obtain ⟨s',verdicts,later⟩ := ih valid₁ (named_slots slots named) silent
    exact ⟨s',false :: verdicts,by simp [performAll,ran,later]⟩

theorem run_packed (cpp : Cpp) (upright : s.Upright) (named : Named s tr) (silent : ∀ e ∈ tr, ¬ IsAccess e) :
    Always (perform cpp) Runtime.Packed s tr ↔ s.Packed ∧ EachStep (perform cpp) Unwrapped s tr := by
  induction tr generalizing s with
  | nil => simp [always_nil,eachStep_nil]
  | cons e rest ih =>
    obtain ⟨quiet,silent⟩ := List.forall_mem_cons.mp silent
    obtain ⟨known,named⟩ := named_cons named
    obtain ⟨s₁,ran,_,slots⟩ := perform_valid cpp upright.valid known quiet
    have named₁ := named_slots slots named
    rw [always_cons,eachStep_cons]
    constructor
    · rintro ⟨packed,later⟩
      have packed₁ := later s₁ false ran 0 s₁ [] rfl
      have unwrapped := packed_unwrapped upright.valid packed known ran packed₁
      have upright₁ := (perform_packed upright packed known quiet unwrapped ran).1
      refine ⟨packed,unwrapped,fun s₂ b ran₂ => ?_⟩
      cases ran.symm.trans ran₂
      exact ((ih upright₁ named₁ silent).mp (later s₁ false ran)).2
    · rintro ⟨packed,unwrapped,later⟩
      refine ⟨packed,fun s₂ b ran₂ => ?_⟩
      cases ran.symm.trans ran₂
      obtain ⟨upright₁,packed₁⟩ := perform_packed upright packed known quiet unwrapped ran
      exact (ih upright₁ named₁ silent).mpr ⟨packed₁,later s₁ false ran⟩

end Runs

section Starts
variable {s : Runtime}

theorem Runtime.Registry.upright (registry : s.Registry) : s.Upright := by
  have fits := registry.sim.threads
  refine ⟨fun id t found => (fits id t found).valid,registry.sim.apart,?_,?_⟩
  · intro id t found i
    rw [registry.meaning found]
    split
    · exact unshared_of_room (by rw [(first_tick i).2]; decide)
    · exact lane_unshared i
  · intro m l found
    rw [registry.locks m] at found
    cases found

theorem Runtime.Registry.packed_iff (registry : s.Registry) : s.Packed ↔ ∀ id t, s.TS.find id = some t → t.C.length ≤ 256 := by
  constructor
  · exact fun packed id t found => (inLanes_iff.mp (packed.entries id t found)).2
  · intro few
    refine packed_of_upright registry.upright ?_ ?_
    · exact fun id t found => inLanes_iff.mpr ⟨(registry.sim.threads id t found).models.lanes,few id t found⟩
    · intro m l found
      rw [registry.locks m] at found
      cases found

end Starts

-- A run of forks, joins and mutex operations always completes; its epochs stay
-- packed exactly when none of its steps leaves the lanes.
theorem epochs_packed {cpp : Cpp} {s : Runtime} (registry : s.Registry) {tr : List Event} (named : Named s tr)
    (silent : ∀ e ∈ tr, ¬ IsAccess e) :
    (∃ s' verdicts, performAll cpp s tr = some (s',verdicts)) ∧
    ((∀ k s' verdicts, performAll cpp s (tr.take k) = some (s',verdicts) → s'.Packed) ↔
      (∀ id t, s.TS.find id = some t → t.C.length ≤ 256) ∧
      ∀ k e s' verdicts, tr[k]? = some e → performAll cpp s (tr.take k) = some (s',verdicts) → Unwrapped s' e) := by
  refine ⟨run_defined registry.upright.valid named silent,?_⟩
  have stays := run_packed cpp registry.upright named silent
  rw [registry.packed_iff] at stays
  simpa only [Always,EachStep,performAll_runAll] using stays

def unwrappedKeys (s : Runtime) : Bool :=
  (s.TS.keys.all fun id => (s.TS.find id).all fun t => CLOCK t.epoch != 0xFFFFFF && t.epoch + 1 != READ_SHARED) &&
    decide (s.NumThreads ≤ 256)

theorem unwrapped_of_keys {s : Runtime} (checked : unwrappedKeys s = true) (e : Event) : Unwrapped s e := by
  obtain ⟨threads,few⟩ := Bool.and_eq_true_iff.mp checked
  rw [List.all_eq_true] at threads
  have spares : ∀ id t, s.TS.find id = some t → CLOCK t.epoch ≠ 0xFFFFFF ∧ t.epoch + 1 ≠ READ_SHARED := by
    intro id t found
    have spare := threads id ((s.TS.present id).mpr (by simp [found]))
    simpa [found] using spare
  exact ⟨fun _ id t _ _ found => (spares id t found).1,fun _ id t _ _ found => (spares id t found).2,
    fun _ _ _ _ _ => of_decide_eq_true few⟩

-- A thread is created, locks and unlocks a new mutex, and is joined.
def packedRun : List Event := [.fork 1 2,.acquire 2 8,.release 2 8,.join 1 2]

theorem epochs_packed_run :
    (∃ s' verdicts, performAll (.checked .leftFirst) (.ofThreads [1,2] (by decide)) packedRun = some (s',verdicts)) ∧
    ∀ k s' verdicts, performAll (.checked .leftFirst) (.ofThreads [1,2] (by decide)) (packedRun.take k) = some (s',verdicts) →
      s'.Packed := by
  have silent : ∀ e ∈ packedRun, ¬ IsAccess e := by
    rintro e member ⟨t,kind,a,rfl⟩
    simp [packedRun] at member
  have registry : (Runtime.ofThreads [1,2] (by decide)).Registry := ofThreads_registry
  obtain ⟨completes,packs⟩ := @epochs_packed (.checked .leftFirst) _ registry packedRun (by decide) silent
  refine ⟨completes,packs.mpr ⟨?_,?_⟩⟩
  · intro id t found
    obtain ⟨i,_,_,rfl⟩ := ofThreads_find found
    simp [freshThread]
  · intro k e s' verdicts found ran
    have inside : k < 4 := (List.getElem?_eq_some_iff.mp found).1
    have checked : ∀ k < 4, (performAll (.checked .leftFirst) (.ofThreads [1,2] (by decide)) (packedRun.take k)).all
        (fun r => unwrappedKeys r.1) = true := by decide
    have spare := checked k inside
    rw [ran] at spare
    exact unwrapped_of_keys spare e

def manyThreads : List ThreadID := (List.range 257).map (BitVec.ofNat 32)

theorem manyThreads_nodup : manyThreads.Nodup := by
  refine List.Nodup.map_on ?_ List.nodup_range
  intro i inside j inside' same
  have less := List.mem_range.mp inside
  have less' := List.mem_range.mp inside'
  have words := congrArg BitVec.toNat same
  rw [BitVec.toNat_ofNat,BitVec.toNat_ofNat] at words
  omega

-- With 257 threads registered, the first and the last have one epoch.
theorem epochs_collide : (Runtime.ofThreads manyThreads manyThreads_nodup).Registry ∧
    performAll (.checked .leftFirst) (.ofThreads manyThreads manyThreads_nodup) [] = some (.ofThreads manyThreads manyThreads_nodup,[]) ∧
    ¬ (Runtime.ofThreads manyThreads manyThreads_nodup).Packed := by
  refine ⟨ofThreads_registry,rfl,fun packed => ?_⟩
  have first : (Runtime.ofThreads manyThreads manyThreads_nodup).TS.find 0 = some (freshThread 258 1) := by decide +kernel
  have last : (Runtime.ofThreads manyThreads manyThreads_nodup).TS.find 256 = some (freshThread 258 257) := by decide +kernel
  exact packed.apart 0 _ 256 _ first last (by decide) (by decide)

end EmbedSanitizer
