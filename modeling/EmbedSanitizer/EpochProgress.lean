import EmbedSanitizer.Registration

namespace EmbedSanitizer

-- A store past the end of a vector leaves its size and its entries unchanged.
def Cpp.Lenient (cpp : Cpp) : Prop := ∀ V i x, V.length ≤ i → cpp.store V i x = some V

-- The runtime as ft_fork, ft_join, ft_acquire or ft_release finds it.
def Call.enter (cpp : Cpp) (s : Runtime) (c : Call) : Option Runtime :=
  match c.callback with
  | .threadCreate child | .threadJoin child => cpp.evaluate (getState cpp · c.self) (getState cpp · child) s
  | .threadLock lock | .threadUnlock lock => cpp.evaluate (getState cpp · c.self) (getLockState cpp · lock) s
  | .access .. => some s

-- The threads whose epoch is read again from the own slot, and the threads whose
-- epoch is to be raised.
def Call.Rereads (c : Call) (id : ThreadID) : Prop :=
  match c.callback with
  | .threadCreate child => id = child
  | .threadJoin _ | .threadLock _ | .threadUnlock _ => id = c.self
  | .access .. => False

def Call.Raises (c : Call) (id : ThreadID) : Prop :=
  match c.callback with
  | .threadCreate _ | .threadUnlock _ => id = c.self
  | .threadJoin child => id = child
  | .threadLock _ | .access .. => False

structure ThreadState.Awake (t : ThreadState) : Prop where
  lanes : Lanes t.C
  lane : TID t.epoch = t.tid % 256
  clock : 1 ≤ CLOCK t.epoch

structure Runtime.Awake (s : Runtime) : Prop where
  threads : ∀ id t, s.TS.find id = some t → t.Awake
  locks : ∀ m l, s.LS.find m = some l → Lanes l.L

structure Progress (c : Call) (s s' : Runtime) : Prop where
  kept : ∀ id t, s.TS.find id = some t → ∃ t', s'.TS.find id = some t' ∧ t.epoch.sle t'.epoch = true
  raised : ∀ id t, c.Raises id → s.TS.find id = some t → ∃ t', s'.TS.find id = some t' ∧ t'.epoch = t.epoch + 1

def SameEpochs (s s' : Runtime) : Prop :=
  ∀ id t, s.TS.find id = some t → ∃ t', s'.TS.find id = some t' ∧ t'.epoch = t.epoch

section Vectors
variable {cpp : Cpp} {C D V : VectorClock} {t t' : ThreadState}

theorem lanes_same (lanes : Lanes C) (same : ∀ i, meaning V i = meaning C i) : Lanes V := fun i => by rw [same]; exact lanes i

theorem lanes_max (left : Lanes C) (right : Lanes D) (joined : ∀ i, meaning V i = maxInt (meaning C i) (meaning D i)) :
    Lanes V := fun i => by rw [joined,TID_maxInt ((left i).trans (right i).symm)]; exact left i

theorem lanes_store (lanes : Lanes C) (stored : ∀ i, meaning V i = if i = k then x else meaning C i) (lane : TID x = k % 256) :
    Lanes V := by
  intro i
  rw [stored]
  split
  · rename_i own; rw [own]; exact lane
  · exact lanes i

theorem sle_trans {x y z : CInt} (first : x.sle y = true) (second : y.sle z = true) : x.sle z = true :=
  BitVec.sle_iff_toInt_le.mpr (Int.le_trans (BitVec.sle_iff_toInt_le.mp first) (BitVec.sle_iff_toInt_le.mp second))

theorem sle_succ (room : CLOCK x ≠ 0xFFFFFF) : x.sle (x+1) = true := by
  obtain ⟨sameLane,next⟩ := packed_succ room
  rw [sle_lane sameLane.symm,next]
  exact Nat.le_succ _

theorem increment_epoch (lenient : cpp.Lenient) (ran : t.increment cpp = some t') : t'.tid = t.tid ∧ t'.epoch = t.epoch + 1 ∧
    (∀ i, meaning t'.C i = if i = t.tid then t.epoch + 1 else meaning t.C i) ∨
      (t'.tid = t.tid ∧ t'.epoch = t.epoch + 1 ∧ t'.C = t.C) := by
  by_cases room : t.tid < t.C.length
  · rw [increment_spec cpp room] at ran
    cases ran
    exact .inl ⟨rfl,rfl,meaning_set room _⟩
  · have beyond : cpp.set t.C t.tid (t.epoch + 1) = some t.C := by
      unfold Cpp.set; rw [if_neg room]; exact lenient _ _ _ (Nat.le_of_not_lt room)
    simp only [ThreadState.increment] at ran
    rw [beyond,Option.bind_eq_bind,Option.bind_some] at ran
    obtain ⟨_,_,ran⟩ := bind_some ran
    split at ran
    · cases ran; exact .inr ⟨rfl,rfl,rfl⟩
    · cases ran

theorem increment_awake (lenient : cpp.Lenient) (awake : t.Awake) (room : CLOCK t.epoch ≠ 0xFFFFFF)
    (ran : t.increment cpp = some t') : t'.Awake ∧ t'.tid = t.tid ∧ t'.epoch = t.epoch + 1 := by
  obtain ⟨sameLane,next⟩ := packed_succ room
  have lane : TID (t.epoch + 1) = t.tid % 256 := sameLane.trans awake.lane
  have clock : 1 ≤ CLOCK (t.epoch + 1) := by rw [next]; omega
  rcases increment_epoch lenient ran with ⟨tid,epoch,stored⟩ | ⟨tid,epoch,same⟩
  · exact ⟨⟨lanes_store awake.lanes stored lane,by rw [epoch,tid]; exact lane,by rw [epoch]; exact clock⟩,tid,epoch⟩
  · exact ⟨⟨same ▸ awake.lanes,by rw [epoch,tid]; exact lane,by rw [epoch]; exact clock⟩,tid,epoch⟩

end Vectors

section Operations
variable {cpp : Cpp} {t u t' u' : ThreadState} {lock lock' : LockState}

theorem joined_epoch (t' : ThreadState) (awake : t.Awake) (valid : t.Valid) (lanesD : Lanes D) (tid : t'.tid = t.tid) (valid' : t'.Valid)
    (joined : ∀ i, meaning t'.C i = maxInt (meaning t.C i) (meaning D i)) : t'.Awake ∧ t.epoch.sle t'.epoch = true := by
  have epoch : t'.epoch = maxInt t.epoch (meaning D t.tid) := by rw [valid'.epoch,tid,joined,← valid.epoch]
  have sameLane : TID t.epoch = TID (meaning D t.tid) := awake.lane.trans (lanesD t.tid).symm
  refine ⟨⟨lanes_max awake.lanes lanesD joined,?_,?_⟩,by rw [epoch]; exact sle_maxInt_left _ _⟩
  · rw [epoch,TID_maxInt sameLane,tid]; exact awake.lane
  · rw [epoch,CLOCK_maxInt sameLane]; exact Nat.le_trans awake.clock (Nat.le_max_left _ _)

theorem ticked_epoch (awake : t.Awake) (valid : t.Valid) (room : CLOCK t.epoch ≠ 0xFFFFFF) (tid : t'.tid = t.tid)
    (valid' : t'.Valid) (ticked : ∀ i, meaning t'.C i = if i = t.tid then meaning t.C t.tid + 1 else meaning t.C i) :
    t'.Awake ∧ t'.epoch = t.epoch + 1 := by
  rw [← valid.epoch] at ticked
  obtain ⟨sameLane,next⟩ := packed_succ room
  have lane : TID (t.epoch + 1) = t.tid % 256 := sameLane.trans awake.lane
  have epoch : t'.epoch = t.epoch + 1 := by rw [valid'.epoch,tid,ticked,if_pos rfl]
  refine ⟨⟨lanes_store awake.lanes ticked lane,by rw [epoch,tid]; exact lane,?_⟩,epoch⟩
  rw [epoch,next]; omega

theorem acquire_progress (awake : t.Awake) (valid : t.Valid) (lanesL : Lanes lock.L)
    (ran : ftAcquire cpp t lock = some (t',lock')) : t'.Awake ∧ t.epoch.sle t'.epoch = true ∧ Lanes lock'.L := by
  obtain ⟨_,_,ran',tid,valid',_,joined,kept⟩ := ftAcquire_spec cpp lock valid.room
  rw [ran'] at ran
  cases ran
  obtain ⟨awake',order⟩ := joined_epoch t' awake valid lanesL tid valid' joined
  exact ⟨awake',order,lanes_same lanesL kept⟩

theorem release_progress (awake : t.Awake) (valid : t.Valid) (room : CLOCK t.epoch ≠ 0xFFFFFF)
    (ran : ftRelease cpp t lock = some (t',lock')) : t'.Awake ∧ t'.epoch = t.epoch + 1 ∧ Lanes lock'.L := by
  obtain ⟨_,_,ran',tid,valid',_,ticked,copied⟩ := ftRelease_spec cpp lock valid.room
  rw [ran'] at ran
  cases ran
  obtain ⟨awake',epoch⟩ := ticked_epoch awake valid room tid valid' ticked
  exact ⟨awake',epoch,lanes_same awake.lanes copied⟩

theorem self_progress (awake : t.Awake) (valid : t.Valid) (room : CLOCK t.epoch ≠ 0xFFFFFF)
    (ran : ftSelf cpp t = some t') : t'.Awake ∧ t'.epoch = t.epoch + 1 := by
  obtain ⟨_,ran',tid,valid',_,ticked⟩ := ftSelf_spec cpp valid.room
  rw [ran'] at ran
  cases ran
  exact ticked_epoch awake valid room tid valid' ticked

theorem extended_awake (awake : t.Awake) (n : ℕ) : ({t with C := extendVectorClock t.C n} : ThreadState).Awake :=
  ⟨lanes_same awake.lanes (meaning_extend t.C n),awake.lane,awake.clock⟩

-- The parent may lack its own slot here; the child may not.
theorem fork_progress (lenient : cpp.Lenient) (awake : t.Awake) (awakeU : u.Awake) (valid : u.Valid)
    (room : CLOCK t.epoch ≠ 0xFFFFFF) (ran : ftFork cpp t u = some (t',u')) :
    t'.Awake ∧ u'.Awake ∧ t'.epoch = t.epoch + 1 ∧ u.epoch.sle u'.epoch = true := by
  obtain ⟨V,joined,length,entries⟩ := joinInto_spec cpp (extended_same t.C u.C).symm
  have bound : u.tid < V.length := Nat.lt_of_lt_of_le valid.room (length ▸ extend_le _ _)
  simp only [ftFork,extendVectorClocks,joined,Option.bind_eq_bind,Option.bind_some] at ran
  rw [updateEpoch_spec cpp (t := {u with C := V}) bound,Option.bind_some] at ran
  obtain ⟨_,ticked,ran⟩ := bind_some ran
  cases ran
  obtain ⟨awake',_,epoch⟩ := increment_awake lenient (extended_awake awake _) room ticked
  obtain ⟨awakeU',order⟩ := joined_epoch {u with C := V, epoch := meaning V u.tid} awakeU valid awake.lanes rfl
    ⟨bound,rfl⟩ (fun i => by simp [entries,meaning_extend])
  exact ⟨awake',awakeU',epoch,order⟩

theorem join_progress (lenient : cpp.Lenient) (awake : t.Awake) (awakeU : u.Awake) (valid : t.Valid)
    (room : CLOCK u.epoch ≠ 0xFFFFFF) (ran : ftJoin cpp t u = some (t',u')) :
    t'.Awake ∧ u'.Awake ∧ t.epoch.sle t'.epoch = true ∧ u'.epoch = u.epoch + 1 := by
  obtain ⟨V,joined,length,entries⟩ := joinInto_spec cpp (extended_same t.C u.C)
  have bound : t.tid < V.length := Nat.lt_of_lt_of_le valid.room (length ▸ extend_le _ _)
  simp only [ftJoin,extendVectorClocks,joined,Option.bind_eq_bind,Option.bind_some] at ran
  rw [updateEpoch_spec cpp (t := {t with C := V}) bound,Option.bind_some] at ran
  obtain ⟨_,ticked,ran⟩ := bind_some ran
  cases ran
  obtain ⟨awakeU',_,epoch⟩ := increment_awake lenient (extended_awake awakeU _) room ticked
  obtain ⟨awake',order⟩ := joined_epoch {t with C := V, epoch := meaning V t.tid} awake valid awakeU.lanes rfl
    ⟨bound,rfl⟩ (fun i => by simp [entries,meaning_extend])
  exact ⟨awake',awakeU',order,epoch⟩

end Operations

section Registrations
variable {cpp : Cpp} {s s' : Runtime} {id : ThreadID}

theorem sameEpochs_refl (s : Runtime) : SameEpochs s s := fun _ t found => ⟨t,found,rfl⟩

theorem sameEpochs_trans {s₁ : Runtime} (first : SameEpochs s s₁) (second : SameEpochs s₁ s') : SameEpochs s s' := by
  intro id t found
  obtain ⟨t₁,found₁,epoch₁⟩ := first id t found
  obtain ⟨t',found',epoch'⟩ := second id t₁ found₁
  exact ⟨t',found',epoch'.trans epoch₁⟩

theorem meaning_grown (n : ℕ) (t : ThreadState) (i : ℕ) : meaning (updateThreadClock n t).C i =
    if i = t.tid ∧ t.C.length ≤ i ∧ i < n then lane i + 1 else meaning t.C i := by
  unfold meaning updateThreadClock
  rcases Nat.lt_or_ge i t.C.length with inside | outside
  · simp only [List.getElem?_append_left inside]
    rw [if_neg (by omega)]
  · simp only [List.getElem?_append_right outside,List.getElem?_map,List.getElem?_eq_none outside]
    by_cases added : i < n
    · rw [List.getElem?_range' (by omega),show t.C.length + 1 * (i - t.C.length) = i by omega]
      by_cases own : t.tid = i
      · simp [own,outside,added]
      · simp [own,Ne.symm own]
    · rw [List.getElem?_eq_none (by simp; omega),if_neg (by omega)]
      rfl

theorem update_awake (n : ℕ) {t : ThreadState} (awake : t.Awake) : (updateThreadClock n t).Awake := by
  refine ⟨fun i => ?_,awake.lane,awake.clock⟩
  rw [meaning_grown]
  split
  · exact (first_tick i).1
  · exact awake.lanes i

theorem newcomer_awake (tid : ℕ) : (newcomer tid).Awake :=
  update_awake tid ⟨lanes_nil,(first_tick tid).1,Nat.le_of_eq (first_tick tid).2.symm⟩

theorem getState_awake (lenient : cpp.Lenient) (awake : s.Awake) (ran : getState cpp s id = some s') :
    s'.Awake ∧ SameEpochs s s' := by
  cases absent : s.TS.find id with
  | some t => simp only [getState,absent] at ran; cases ran; exact ⟨awake,sameEpochs_refl s⟩
  | none =>
    rw [getState_absent absent,lenient _ _ _ (Nat.le_of_eq (newcomer_length _))] at ran
    cases ran
    have others : ∀ id' t, s.TS.find id' = some t → id' ≠ id := by
      rintro id' t found rfl; rw [absent] at found; cases found
    refine ⟨⟨fun id' t found => ?_,awake.locks⟩,fun id' t found => ?_⟩
    · by_cases own : id' = id
      · subst own
        simp only [UnorderedMap.find_insert,if_true,Option.some.injEq] at found
        rw [← found]; exact newcomer_awake _
      · simp only [UnorderedMap.find_insert,UnorderedMap.find_mapValues,if_neg own,Option.map_eq_some_iff] at found
        obtain ⟨t,found,rfl⟩ := found
        exact update_awake _ (awake.threads id' t found)
    · have other := others id' t found
      exact ⟨updateThreadClock (s.TS.size + 1) t,by simp [other,found],rfl⟩

theorem getLockState_awake (awake : s.Awake) (ran : getLockState cpp s m = some s') : s'.Awake ∧ SameEpochs s s' := by
  unfold getLockState at ran
  split at ran
  · cases ran; exact ⟨awake,sameEpochs_refl s⟩
  · obtain ⟨L,made,_,entries⟩ := newVectorClock_spec cpp [] s.NumThreads
    rw [made] at ran
    cases ran
    refine ⟨⟨awake.threads,UnorderedMap.insert_all awake.locks (fun i => ?_) m⟩,sameEpochs_refl s⟩
    rw [entries]
    exact TID_lane i

theorem getVarState_awake (lenient : cpp.Lenient) (awake : s.Awake) (ran : getVarState cpp s self addr isWrite = some s') :
    s'.Awake ∧ SameEpochs s s' := by
  unfold getVarState at ran
  split at ran
  · cases ran; exact ⟨awake,sameEpochs_refl s⟩
  · obtain ⟨s₁,registered,ran⟩ := bind_some ran
    obtain ⟨_,_,ran⟩ := bind_some ran
    cases ran
    obtain ⟨awake₁,same⟩ := getState_awake lenient awake registered
    exact ⟨⟨awake₁.threads,awake₁.locks⟩,same⟩

theorem evaluate_awake {left right : Runtime → Option Runtime} (awake : s.Awake)
    (keepsL : ∀ s s', s.Awake → left s = some s' → s'.Awake ∧ SameEpochs s s')
    (keepsR : ∀ s s', s.Awake → right s = some s' → s'.Awake ∧ SameEpochs s s')
    (ran : cpp.evaluate left right s = some s') : s'.Awake ∧ SameEpochs s s' := by
  unfold Cpp.evaluate at ran
  split at ran
  · obtain ⟨s₁,first,second⟩ := bind_some ran
    obtain ⟨awake₁,same₁⟩ := keepsL _ _ awake first
    obtain ⟨awake',same'⟩ := keepsR _ _ awake₁ second
    exact ⟨awake',sameEpochs_trans same₁ same'⟩
  · obtain ⟨s₁,first,second⟩ := bind_some ran
    obtain ⟨awake₁,same₁⟩ := keepsR _ _ awake first
    obtain ⟨awake',same'⟩ := keepsL _ _ awake₁ second
    exact ⟨awake',sameEpochs_trans same₁ same'⟩

theorem enter_awake (lenient : cpp.Lenient) (awake : s.Awake) {c : Call} (entered : c.enter cpp s = some s') :
    s'.Awake ∧ SameEpochs s s' := by
  have registers : ∀ id s s', s.Awake → getState cpp s id = some s' → s'.Awake ∧ SameEpochs s s' :=
    fun _ _ _ awake ran => getState_awake lenient awake ran
  cases c with
  | mk self callback =>
  cases callback with
  | threadCreate child => exact evaluate_awake awake (registers self) (registers child) entered
  | threadJoin child => exact evaluate_awake awake (registers self) (registers child) entered
  | threadLock lock => exact evaluate_awake awake (registers self) (fun _ _ => getLockState_awake) entered
  | threadUnlock lock => exact evaluate_awake awake (registers self) (fun _ _ => getLockState_awake) entered
  | access entry addr site => cases entered; exact ⟨awake,sameEpochs_refl s⟩

theorem access_awake (lenient : cpp.Lenient) (awake : s.Awake) (ran : perform cpp s (.access t kind a) = some (s',b)) :
    s'.Awake ∧ SameEpochs s s' := by
  have opens : ∀ isWrite s s', s.Awake → getVarState cpp s t a isWrite = some s' → s'.Awake ∧ SameEpochs s s' :=
    fun _ _ _ awake ran => getVarState_awake lenient awake ran
  have registers : ∀ s s', s.Awake → getState cpp s t = some s' → s'.Awake ∧ SameEpochs s s' :=
    fun _ _ awake ran => getState_awake lenient awake ran
  have writes : ∀ isWrite, callWrite cpp s t a isWrite = some (s',b) → s'.Awake ∧ SameEpochs s s' := by
    intro isWrite ran
    obtain ⟨s₁,evaluated,ran⟩ := bind_some ran
    obtain ⟨_,_,ran⟩ := bind_some ran
    obtain ⟨_,_,ran⟩ := bind_some ran
    obtain ⟨⟨_,_⟩,_,ran⟩ := bind_some ran
    cases ran
    obtain ⟨awake₁,same⟩ := evaluate_awake awake (opens isWrite) registers evaluated
    exact ⟨⟨awake₁.threads,awake₁.locks⟩,same⟩
  cases kind with
  | read =>
    obtain ⟨s₁,evaluated,ran⟩ := bind_some ran
    obtain ⟨_,_,ran⟩ := bind_some ran
    obtain ⟨_,_,ran⟩ := bind_some ran
    obtain ⟨⟨_,_⟩,_,ran⟩ := bind_some ran
    cases ran
    obtain ⟨awake₁,same⟩ := evaluate_awake awake (opens false) registers evaluated
    exact ⟨⟨awake₁.threads,awake₁.locks⟩,same⟩
  | write => exact writes true ran
  | update => exact writes false ran

end Registrations

-- On entering its ft_ operation, a callback finds the threads whose epoch is read
-- again with that epoch in their own slot, and none to be raised at the last clock.
structure Call.Ready (c : Call) (s : Runtime) : Prop where
  valid : ∀ id t, c.Rereads id → s.TS.find id = some t → t.Valid
  room : ∀ id t, c.Raises id → s.TS.find id = some t → CLOCK t.epoch ≠ 0xFFFFFF

section Callbacks
variable {cpp : Cpp} {s s' : Runtime} {t u self child : ThreadID} {st su st' su' : ThreadState}

theorem sle_refl (x : CInt) : x.sle x = true := BitVec.sle_iff_toInt_le.mpr (Int.le_refl _)

theorem insert_kept (found : s.TS.find t = some st) (order : st.epoch.sle st'.epoch = true) :
    ∀ id x, s.TS.find id = some x → ∃ x', (s.TS.insert t st').find id = some x' ∧ x.epoch.sle x'.epoch = true := by
  intro id x at_id
  by_cases own : id = t
  · subst own
    rw [found] at at_id
    cases at_id
    exact ⟨st',by simp,order⟩
  · exact ⟨x,by simp [own,at_id],sle_refl _⟩

theorem pair_kept (apart : self ≠ child) (found : s.TS.find self = some st) (foundU : s.TS.find child = some su)
    (order : st.epoch.sle st'.epoch = true) (orderU : su.epoch.sle su'.epoch = true) :
    ∀ id x, s.TS.find id = some x → ∃ x', ((s.TS.insert self st').insert child su').find id = some x' ∧ x.epoch.sle x'.epoch = true := by
  intro id x at_id
  have other : (s.TS.insert self st').find child = some su := by simp [Ne.symm apart,foundU]
  obtain ⟨x₁,at_id₁,first⟩ := insert_kept found order id x at_id
  obtain ⟨x',at_id',second⟩ := insert_kept (s := {s with TS := s.TS.insert self st'}) other orderU id x₁ at_id₁
  exact ⟨x',at_id',sle_trans first second⟩

theorem awake_insert (awake : s.Awake) (awake' : st'.Awake) : ({s with TS := s.TS.insert t st'} : Runtime).Awake :=
  ⟨UnorderedMap.insert_all awake.threads awake' t,awake.locks⟩

theorem awake_pair (awake : s.Awake) (awake' : st'.Awake) (awakeU' : su'.Awake) :
    ({s with TS := (s.TS.insert t st').insert u su'} : Runtime).Awake :=
  ⟨UnorderedMap.insert_all (UnorderedMap.insert_all awake.threads awake' t) awakeU' u,awake.locks⟩

theorem awake_lock {l : LockState} (awake : s.Awake) (lanes : Lanes l.L) : ({s with LS := s.LS.insert m l} : Runtime).Awake :=
  ⟨awake.threads,UnorderedMap.insert_all awake.locks lanes m⟩

theorem create_progress (lenient : cpp.Lenient) (awake : s.Awake) (ready : Call.Ready ⟨self,.threadCreate child⟩ s)
    (called : callFork cpp s self child = some s') : s'.Awake ∧ Progress ⟨self,.threadCreate child⟩ s s' := by
  obtain ⟨st,found,ran⟩ := bind_some called
  have found : s.TS.find self = some st := found
  have room := ready.room self st rfl found
  have awakeT := awake.threads self st found
  split at ran
  · rename_i own
    subst own
    obtain ⟨st',ranSelf,ran⟩ := bind_some ran
    cases ran
    obtain ⟨awake',epoch⟩ := self_progress awakeT (ready.valid self st rfl found) room ranSelf
    have now := awake_insert (t := self) awake awake'
    refine ⟨⟨now.threads,now.locks⟩,⟨insert_kept found (by rw [epoch]; exact sle_succ room),?_⟩⟩
    rintro id t rfl at_id
    rw [found] at at_id
    cases at_id
    exact ⟨st',by simp,epoch⟩
  · rename_i own
    obtain ⟨su,foundU,ran⟩ := bind_some ran
    obtain ⟨⟨st',su'⟩,ranFork,ran⟩ := bind_some ran
    cases ran
    have foundU : s.TS.find child = some su := foundU
    obtain ⟨awake',awakeU',epoch,order⟩ := fork_progress lenient awakeT (awake.threads child su foundU)
      (ready.valid child su rfl foundU) room ranFork
    have now := awake_pair (t := self) (u := child) awake awake' awakeU'
    have raised : st.epoch.sle st'.epoch = true := by rw [epoch]; exact sle_succ room
    refine ⟨⟨now.threads,now.locks⟩,⟨pair_kept own found foundU raised order,?_⟩⟩
    rintro id t rfl at_id
    rw [found] at at_id
    cases at_id
    exact ⟨st',by simp [own],epoch⟩

theorem join_call_progress (lenient : cpp.Lenient) (awake : s.Awake) (ready : Call.Ready ⟨self,.threadJoin child⟩ s)
    (called : callJoin cpp s self child = some s') : s'.Awake ∧ Progress ⟨self,.threadJoin child⟩ s s' := by
  obtain ⟨st,found,ran⟩ := bind_some called
  have found : s.TS.find self = some st := found
  have awakeT := awake.threads self st found
  have valid := ready.valid self st rfl found
  split at ran
  · rename_i own
    subst own
    obtain ⟨st',ranSelf,ran⟩ := bind_some ran
    cases ran
    have room := ready.room self st rfl found
    obtain ⟨awake',epoch⟩ := self_progress awakeT valid room ranSelf
    have now := awake_insert (t := self) awake awake'
    refine ⟨⟨now.threads,now.locks⟩,⟨insert_kept found (by rw [epoch]; exact sle_succ room),?_⟩⟩
    rintro id t rfl at_id
    rw [found] at at_id
    cases at_id
    exact ⟨st',by simp,epoch⟩
  · rename_i own
    obtain ⟨su,foundU,ran⟩ := bind_some ran
    obtain ⟨⟨st',su'⟩,ranJoin,ran⟩ := bind_some ran
    cases ran
    have foundU : s.TS.find child = some su := foundU
    have room := ready.room child su rfl foundU
    obtain ⟨awake',awakeU',order,epoch⟩ := join_progress lenient awakeT (awake.threads child su foundU) valid room ranJoin
    have now := awake_pair (t := self) (u := child) awake awake' awakeU'
    have raised : su.epoch.sle su'.epoch = true := by rw [epoch]; exact sle_succ room
    refine ⟨⟨now.threads,now.locks⟩,⟨pair_kept own found foundU order raised,?_⟩⟩
    rintro id t rfl at_id
    rw [foundU] at at_id
    cases at_id
    exact ⟨su',by simp,epoch⟩

theorem lock_progress {s₁ : Runtime} {lock : Address} (awake : s₁.Awake) (ready : Call.Ready ⟨self,.threadLock lock⟩ s₁)
    (entered : cpp.evaluate (getState cpp · self) (getLockState cpp · lock) s = some s₁)
    (called : tsanThreadLock cpp s self lock = some s') : s'.Awake ∧ Progress ⟨self,.threadLock lock⟩ s₁ s' := by
  unfold tsanThreadLock at called
  rw [entered,Option.bind_eq_bind,Option.bind_some] at called
  obtain ⟨st,found,ran⟩ := bind_some called
  obtain ⟨l,foundL,ran⟩ := bind_some ran
  obtain ⟨⟨st',l'⟩,acquired,ran⟩ := bind_some ran
  cases ran
  obtain ⟨awake',order,lanes⟩ := acquire_progress (awake.threads self st found) (ready.valid self st rfl found)
    (awake.locks lock l foundL) acquired
  exact ⟨awake_lock (awake_insert (t := self) awake awake') lanes,⟨insert_kept found order,fun _ _ none => none.elim⟩⟩

theorem unlock_progress {s₁ : Runtime} {lock : Address} (awake : s₁.Awake) (ready : Call.Ready ⟨self,.threadUnlock lock⟩ s₁)
    (entered : cpp.evaluate (getState cpp · self) (getLockState cpp · lock) s = some s₁)
    (called : tsanThreadUnlock cpp s self lock = some s') : s'.Awake ∧ Progress ⟨self,.threadUnlock lock⟩ s₁ s' := by
  unfold tsanThreadUnlock at called
  rw [entered,Option.bind_eq_bind,Option.bind_some] at called
  obtain ⟨st,found,ran⟩ := bind_some called
  obtain ⟨l,foundL,ran⟩ := bind_some ran
  obtain ⟨⟨st',l'⟩,released,ran⟩ := bind_some ran
  cases ran
  have room := ready.room self st rfl found
  obtain ⟨awake',epoch,lanes⟩ := release_progress (awake.threads self st found) (ready.valid self st rfl found) room released
  refine ⟨awake_lock (awake_insert (t := self) awake awake') lanes,⟨insert_kept found (by rw [epoch]; exact sle_succ room),?_⟩⟩
  rintro id t rfl at_id
  rw [found] at at_id
  cases at_id
  exact ⟨st',by simp,epoch⟩

theorem invoke_progress (lenient : cpp.Lenient) (awake : s.Awake) {c : Call} {s₁ : Runtime} (entered : c.enter cpp s = some s₁)
    (ready : c.Ready s₁) (invoked : c.invoke cpp s = some (s',report)) : s'.Awake ∧ SameEpochs s s₁ ∧ Progress c s₁ s' := by
  obtain ⟨awake₁,same⟩ := enter_awake lenient awake entered
  cases c with
  | mk self callback =>
  cases callback with
  | threadCreate child =>
    obtain ⟨s'',called,equal⟩ := Option.map_eq_some_iff.mp invoked
    cases equal
    unfold tsanThreadCreate at called
    simp only [Call.enter] at entered
    rw [entered,Option.bind_eq_bind,Option.bind_some] at called
    obtain ⟨awake',progress⟩ := create_progress lenient awake₁ ready called
    exact ⟨awake',same,progress⟩
  | threadJoin child =>
    obtain ⟨s'',called,equal⟩ := Option.map_eq_some_iff.mp invoked
    cases equal
    unfold tsanThreadJoin at called
    simp only [Call.enter] at entered
    rw [entered,Option.bind_eq_bind,Option.bind_some] at called
    obtain ⟨awake',progress⟩ := join_call_progress lenient awake₁ ready called
    exact ⟨awake',same,progress⟩
  | threadLock lock =>
    obtain ⟨s'',called,equal⟩ := Option.map_eq_some_iff.mp invoked
    cases equal
    obtain ⟨awake',progress⟩ := lock_progress awake₁ ready entered called
    exact ⟨awake',same,progress⟩
  | threadUnlock lock =>
    obtain ⟨s'',called,equal⟩ := Option.map_eq_some_iff.mp invoked
    cases equal
    obtain ⟨awake',progress⟩ := unlock_progress awake₁ ready entered called
    exact ⟨awake',same,progress⟩
  | access entry addr site =>
    cases entered
    rw [invoke_event] at invoked
    obtain ⟨⟨s'',b⟩,performed,equal⟩ := Option.map_eq_some_iff.mp invoked
    cases equal
    have quiet : s'.Awake ∧ SameEpochs s s' := by
      simp only [Call.event] at performed
      split at performed
      · exact access_awake lenient awake performed
      · cases performed; exact ⟨awake,sameEpochs_refl s⟩
    refine ⟨quiet.1,same,⟨fun id t found => ?_,fun _ _ none => none.elim⟩⟩
    obtain ⟨t',found',epoch⟩ := quiet.2 id t found
    exact ⟨t',found',by rw [epoch]; exact sle_refl _⟩

end Callbacks

def Steady (cpp : Cpp) (calls : List Call) : Prop :=
  ∀ k c s reports s₁, calls[k]? = some c → invokeAll cpp .empty (calls.take k) = some (s,reports) →
    c.enter cpp s = some s₁ → c.Ready s₁

section Runs
variable {cpp : Cpp} {s s' : Runtime} {calls : List Call}

theorem invokeAll_snoc {c : Call} (ran : invokeAll cpp s (calls ++ [c]) = some (s',reports)) :
    ∃ s₁ earlier report, invokeAll cpp s calls = some (s₁,earlier) ∧ c.invoke cpp s₁ = some (s',report) := by
  induction calls generalizing s reports with
  | nil =>
    obtain ⟨⟨s₁,report⟩,invoked,rest⟩ := bind_some ran
    cases rest
    exact ⟨s,[],report,rfl,invoked⟩
  | cons d rest ih =>
    obtain ⟨⟨s₁,report⟩,first,ran⟩ := bind_some ran
    obtain ⟨⟨s₂,later⟩,second,ran⟩ := bind_some ran
    cases ran
    obtain ⟨s₃,earlier,last,ran,invoked⟩ := ih second
    exact ⟨s₃,report :: earlier,last,by simp [invokeAll,first,ran],invoked⟩

theorem enter_defined {c : Call} (invoked : c.invoke cpp s = some (s',report)) : ∃ s₁, c.enter cpp s = some s₁ := by
  cases c with
  | mk self callback =>
  cases callback with
  | access entry addr site => exact ⟨s,rfl⟩
  | _ =>
    obtain ⟨_,called,_⟩ := Option.map_eq_some_iff.mp invoked
    obtain ⟨s₁,entered,_⟩ := bind_some called
    exact ⟨s₁,entered⟩

theorem awake_empty : Runtime.empty.Awake :=
  ⟨fun _ _ found => (by cases found),fun _ _ found => (by cases found)⟩

theorem steady_awake (lenient : cpp.Lenient) (steady : Steady cpp calls) (k : ℕ)
    (ran : invokeAll cpp .empty (calls.take k) = some (s,reports)) : s.Awake := by
  induction k generalizing s reports with
  | zero => cases ran; exact awake_empty
  | succ k ih =>
    cases found : calls[k]? with
    | none =>
      rw [List.take_add_one,found,Option.toList_none,List.append_nil] at ran
      exact ih ran
    | some c =>
      rw [List.take_add_one,found] at ran
      obtain ⟨s₁,earlier,report,before,invoked⟩ := invokeAll_snoc ran
      obtain ⟨s₂,entered⟩ := enter_defined invoked
      exact (invoke_progress lenient (ih before) entered (steady k c s₁ earlier s₂ found before entered) invoked).1

end Runs

-- In a run whose callbacks all enter ready, no callback lowers an epoch, those that
-- are to raise one raise it by exactly one, and no thread is ever at clock 0.
theorem epoch_progress {cpp : Cpp} (lenient : cpp.Lenient) {calls : List Call} (steady : Steady cpp calls) {k : ℕ} {c : Call}
    {s s₁ s' : Runtime} {reports : List (Option Report)} {report : Option Report} (found : calls[k]? = some c)
    (ran : invokeAll cpp .empty (calls.take k) = some (s,reports)) (entered : c.enter cpp s = some s₁)
    (invoked : c.invoke cpp s = some (s',report)) :
    SameEpochs s s₁ ∧ Progress c s₁ s' ∧ (∀ id t, s.TS.find id = some t → 1 ≤ CLOCK t.epoch) ∧
      ∀ id t, s'.TS.find id = some t → 1 ≤ CLOCK t.epoch := by
  have awake := steady_awake lenient steady k ran
  obtain ⟨awake',same,progress⟩ := invoke_progress lenient awake entered (steady k c s reports s₁ found ran entered) invoked
  exact ⟨same,progress,fun id t found => (awake.threads id t found).clock,fun id t found => (awake'.threads id t found).clock⟩

-- The arguments are evaluated right to left, and the slot past the end of a vector
-- reads as the epoch of its thread after one step.
def rightToLeft : Cpp := ⟨fun _ i => some (lane i + 2),fun V _ _ => some V,.rightFirst⟩

def createThenLock : List Call := [⟨1,.threadCreate 2⟩,⟨2,.threadLock 8⟩,⟨2,.threadUnlock 8⟩]

theorem entered_find {cpp : Cpp} {calls : List Call} {c : Call} (ran : invokeAll cpp .empty (calls.take k) = some (s,reports))
    (entered : c.enter cpp s = some s₁) (id : ThreadID) : s₁.TS.find id =
      (invokeAll cpp .empty (calls.take k)).bind fun r => (c.enter cpp r.1).bind fun s => s.TS.find id := by
  rw [ran,Option.bind_some,entered,Option.bind_some]

theorem createThenLock_steady : Steady rightToLeft createThenLock := by
  intro k c s reports s₁ found ran entered
  have entry := entered_find ran entered
  rcases k with _ | _ | _ | k
  · cases found
    have parent : s₁.TS.find 1 = some ⟨2,[lane 0,lane 1],lane 2 + 1⟩ := by rw [entry]; decide
    have child : s₁.TS.find 2 = some ⟨1,[lane 0,lane 1 + 1],lane 1 + 1⟩ := by rw [entry]; decide
    constructor
    · rintro id t rfl at_id
      cases child.symm.trans at_id
      exact ⟨by decide,by decide⟩
    · rintro id t rfl at_id
      cases parent.symm.trans at_id
      decide
  · cases found
    have owner : s₁.TS.find 2 = some ⟨1,[lane 0,lane 1 + 1],lane 1 + 1⟩ := by rw [entry]; decide
    refine ⟨?_,fun _ _ none => none.elim⟩
    rintro id t rfl at_id
    cases owner.symm.trans at_id
    exact ⟨by decide,by decide⟩
  · cases found
    have owner : s₁.TS.find 2 = some ⟨1,[lane 0,lane 1 + 1,lane 2],lane 1 + 1⟩ := by rw [entry]; decide
    constructor
    · rintro id t rfl at_id
      cases owner.symm.trans at_id
      exact ⟨by decide,by decide⟩
    · rintro id t rfl at_id
      cases owner.symm.trans at_id
      decide
  · cases found

theorem epoch_progress_unlock : ∃ s reports s₁ s' report,
    invokeAll rightToLeft .empty (createThenLock.take 2) = some (s,reports) ∧
    Call.enter rightToLeft s ⟨2,.threadUnlock 8⟩ = some s₁ ∧ Call.invoke rightToLeft s ⟨2,.threadUnlock 8⟩ = some (s',report) ∧
    SameEpochs s s₁ ∧ Progress ⟨2,.threadUnlock 8⟩ s₁ s' ∧ (∀ id t, s.TS.find id = some t → 1 ≤ CLOCK t.epoch) ∧
    ∀ id t, s'.TS.find id = some t → 1 ≤ CLOCK t.epoch := by
  have ran := (Option.some_get (x := invokeAll rightToLeft .empty (createThenLock.take 2)) (by decide)).symm
  have entered := (Option.some_get (x := Call.enter rightToLeft ((invokeAll rightToLeft .empty (createThenLock.take 2)).get
    (by decide)).1 ⟨2,.threadUnlock 8⟩) (by decide)).symm
  have invoked := (Option.some_get (x := Call.invoke rightToLeft ((invokeAll rightToLeft .empty (createThenLock.take 2)).get
    (by decide)).1 ⟨2,.threadUnlock 8⟩) (by decide)).symm
  exact ⟨_,_,_,_,_,ran,entered,invoked,
    epoch_progress (k := 2) (fun _ _ _ _ => rfl) createThenLock_steady rfl ran entered invoked⟩

-- Left to right, the first lock of a program takes its thread from clock 1 to clock 0.
-- Right to left, so does the first lock of a thread that has created another one.
theorem first_lock_lowers :
    ((Call.enter (.lenient .leftFirst) .empty ⟨1,.threadLock 8⟩).bind fun s => s.TS.find 1).map (·.epoch) = some (lane 1 + 1) ∧
    ((invokeAll (.lenient .leftFirst) .empty [⟨1,.threadLock 8⟩]).bind fun r => r.1.TS.find 1).map (·.epoch) = some (lane 1) ∧
    CLOCK (lane 1) = 0 ∧
    ((invokeAll rightToLeft .empty [⟨1,.threadCreate 2⟩]).bind fun r => r.1.TS.find 1).map (·.epoch) = some (lane 2 + 2) ∧
    ((invokeAll rightToLeft .empty [⟨1,.threadCreate 2⟩,⟨1,.threadLock 8⟩]).bind fun r => r.1.TS.find 1).map (·.epoch) =
      some (lane 2) ∧ CLOCK (lane 2) = 0 := by decide

end EmbedSanitizer
