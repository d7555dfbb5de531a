import EmbedSanitizer.AccessSteps
import EmbedSanitizer.PartialRuns

namespace EmbedSanitizer
open PartialRuns

-- A call of one of the checks on the state of one address, and how many slots
-- NumThreads counts by then.
structure AccessCall where
  isWrite : Bool
  t : ThreadState
  NumThreads : ℕ

def AccessCall.run (cpp : Cpp) (x : VarState) (c : AccessCall) : Option (VarState × Bool) :=
  if c.isWrite then ftWrite cpp x c.t else ftRead cpp c.NumThreads x c.t

structure AccessCall.Admitted (n : ℕ) (c : AccessCall) : Prop where
  later : n ≤ c.NumThreads
  registered : c.t.tid < c.NumThreads
  room : c.NumThreads ≤ c.t.C.length
  entries : InLanes c.t.C
  epoch : c.t.C[c.t.tid]? = some c.t.epoch

def AllAdmitted (n : ℕ) : List AccessCall → Prop
  | [] => True
  | c :: rest => c.Admitted n ∧ AllAdmitted c.NumThreads rest

structure VarState.Within (n : ℕ) (x : VarState) : Prop where
  write : TID x.W < n
  read : x.R ≠ READ_SHARED → TID x.R < n
  slots : InLanes x.Rvc

def Recorded (x : VarState) (e : CInt) : Prop :=
  if x.R = READ_SHARED then ∃ i : ℕ, x.Rvc[i]? = some e ∧ CLOCK e ≠ 0 else e = x.R

-- The read by t is recorded, and any other only dropped where t has seen it.
structure ReadKept (x : VarState) (t : ThreadState) (x' : VarState) : Prop where
  own : x'.R = t.epoch ∨ (x'.R = READ_SHARED ∧ x'.Rvc[t.tid]? = some t.epoch)
  others : ∀ e, Recorded x e → TID e ≠ t.tid → Recorded x' e ∨ ∃ c, t.C[TID e]? = some c ∧ e.sle c = true

-- A read that goes to a vector made earlier finds there the slots that it stores to.
structure AccessCall.Slotted (x : VarState) (c : AccessCall) : Prop where
  shared : c.isWrite = false → x.Passes c.t → x.R = READ_SHARED → c.t.tid < x.Rvc.length
  share : c.isWrite = false → x.Passes c.t → x.Unseen c.t → x.Rvc.length ≠ 0 → c.t.tid < x.Rvc.length ∧ TID x.R < x.Rvc.length

section Steps
variable {x x' : VarState} {t : ThreadState} {c : AccessCall} {V : VectorClock}

theorem inLanes_set {i : ℕ} (lanes : InLanes V) (own : TID e = i) : InLanes (V.set i e) := by
  intro j y found
  by_cases same : i = j
  · subst same
    rw [List.getElem?_set_self'] at found
    obtain ⟨_,_,rfl⟩ := Option.map_eq_some_iff.mp found
    exact own
  · rw [List.getElem?_set_ne same] at found
    exact lanes j y found

theorem AccessCall.Admitted.valid (admitted : c.Admitted n) : c.t.Valid := by
  have room := Nat.lt_of_lt_of_le admitted.registered admitted.room
  have epoch := admitted.epoch
  rw [meaning_in room] at epoch
  exact ⟨room,(Option.some.inj epoch).symm⟩

theorem AccessCall.Admitted.tid_epoch (admitted : c.Admitted n) : TID c.t.epoch = c.t.tid :=
  admitted.entries _ _ admitted.epoch

theorem slotted_room (within : x.Within n) (admitted : c.Admitted n) (reads : c.isWrite = false) (slotted : c.Slotted x) :
    ReadRoom c.NumThreads x c.t where
  write := Nat.lt_of_lt_of_le within.write (Nat.le_trans admitted.later admitted.room)
  read := fun unshared => Nat.lt_of_lt_of_le (within.read unshared) (Nat.le_trans admitted.later admitted.room)
  shared := slotted.shared reads
  share := by
    intro passes unseen
    unfold VarState.slots
    split
    · exact ⟨admitted.registered,Nat.lt_of_lt_of_le (within.read unseen.1) admitted.later⟩
    · rename_i allocated
      exact slotted.share reads passes unseen allocated

theorem written_room (within : x.Within n) (admitted : c.Admitted n) : WriteRoom x c.t where
  write := Nat.lt_of_lt_of_le within.write (Nat.le_trans admitted.later admitted.room)
  read := fun unshared => Nat.lt_of_lt_of_le (within.read unshared) (Nat.le_trans admitted.later admitted.room)

theorem slots_inLanes (within : x.Within n) (admitted : c.Admitted n) (length : V.length = x.slots c.NumThreads)
    (entries : ∀ i, meaning V i = meaning x.Rvc i) : InLanes V := by
  obtain ⟨lanes,short⟩ := inLanes_iff.mp within.slots
  refine inLanes_iff.mpr ⟨fun i => by rw [entries]; exact lanes i,?_⟩
  rw [length,VarState.slots]
  split
  · exact Nat.le_trans admitted.room (inLanes_iff.mp admitted.entries).2
  · exact short

theorem read_within (within : x.Within n) (admitted : c.Admitted n) (step : ReadStep c.NumThreads x c.t x') : x'.Within c.NumThreads := by
  have own := admitted.tid_epoch
  have write := Nat.lt_of_lt_of_le within.write admitted.later
  have read := fun unshared => Nat.lt_of_lt_of_le (within.read unshared) admitted.later
  have now : TID c.t.epoch < c.NumThreads := own ▸ admitted.registered
  cases step with
  | racy _ => exact ⟨write,read,within.slots⟩
  | same _ => exact ⟨write,read,within.slots⟩
  | shared _ _ => exact ⟨write,read,inLanes_set within.slots own⟩
  | exclusive _ _ => exact ⟨write,fun _ => now,within.slots⟩
  | share unseen length entries _ _ =>
    have lanes := slots_inLanes within admitted length entries
    exact ⟨write,fun unshared => absurd rfl unshared,inLanes_set (inLanes_set lanes rfl) own⟩

theorem write_within (within : x.Within n) (admitted : c.Admitted n) (step : WriteStep x c.t x') : x'.Within c.NumThreads := by
  have own := admitted.tid_epoch
  have write := Nat.lt_of_lt_of_le within.write admitted.later
  have read := fun unshared => Nat.lt_of_lt_of_le (within.read unshared) admitted.later
  have now : TID c.t.epoch < c.NumThreads := own ▸ admitted.registered
  cases step with
  | racy _ => exact ⟨write,read,within.slots⟩
  | same _ => exact ⟨write,read,within.slots⟩
  | exclusive _ => exact ⟨now,read,within.slots⟩
  | shared _ =>
    refine ⟨now,fun _ => ?_,within.slots⟩
    rw [TID_lane,Nat.mod_eq_of_lt (TID_lt _)]
    exact now

theorem read_kept (within : x.Within n) (admitted : c.Admitted n) (quiet : x.Racy = false) (step : ReadStep c.NumThreads x c.t x') :
    ReadKept x c.t x' := by
  have own := admitted.tid_epoch
  cases step with
  | racy racy => cases quiet.symm.trans racy
  | same same => exact ⟨.inl same,fun e recorded _ => .inl recorded⟩
  | shared shared room =>
    refine ⟨.inr ⟨shared,by simp [room]⟩,fun e recorded other => .inl ?_⟩
    unfold Recorded at recorded ⊢
    rw [if_pos shared] at recorded
    obtain ⟨i,found,positive⟩ := recorded
    have apart : c.t.tid ≠ i := by
      rw [← within.slots i e found]
      exact Ne.symm other
    rw [if_pos shared]
    exact ⟨i,by rw [List.getElem?_set_ne apart,found],positive⟩
  | exclusive unshared seen =>
    refine ⟨.inl rfl,fun e recorded _ => .inr ?_⟩
    unfold Recorded at recorded
    rw [if_neg unshared] at recorded
    subst recorded
    have inside := Nat.lt_of_lt_of_le (within.read unshared) (Nat.le_trans admitted.later admitted.room)
    exact ⟨_,meaning_in inside,seen⟩
  | @share V unseen length entries room earlier =>
    refine ⟨.inr ⟨rfl,by simp [room]⟩,fun e recorded other => .inl ?_⟩
    unfold Recorded at recorded ⊢
    rw [if_neg unseen.1] at recorded
    subst recorded
    have lanes : TID x.R = TID (meaning c.t.C (TID x.R)) := by
      rw [(inLanes_iff.mp admitted.entries).1]
      exact (Nat.mod_eq_of_lt (TID_lt _)).symm
    have positive : CLOCK x.R ≠ 0 := by
      intro zero
      exact unseen.2 ((sle_lane lanes).mpr (zero ▸ Nat.zero_le _))
    rw [if_pos rfl]
    refine ⟨TID x.R,?_,positive⟩
    rw [List.getElem?_set_ne (Ne.symm other)]
    simp [earlier]

end Steps

section Runs
variable {cpp : Cpp} {x : VarState} {c : AccessCall} {calls : List AccessCall}

theorem call_kept (cpp : Cpp) (within : x.Within n) (admitted : c.Admitted n) (slotted : c.Slotted x) : ∃ x' verdict, c.run cpp x = some (x',verdict) ∧
    x'.Within c.NumThreads ∧ (c.isWrite = false → x.Racy = false → ReadKept x c.t x') := by
  cases writes : c.isWrite with
  | true =>
    obtain ⟨x',b,ran,step,_⟩ := write_step cpp (written_room within admitted)
    exact ⟨x',b,by simp [AccessCall.run,writes,ran],write_within within admitted step,by simp⟩
  | false =>
    obtain ⟨x',b,ran,step,_⟩ := read_step cpp (slotted_room within admitted writes slotted)
    exact ⟨x',b,by simp [AccessCall.run,writes,ran],read_within within admitted step,fun _ quiet => read_kept within admitted quiet step⟩

def KeepsRead (cpp : Cpp) (x : VarState) (c : AccessCall) : Prop :=
  c.isWrite = false → x.Racy = false → ∃ x' verdict, c.run cpp x = some (x',verdict) ∧ ReadKept x c.t x'

end Runs

theorem opened_within {t : ThreadState} (registered : t.tid < n) (own : TID t.epoch = t.tid) :
    VarState.Within n ⟨lane t.tid,t.epoch,[],false⟩ ∧ VarState.Within n ⟨t.epoch,lane t.tid,[],false⟩ := by
  have few : t.tid < 256 := own ▸ TID_lt t.epoch
  have opened : TID (lane t.tid) < n := by rwa [TID_lane,Nat.mod_eq_of_lt few]
  have now : TID t.epoch < n := own ▸ registered
  exact ⟨⟨opened,fun _ => now,fun i x none => by cases none⟩,⟨now,fun _ => opened,fun i x none => by cases none⟩⟩

-- While every read finds its slot, no read of the address is lost.
theorem no_read_lost (cpp : Cpp) {x : VarState} (within : x.Within n) {calls : List AccessCall} (admitted : AllAdmitted n calls)
    (slotted : EachStep (AccessCall.run cpp) (fun x c => c.Slotted x) x calls) :
    (∃ x' verdicts, runAll (AccessCall.run cpp) x calls = some (x',verdicts)) ∧ EachStep (AccessCall.run cpp) (KeepsRead cpp) x calls := by
  induction calls generalizing x n with
  | nil => exact ⟨⟨x,[],rfl⟩,eachStep_nil _⟩
  | cons c rest ih =>
    obtain ⟨now,later⟩ := eachStep_cons.mp slotted
    obtain ⟨admits,admitted⟩ := admitted
    obtain ⟨x₁,b,ran,within₁,kept⟩ := call_kept cpp within admits now
    obtain ⟨⟨x',bs,rest_ran⟩,rest_kept⟩ := ih within₁ admitted (later x₁ b ran)
    refine ⟨⟨x',b :: bs,runAll_cons.mpr ⟨x₁,b,bs,ran,rest_ran,rfl⟩⟩,eachStep_cons.mpr ⟨?_,fun x₂ b₂ ran₂ => ?_⟩⟩
    · exact fun reads quiet => ⟨x₁,b,ran,kept reads quiet⟩
    · cases ran.symm.trans ran₂
      exact rest_kept

-- Threads 2 and 3 read an address that thread 1 has opened, thread 1 writes to it,
-- and both read again: the vector of the readers is made once, for four slots.
def sharedReads : List AccessCall :=
  [⟨false,⟨2,[lane 0,lane 1,lane 2 + 1,lane 3],lane 2 + 1⟩,4⟩,⟨false,⟨3,[lane 0,lane 1,lane 2,lane 3 + 1],lane 3 + 1⟩,4⟩,
    ⟨true,⟨1,[lane 0,lane 1 + 1,lane 2,lane 3],lane 1 + 1⟩,4⟩,⟨false,⟨2,[lane 0,lane 1,lane 2 + 2,lane 3],lane 2 + 2⟩,4⟩,
    ⟨false,⟨3,[lane 0,lane 1,lane 2,lane 3 + 2],lane 3 + 2⟩,4⟩]

theorem sharedReads_admitted : AllAdmitted 3 sharedReads := by
  refine ⟨?_,?_,?_,?_,?_,trivial⟩ <;> exact ⟨by decide,by decide,by decide,by decide,by decide⟩

theorem slotted_of_lengths {x : VarState} {c : AccessCall} (own : c.t.tid < x.Rvc.length) (earlier : TID x.R < x.Rvc.length) : c.Slotted x :=
  ⟨fun _ _ _ => own,fun _ _ _ _ => ⟨own,earlier⟩⟩

theorem sharedReads_slotted : EachStep (AccessCall.run (.checked .leftFirst)) (fun x c => c.Slotted x) ⟨lane 1,lane 1 + 1,[],false⟩
    sharedReads := by
  refine eachStep_cons.mpr ⟨⟨fun _ _ shared => absurd shared (by decide),fun _ _ _ allocated => absurd rfl allocated⟩,fun x b ran => ?_⟩
  cases ran.symm.trans (show _ = some (⟨lane 1,READ_SHARED,[lane 0,lane 1 + 1,lane 2 + 1,lane 3],false⟩,false) by decide)
  refine eachStep_cons.mpr ⟨⟨fun _ _ _ => by decide,fun _ _ unseen => absurd rfl unseen.1⟩,fun x b ran => ?_⟩
  cases ran.symm.trans (show _ = some (⟨lane 1,READ_SHARED,[lane 0,lane 1 + 1,lane 2 + 1,lane 3 + 1],false⟩,false) by decide)
  refine eachStep_cons.mpr ⟨⟨fun reads => (by cases reads),fun reads => (by cases reads)⟩,fun x b ran => ?_⟩
  cases ran.symm.trans (show _ = some (⟨lane 1 + 1,lane 1,[lane 0,lane 1 + 1,lane 2 + 1,lane 3 + 1],false⟩,true) by decide)
  refine eachStep_cons.mpr ⟨slotted_of_lengths (by decide) (by decide),fun x b ran => ?_⟩
  cases ran.symm.trans (show _ = some (⟨lane 1 + 1,lane 2 + 2,[lane 0,lane 1 + 1,lane 2 + 1,lane 3 + 1],false⟩,true) by decide)
  exact eachStep_cons.mpr ⟨slotted_of_lengths (by decide) (by decide),fun _ _ _ => eachStep_nil _⟩

theorem no_read_lost_shared : (∃ x' verdicts, runAll (AccessCall.run (.checked .leftFirst)) ⟨lane 1,lane 1 + 1,[],false⟩ sharedReads =
      some (x',verdicts)) ∧
    EachStep (AccessCall.run (.checked .leftFirst)) (KeepsRead (.checked .leftFirst)) ⟨lane 1,lane 1 + 1,[],false⟩ sharedReads :=
  no_read_lost (.checked .leftFirst) (opened_within (n := 3) (t := ⟨1,[lane 0,lane 1 + 1],lane 1 + 1⟩) (by decide) (by decide)).1
    sharedReads_admitted sharedReads_slotted

def lateReads : List AccessCall :=
  [⟨false,⟨2,[lane 0,lane 1,lane 2 + 1],lane 2 + 1⟩,3⟩,⟨false,⟨3,[lane 0,lane 1,lane 2,lane 3 + 1],lane 3 + 1⟩,4⟩]

theorem late_read_lost : VarState.Within 3 ⟨lane 1,lane 1 + 1,[],false⟩ ∧ AllAdmitted 3 lateReads ∧
    runAll (AccessCall.run (.checked .leftFirst)) ⟨lane 1,lane 1 + 1,[],false⟩ lateReads = none ∧
    ¬ EachStep (AccessCall.run (.lenient .leftFirst)) (KeepsRead (.lenient .leftFirst)) ⟨lane 1,lane 1 + 1,[],false⟩ lateReads := by
  refine ⟨⟨by decide,by decide,by decide⟩,⟨⟨by decide,by decide,by decide,by decide,by decide⟩,
    ⟨by decide,by decide,by decide,by decide,by decide⟩,trivial⟩,by decide,fun each => ?_⟩
  obtain ⟨x',b,ran,kept⟩ := each 1 _ ⟨lane 1,READ_SHARED,[lane 0,lane 1 + 1,lane 2 + 1],false⟩ [false] rfl (by decide) rfl rfl
  have same : some (x',b) = some (⟨lane 1,READ_SHARED,[lane 0,lane 1 + 1,lane 2 + 1],false⟩,false) := by
    rw [← ran]
    decide
  cases same
  rcases kept.own with epoch | ⟨_,slot⟩
  · exact absurd epoch (by decide)
  · exact absurd slot (by decide)

end EmbedSanitizer
