import EmbedSanitizer.EpochProgress
import EmbedSanitizer.Preparation

namespace EmbedSanitizer

def Unchanged (s s' : Runtime) (id : ThreadID) : Prop :=
  ∀ other t, other ≠ id → s.TS.find other = some t → ∃ t', s'.TS.find other = some t' ∧ t'.tid = t.tid ∧ t'.epoch = t.epoch ∧
    ∀ i, meaning t'.C i = meaning t.C i

-- Every thread has its own slot, or a number past the slots that one more thread adds.
def OwnSlots (s : Runtime) : Prop := ∀ other t, s.TS.find other = some t → t.tid < t.C.length ∨ s.TS.size + 1 ≤ t.tid

section Registrations
variable {cpp : Cpp} {s s' : Runtime} {id other : ThreadID} {t : ThreadState}

theorem grown_iff (n : ℕ) (t : ThreadState) :
    (∀ i, meaning (updateThreadClock n t).C i = meaning t.C i) ↔ t.tid < t.C.length ∨ n ≤ t.tid := by
  constructor
  · intro same
    by_contra lacks
    obtain ⟨outside,added⟩ := not_or.mp lacks
    have slot := same t.tid
    have before : meaning t.C t.tid = lane t.tid := by
      unfold meaning; rw [List.getElem?_eq_none (by omega)]; rfl
    rw [meaning_grown,if_pos ⟨rfl,by omega,by omega⟩,before] at slot
    exact absurd slot (by simp)
  · intro has i
    rw [meaning_grown,if_neg (by omega)]

theorem getState_others (ran : getState cpp s id = some s') (absent : s.TS.find id = none) (different : other ≠ id)
    (found : s.TS.find other = some t) : s'.TS.find other = some (updateThreadClock (s.TS.size + 1) t) := by
  rw [getState_absent absent] at ran
  obtain ⟨C,_,same⟩ := Option.map_eq_some_iff.mp ran
  cases same
  simp [different,found]

-- A registration leaves the clocks of the others alone exactly when each of them
-- has its own slot, which the thread registered last has not.
theorem unchanged_iff (ran : getState cpp s id = some s') : Unchanged s s' id ↔ s.TS.find id ≠ none ∨ OwnSlots s := by
  cases known : s.TS.find id with
  | some u =>
    rw [getState_registered cpp ⟨u,known⟩] at ran
    cases ran
    exact iff_of_true (fun _ t _ found => ⟨t,found,rfl,rfl,fun _ => rfl⟩) (.inl (by simp))
  | none =>
    rw [or_iff_right (by simp)]
    constructor
    · intro unchanged other t found
      have different : other ≠ id := by rintro rfl; cases known.symm.trans found
      obtain ⟨t',found',_,_,same⟩ := unchanged other t different found
      rw [getState_others ran known different found] at found'
      cases found'
      exact (grown_iff _ t).mp same
    · intro slots other t different found
      exact ⟨_,getState_others ran known different found,rfl,rfl,(grown_iff _ t).mpr (slots other t found)⟩

theorem getState_returns (stores : ∀ V i x, (cpp.store V i x).isSome) (s : Runtime) (id : ThreadID) :
    ∃ s', getState cpp s id = some s' := by
  cases known : s.TS.find id with
  | some u => exact ⟨s,getState_registered cpp ⟨u,known⟩⟩
  | none =>
    rw [getState_absent known]
    obtain ⟨C,stored⟩ := Option.isSome_iff_exists.mp (stores (newcomer (s.TS.size + 1)).C (s.TS.size + 1) (lane (s.TS.size + 1) + 1))
    rw [stored]
    exact ⟨_,rfl⟩

theorem prepared_slots (prepared : s.Prepared) : OwnSlots s := fun other t found =>
  .inl (by rw [prepared.sizes other t found]; exact (prepared.tids other t found).2.2)

end Registrations

-- What the operations on vectors of any lengths do to the unbounded clocks that
-- these stand for.
structure Growable (cpp : Cpp) (t u : ThreadState) (lock : LockState) : Prop where
  acquire : ∃ t' lock', ftAcquire cpp t lock = some (t',lock') ∧ t'.tid = t.tid ∧ t'.Valid ∧
    (∀ i, meaning t'.C i = maxInt (meaning t.C i) (meaning lock.L i)) ∧ ∀ i, meaning lock'.L i = meaning lock.L i
  release : ∃ t' lock', ftRelease cpp t lock = some (t',lock') ∧ t'.tid = t.tid ∧ t'.Valid ∧
    (∀ i, meaning lock'.L i = meaning t.C i) ∧ ∀ i, meaning t'.C i = if i = t.tid then meaning t.C i + 1 else meaning t.C i
  fork : ∃ t' u', ftFork cpp t u = some (t',u') ∧ t'.tid = t.tid ∧ u'.tid = u.tid ∧ t'.Valid ∧ u'.Valid ∧
    (∀ i, meaning u'.C i = maxInt (meaning u.C i) (meaning t.C i)) ∧
    ∀ i, meaning t'.C i = if i = t.tid then meaning t.C i + 1 else meaning t.C i
  join : ∃ t' u', ftJoin cpp t u = some (t',u') ∧ t'.tid = t.tid ∧ u'.tid = u.tid ∧ t'.Valid ∧ u'.Valid ∧
    (∀ i, meaning t'.C i = maxInt (meaning t.C i) (meaning u.C i)) ∧
    ∀ i, meaning u'.C i = if i = u.tid then meaning u.C i + 1 else meaning u.C i
  self : ∃ t', ftSelf cpp t = some t' ∧ t'.tid = t.tid ∧ t'.Valid ∧
    ∀ i, meaning t'.C i = if i = t.tid then meaning t.C i + 1 else meaning t.C i

section Laws
variable {cpp : Cpp} {t u : ThreadState}

theorem ticked_slot {t' : ThreadState} (ticked : ∀ i, meaning t'.C i = if i = t.tid then meaning t.C t.tid + 1 else meaning t.C i) (i : ℕ) :
    meaning t'.C i = if i = t.tid then meaning t.C i + 1 else meaning t.C i := by
  rw [ticked]
  split
  · rename_i own; rw [own]
  · rfl

theorem growable (valid : t.Valid) (validU : u.Valid) (lock : LockState) : Growable cpp t u lock where
  acquire := by
    obtain ⟨t',lock',ran,tid,valid',_,joined,kept⟩ := ftAcquire_spec cpp lock valid.room
    exact ⟨t',lock',ran,tid,valid',joined,kept⟩
  release := by
    obtain ⟨t',lock',ran,tid,valid',_,ticked,copied⟩ := ftRelease_spec cpp lock valid.room
    exact ⟨t',lock',ran,tid,valid',copied,ticked_slot ticked⟩
  fork := by
    obtain ⟨t',u',ran,tid,tidU,valid',validU',_,_,ticked,joined⟩ := ftFork_spec cpp valid.room validU.room
    rw [valid.epoch] at ticked
    exact ⟨t',u',ran,tid,tidU,valid',validU',joined,ticked_slot ticked⟩
  join := by
    obtain ⟨t',u',ran,tid,tidU,valid',validU',_,_,joined,ticked⟩ := ftJoin_spec cpp valid.room validU.room
    rw [validU.epoch] at ticked
    exact ⟨t',u',ran,tid,tidU,valid',validU',joined,ticked_slot ticked⟩
  self := by
    obtain ⟨t',ran,tid,valid',_,ticked⟩ := ftSelf_spec cpp valid.room
    exact ⟨t',ran,tid,valid',ticked_slot ticked⟩

end Laws

-- The growable vectors refine unbounded clocks that are zero by default: so do the
-- operations on them, and a registration where no thread lacks its own slot.
theorem growable_clocks {cpp : Cpp} {t u : ThreadState} (valid : t.Valid) (validU : u.Valid) (lock : LockState) (s : Runtime)
    (id : ThreadID) : Growable cpp t u lock ∧ ((∀ V i x, (cpp.store V i x).isSome) → ∃ s', getState cpp s id = some s') ∧
      ∀ s', getState cpp s id = some s' → (Unchanged s s' id ↔ s.TS.find id ≠ none ∨ OwnSlots s) :=
  ⟨growable valid validU lock,fun stores => getState_returns stores s id,fun _ ran => unchanged_iff ran⟩

theorem growable_clocks_uneven :
    Growable (.lenient .leftFirst) ⟨1,[lane 0,lane 1 + 1],lane 1 + 1⟩ ⟨2,[lane 0,lane 1,lane 2 + 4],lane 2 + 4⟩ ⟨[]⟩ ∧
    ∃ s', getState (.lenient .leftFirst) (.ofThreads [1,2] (by decide)) 3 = some s' ∧
      Unchanged (.ofThreads [1,2] (by decide)) s' 3 := by
  obtain ⟨grows,returns,kept⟩ := @growable_clocks (.lenient .leftFirst) ⟨1,[lane 0,lane 1 + 1],lane 1 + 1⟩
    ⟨2,[lane 0,lane 1,lane 2 + 4],lane 2 + 4⟩ ⟨by decide,by decide⟩ ⟨by decide,by decide⟩ ⟨[]⟩ (.ofThreads [1,2] (by decide)) 3
  obtain ⟨s',ran⟩ := returns fun V i x => rfl
  exact ⟨grows,s',ran,(kept s' ran).mpr (.inr (prepared_slots (ofThreads_prepared (by decide))))⟩

-- The second registration of a program raises what the first thread's clock says of
-- that thread itself.
theorem newest_clock_changed : ∃ s s', getState (.lenient .leftFirst) .empty 1 = some s ∧
    getState (.lenient .leftFirst) s 2 = some s' ∧ s.TS.find 1 = some ⟨1,[lane 0],lane 1 + 1⟩ ∧
    s'.TS.find 1 = some ⟨1,[lane 0,lane 1 + 1],lane 1 + 1⟩ ∧ ¬ Unchanged s s' 2 := by
  have first := (Option.some_get (x := getState (.lenient .leftFirst) .empty 1) (by decide)).symm
  have second := (Option.some_get (x := getState (.lenient .leftFirst) ((getState (.lenient .leftFirst) .empty 1).get (by decide)) 2)
    (by decide)).symm
  refine ⟨_,_,first,second,by decide,by decide,fun unchanged => ?_⟩
  obtain ⟨t,found,_,_,same⟩ := unchanged 1 ⟨1,[lane 0],lane 1 + 1⟩ (by decide) (by decide)
  have grown : some t = some ⟨1,[lane 0,lane 1 + 1],lane 1 + 1⟩ := by rw [← found]; decide
  cases grown
  exact absurd (same 1) (by decide)

end EmbedSanitizer
