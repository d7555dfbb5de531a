import EmbedSanitizer.ClockRefinement
import EmbedSanitizer.EpochDetector
import EmbedSanitizer.AccessSteps

namespace EmbedSanitizer
open ThreadEvents EpochDetector

def Packs (slot : Slots) (e : CInt) (ep : Epoch ThreadID) : Prop := slot ep.1 = some (TID e) ∧ CLOCK e = ep.2

def PacksRead (slot : Slots) (R : CInt) : Option (Epoch ThreadID) → Prop
  | none => R = READ_SHARED
  | some r => R ≠ READ_SHARED ∧ Packs slot R r

def Slots.Bounded (slot : Slots) : Prop := ∀ id k, slot id = some k → k < 256

-- The state of an address is the abstract cell c.
structure CellSim (slot : Slots) (x : VarState) (c : Cell ThreadID) : Prop where
  quiet : x.Racy = false
  write : Packs slot x.W c.write
  read : PacksRead slot x.R c.read
  readers : Models slot x.Rvc c.readers
  vacant : ∀ i, (∀ id, slot id ≠ some i) → count x.Rvc i = 0
  unknown : ∀ id, slot id = none → c.readers id = 0
  room : (c.read = none ∨ x.Rvc.length ≠ 0) → ∀ id k, slot id = some k → k < x.Rvc.length

theorem CLOCK_READ_SHARED : CLOCK READ_SHARED = 0xFFFFFF := by decide

theorem unshared_of_room (room : CLOCK e ≠ 0xFFFFFF) : e ≠ READ_SHARED := by
  rintro rfl; exact room CLOCK_READ_SHARED

section Epochs
variable {slot : Slots} {id : ThreadID} {t : ThreadState} {v : ThreadID → ℕ} {e e' : CInt} {ep ep' : Epoch ThreadID}

theorem packs_inj (apart : slot.Apart) (left : Packs slot e ep) (right : Packs slot e' ep') : e = e' ↔ ep = ep' := by
  constructor
  · rintro rfl
    exact Prod.ext (apart _ _ _ left.1 right.1) (left.2.symm.trans right.2)
  · rintro rfl
    exact packed_ext (Option.some.inj (left.1.symm.trans right.1)) (left.2.trans right.2.symm)

theorem epoch_packs (bounded : slot.Bounded) (fits : t.Fits slot v) (at_t : slot id = some t.tid) :
    Packs slot t.epoch (id,v id) := by
  refine ⟨?_,fits.epoch_clock at_t⟩
  rw [fits.valid.epoch,fits.models.lanes,Nat.mod_eq_of_lt (bounded id t.tid at_t)]
  exact at_t

theorem lane_packs (bounded : slot.Bounded) (at_k : slot id = some k) : Packs slot (lane k) (id,0) := by
  refine ⟨?_,CLOCK_lane k⟩
  rw [TID_lane,Nat.mod_eq_of_lt (bounded id k at_k)]
  exact at_k

theorem lane_unshared (k : ℕ) : lane k ≠ READ_SHARED := unshared_of_room (by rw [CLOCK_lane]; decide)

theorem late_iff (apart : slot.Apart) (fits : t.Fits slot v) (at_t : slot id = some t.tid) (packs : Packs slot e ep) :
    Late e t ↔ EpochDetector.Late v id ep := by
  have known := fits.models.counts ep.1 (TID e) packs.1
  have own : TID e = t.tid ↔ ep.1 = id := by
    constructor
    · intro same; exact apart ep.1 id t.tid (same ▸ packs.1) at_t
    · rintro rfl; exact Option.some.inj (packs.1.symm.trans at_t)
  unfold count at known
  unfold Late EpochDetector.Late
  rw [known,packs.2,ne_eq,ne_eq,own]

theorem read_seen (bounded : slot.Bounded) (fits : t.Fits slot v) (packs : Packs slot e ep) :
    e.sle (meaning t.C (TID e)) = true ↔ ep.2 ≤ v ep.1 := by
  have known := fits.models.counts ep.1 (TID e) packs.1
  have sameLane : TID e = TID (meaning t.C (TID e)) := by
    rw [fits.models.lanes,Nat.mod_eq_of_lt (bounded ep.1 (TID e) packs.1)]
  rw [sle_lane sameLane,packs.2]
  unfold count at known
  rw [known]

theorem same_read {R : CInt} {read : Option (Epoch ThreadID)} (apart : slot.Apart) (packs : Packs slot e ep)
    (room : CLOCK e ≠ 0xFFFFFF) (held : PacksRead slot R read) : R = e ↔ read = some ep := by
  cases read with
  | none =>
    have shared : R = READ_SHARED := held
    have other : R ≠ e := fun same => unshared_of_room room (same.symm.trans shared)
    simp [other]
  | some r => rw [packs_inj apart held.2 packs,Option.some.injEq]

end Epochs

section Vectors
variable {slot : Slots} {V : VectorClock} {v : ThreadID → ℕ}

theorem models_store (apart : slot.Apart) (models : Models slot V v) (packs : Packs slot e ep) (bound : TID e < V.length) :
    Models slot (V.set (TID e) e) (Function.update v ep.1 ep.2) := by
  refine ⟨fun i => ?_,fun id k at_k => ?_⟩
  · rw [meaning_set bound]
    split
    · rename_i own; rw [own,Nat.mod_eq_of_lt (TID_lt e)]
    · exact models.lanes i
  · unfold count
    rw [meaning_set bound]
    by_cases own : k = TID e
    · have same := apart id ep.1 k at_k (own ▸ packs.1)
      subst same
      rw [if_pos own,Function.update_self]; exact packs.2
    · have other : id ≠ ep.1 := by rintro rfl; exact own (Option.some.inj (at_k.symm.trans packs.1))
      rw [if_neg own,Function.update_of_ne other]; exact models.counts id k at_k

theorem vacant_store (vacant : ∀ i, (∀ id, slot id ≠ some i) → count V i = 0) (packs : Packs slot e ep)
    (bound : TID e < V.length) : ∀ i, (∀ id, slot id ≠ some i) → count (V.set (TID e) e) i = 0 := by
  intro i free
  have other : i ≠ TID e := by rintro rfl; exact free ep.1 packs.1
  unfold count
  rw [meaning_set bound,if_neg other]
  exact vacant i free

end Vectors

section Accesses
variable {slot : Slots} {id : ThreadID} {t : ThreadState} {v : ThreadID → ℕ} {x : VarState} {c : Cell ThreadID} (cpp : Cpp)

structure Stands (slot : Slots) (id : ThreadID) (t : ThreadState) (v : ThreadID → ℕ) : Prop where
  apart : slot.Apart
  bounded : slot.Bounded
  at_t : slot id = some t.tid
  fits : t.Fits slot v
  unspent : CLOCK t.epoch ≠ 0xFFFFFF

theorem Stands.tid_epoch (stands : Stands slot id t v) : TID t.epoch = t.tid :=
  Option.some.inj ((epoch_packs stands.bounded stands.fits stands.at_t).1.symm.trans stands.at_t)

theorem CellSim.shared (sim : CellSim slot x c) (shared : x.R = READ_SHARED) : c.read = none := by
  have read := sim.read
  cases held : c.read with
  | none => rfl
  | some r => rw [held] at read; exact absurd shared read.1

theorem CellSim.unshared (sim : CellSim slot x c) (unshared : x.R ≠ READ_SHARED) : ∃ r, c.read = some r ∧ Packs slot x.R r := by
  have read := sim.read
  cases held : c.read with
  | none => rw [held] at read; exact absurd read unshared
  | some r => rw [held] at read; exact ⟨r,rfl,read.2⟩

theorem slots_room (sim : CellSim slot x c) (counted : ∀ id k, slot id = some k → k < n) :
    ∀ id k, slot id = some k → k < x.slots n := by
  intro id k at_k
  unfold VarState.slots
  split
  · exact counted id k at_k
  · rename_i allocated
    exact sim.room (.inr allocated) id k at_k

theorem Stands.readRoom (stands : Stands slot id t v) (sim : CellSim slot x c) (counted : ∀ id k, slot id = some k → k < n) :
    ReadRoom n x t where
  write := stands.fits.room _ _ sim.write.1
  read := by
    intro unshared
    obtain ⟨r,_,packs⟩ := sim.unshared unshared
    exact stands.fits.room _ _ packs.1
  shared := fun _ shared => sim.room (.inl (sim.shared shared)) id _ stands.at_t
  share := by
    intro _ unseen
    obtain ⟨r,_,packs⟩ := sim.unshared unseen.1
    exact ⟨slots_room sim counted id _ stands.at_t,slots_room sim counted r.1 _ packs.1⟩

theorem Stands.writeRoom (stands : Stands slot id t v) (sim : CellSim slot x c) : WriteRoom x t where
  write := stands.fits.room _ _ sim.write.1
  read := by
    intro unshared
    obtain ⟨r,_,packs⟩ := sim.unshared unshared
    exact stands.fits.room _ _ packs.1

-- A vector that holds the readers still does when an epoch is stored in its slot.
structure HoldsReaders (slot : Slots) (V : VectorClock) (readers : ThreadID → ℕ) : Prop where
  models : Models slot V readers
  vacant : ∀ i, (∀ id, slot id ≠ some i) → count V i = 0
  unknown : ∀ id, slot id = none → readers id = 0

theorem CellSim.holds (sim : CellSim slot x c) : HoldsReaders slot x.Rvc c.readers := ⟨sim.readers,sim.vacant,sim.unknown⟩

theorem holds_store (apart : slot.Apart) {V : VectorClock} {readers : ThreadID → ℕ} (holds : HoldsReaders slot V readers)
    (packs : Packs slot e ep) (bound : TID e < V.length) :
    HoldsReaders slot (V.set (TID e) e) (Function.update readers ep.1 ep.2) := by
  refine ⟨models_store apart holds.models packs bound,vacant_store holds.vacant packs bound,fun id absent => ?_⟩
  have other : id ≠ ep.1 := by rintro rfl; rw [packs.1] at absent; cases absent
  rw [Function.update_of_ne other]
  exact holds.unknown id absent

theorem read_sim (stands : Stands slot id t v) (sim : CellSim slot x c) (counted : ∀ id k, slot id = some k → k < n)
    {x' : VarState} (step : ReadStep n x t x') : CellSim slot x' (c.afterRead id v) := by
  have packs := epoch_packs stands.bounded stands.fits stands.at_t
  have own := stands.tid_epoch
  cases step with
  | racy racy => cases sim.quiet.symm.trans racy
  | same same =>
    rw [afterRead_same ((same_read stands.apart packs stands.unspent sim.read).mp same)]
    exact sim
  | shared shared bound =>
    have held := sim.shared shared
    have stored := holds_store stands.apart sim.holds packs (own ▸ bound)
    rw [own] at stored
    rw [afterRead_shared held]
    refine ⟨sim.quiet,sim.write,?_,stored.models,stored.vacant,stored.unknown,fun _ id' k at_k => ?_⟩
    · rw [held]; exact shared
    · simpa using sim.room (.inl held) id' k at_k
  | exclusive unshared seen =>
    obtain ⟨r,held,packsR⟩ := sim.unshared unshared
    rw [afterRead_seen held ((read_seen stands.bounded stands.fits packsR).mp seen)]
    refine ⟨sim.quiet,sim.write,⟨unshared_of_room stands.unspent,packs⟩,sim.readers,sim.vacant,sim.unknown,?_⟩
    rintro (none | opened)
    · cases none
    · exact sim.room (.inr opened)
  | @share V unseen length entries bound earlier =>
    obtain ⟨r,held,packsR⟩ := sim.unshared unseen.1
    have late := Nat.lt_of_not_le (mt (read_seen stands.bounded stands.fits packsR).mpr unseen.2)
    have vacant : ∀ i, (∀ id, slot id ≠ some i) → count V i = 0 := by
      intro i free
      unfold count
      rw [entries]
      exact sim.vacant i free
    have holds : HoldsReaders slot V c.readers := ⟨models_same sim.readers entries,vacant,sim.unknown⟩
    have storedR := holds_store stands.apart holds packsR earlier
    have stored := holds_store stands.apart storedR packs (by simpa [own] using bound)
    rw [own] at stored
    rw [afterRead_unseen held late]
    refine ⟨sim.quiet,sim.write,rfl,stored.models,stored.vacant,stored.unknown,fun _ id' k at_k => ?_⟩
    simpa [length] using slots_room sim counted id' k at_k

theorem readRaces_iff (stands : Stands slot id t v) (sim : CellSim slot x c) : ReadRaces x t ↔ c.readRaces id v := by
  have packs := epoch_packs stands.bounded stands.fits stands.at_t
  have sameEpoch := same_read stands.apart packs stands.unspent sim.read
  unfold ReadRaces VarState.Passes Cell.readRaces
  rw [late_iff stands.apart stands.fits stands.at_t sim.write,ne_eq,ne_eq,sameEpoch,and_iff_right sim.quiet]

theorem ftRead_sim {NumThreads : ℕ} (stands : Stands slot id t v) (sim : CellSim slot x c)
    (counted : ∀ id k, slot id = some k → k < NumThreads) :
    ∃ x' b, ftRead cpp NumThreads x t = some (x',b) ∧ CellSim slot x' (c.afterRead id v) ∧ (b = true ↔ c.readRaces id v) := by
  obtain ⟨x',b,ran,step,reports⟩ := read_step cpp (stands.readRoom sim counted)
  exact ⟨x',b,ran,read_sim stands sim counted step,reports.trans (readRaces_iff stands sim)⟩

theorem readers_unseen (stands : Stands slot id t v) (sim : CellSim slot x c) (shared : c.read = none) :
    (∃ u, ReaderAhead x t u) ↔ ∃ u, v u < c.readers u := by
  have compare : ∀ u, (meaning t.C u).slt (meaning x.Rvc u) = true ↔ count t.C u < count x.Rvc u := fun u =>
    slt_lane ((stands.fits.models.lanes u).trans (sim.readers.lanes u).symm)
  constructor
  · rintro ⟨u,_,ahead⟩
    have late := (compare u).mp ahead
    by_cases free : ∀ id, slot id ≠ some u
    · rw [sim.vacant u free] at late; omega
    · obtain ⟨id',at_u⟩ := not_forall_not.mp free
      rw [stands.fits.models.counts id' u at_u,sim.readers.counts id' u at_u] at late
      exact ⟨id',late⟩
  · rintro ⟨id',late⟩
    cases at_k : slot id' with
    | none => rw [sim.unknown id' at_k] at late; omega
    | some k =>
      refine ⟨k,Nat.lt_min.mpr ⟨sim.room (.inl shared) id' k at_k,stands.fits.room id' k at_k⟩,(compare k).mpr ?_⟩
      rw [stands.fits.models.counts id' k at_k,sim.readers.counts id' k at_k]
      exact late

theorem write_sim (stands : Stands slot id t v) (sim : CellSim slot x c) (moved : x.W ≠ t.epoch) {x' : VarState}
    (step : WriteStep x t x') : CellSim slot x' (c.afterWrite id v) := by
  have packs := epoch_packs stands.bounded stands.fits stands.at_t
  cases step with
  | racy racy => cases sim.quiet.symm.trans racy
  | same same => exact absurd same moved
  | exclusive unshared =>
    obtain ⟨r,held,_⟩ := sim.unshared unshared
    rw [afterWrite_exclusive held]
    exact ⟨sim.quiet,packs,sim.read,sim.readers,sim.vacant,sim.unknown,sim.room⟩
  | shared shared =>
    have held := sim.shared shared
    rw [afterWrite_shared (mt (packs_inj stands.apart sim.write packs).mpr moved) held,stands.tid_epoch]
    refine ⟨sim.quiet,packs,⟨lane_unshared _,lane_packs stands.bounded stands.at_t⟩,sim.readers,sim.vacant,sim.unknown,?_⟩
    exact fun _ => sim.room (.inl held)

theorem writeRaces_iff (stands : Stands slot id t v) (sim : CellSim slot x c) : WriteRaces x t ↔ c.writeRaces id v := by
  have packs := epoch_packs stands.bounded stands.fits stands.at_t
  unfold WriteRaces Cell.writeRaces
  rw [late_iff stands.apart stands.fits stands.at_t sim.write,ne_eq,ne_eq,packs_inj stands.apart sim.write packs,
    and_iff_right sim.quiet]
  by_cases shared : x.R = READ_SHARED
  · have held := sim.shared shared
    rw [if_pos shared,readers_unseen stands sim held,held]
  · obtain ⟨r,held,packsR⟩ := sim.unshared shared
    rw [if_neg shared,late_iff stands.apart stands.fits stands.at_t packsR,held]

theorem ftWrite_sim (stands : Stands slot id t v) (sim : CellSim slot x c) :
    ∃ x' b, ftWrite cpp x t = some (x',b) ∧ CellSim slot x' (c.afterWrite id v) ∧ (b = true ↔ c.writeRaces id v) := by
  have packs := epoch_packs stands.bounded stands.fits stands.at_t
  by_cases same : x.W = t.epoch
  · have held := (packs_inj stands.apart sim.write packs).mp same
    exact ⟨x,false,ftWrite_same cpp same,by rw [afterWrite_same held]; exact sim,by simp [Cell.writeRaces,held]⟩
  · obtain ⟨x',b,ran,step,reports⟩ := write_step cpp (stands.writeRoom sim)
    exact ⟨x',b,ran,write_sim stands sim same step,reports.trans (writeRaces_iff stands sim)⟩

theorem fresh_sim (stands : Stands slot id t v) (kind : Access) :
    CellSim slot (let vs : VarState := ⟨lane t.tid,lane t.tid,[],false⟩
      if kind.opensWriting then {vs with W := t.epoch} else {vs with R := t.epoch}) (Cell.fresh id v kind) := by
  have packs := epoch_packs stands.bounded stands.fits stands.at_t
  have zero := lane_packs stands.bounded stands.at_t
  have vacant : ∀ i, (∀ id, slot id ≠ some i) → count [] i = 0 := fun i _ => CLOCK_lane i
  unfold Cell.fresh
  cases kind.opensWriting with
  | true =>
    exact ⟨rfl,packs,⟨lane_unshared _,zero⟩,models_nil slot,vacant,fun _ _ => rfl,by simp⟩
  | false =>
    exact ⟨rfl,zero,⟨unshared_of_room stands.unspent,packs⟩,models_nil slot,vacant,fun _ _ => rfl,by simp⟩

end Accesses
end EmbedSanitizer
