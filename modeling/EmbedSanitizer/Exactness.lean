import EmbedSanitizer.Preparation

namespace EmbedSanitizer
open HappensBefore ThreadEvents EpochDetector

section Prefixes
variable {cpp : Cpp} {s : Runtime}

theorem spare_append {tr rest : List Event} (spare : Spare cpp s (tr ++ rest)) : Spare cpp s tr := by
  induction tr generalizing s with
  | nil => exact spare.unspent
  | cons e tr ih => exact ⟨spare.1,fun s' b ran => ih (spare.2 s' b ran)⟩

theorem spare_take {tr : List Event} (spare : Spare cpp s tr) (k : ℕ) : Spare cpp s (tr.take k) := by
  rw [← List.take_append_drop k tr] at spare
  exact spare_append spare

theorem named_take {tr : List Event} (named : Named s tr) (k : ℕ) : Named s (tr.take k) :=
  fun e member => named e (List.mem_of_mem_take member)

end Prefixes

-- A race is reported on an address exactly when two of its accesses race.
theorem reported_iff_race {cpp : Cpp} {s : Runtime} (prepared : s.Prepared) {main : ThreadID} {tr : List Event}
    (named : Named s tr) (legal : Legal main tr) (spare : Spare cpp s tr) (a : Address) :
    ∃ s' verdicts, performAll cpp s tr = some (s',verdicts) ∧ (RaceReported tr verdicts a ↔ ∃ i j, Races tr a i j) := by
  obtain ⟨s',verdicts,ran,_,reports⟩ := prepared_run prepared named spare
  refine ⟨s',verdicts,ran,?_⟩
  rw [reports,reported_iff_races (legal_disciplined legal)]

def writeBesideRead : List Event := [.fork 1 2,.access 2 .write 100,.access 1 .read 100]

theorem reported_iff_race_pair : ∃ s' verdicts,
    performAll (.checked .leftFirst) (.ofThreads [1,2] (by decide)) writeBesideRead = some (s',verdicts) ∧
    (RaceReported writeBesideRead verdicts 100 ↔ ∃ i j, Races writeBesideRead 100 i j) :=
  reported_iff_race (ofThreads_prepared (by decide)) (by decide) (show Legal 1 _ by decide) (by decide) 100

section Clocks
variable {cpp : Cpp} {s : Runtime}

theorem clock_run {σ : LogicalClock.Clocks ThreadID Address} (sim : ClockSim s σ) (tr : List Event) (named : Named s tr)
    (silent : ∀ e ∈ tr, ¬ IsAccess e) (spare : Spare cpp s tr) : ∃ s' verdicts, performAll cpp s tr = some (s',verdicts) ∧
      ClockSim s' (tr.foldl LogicalClock.step σ) ∧ s'.slot = s.slot := by
  induction tr generalizing s σ with
  | nil => exact ⟨s,[],rfl,sim,rfl⟩
  | cons e rest ih =>
    obtain ⟨s₁,ran,sim₁,frame,_⟩ := clock_step cpp sim spare.1 (named e List.mem_cons_self) (silent e List.mem_cons_self)
    have named₁ : Named s₁ rest := named_slots frame.slots fun d member => named d (List.mem_cons_of_mem _ member)
    obtain ⟨s',verdicts,rest_ran,sim',slots'⟩ :=
      ih sim₁ named₁ (fun d member => silent d (List.mem_cons_of_mem _ member)) (spare.2 s₁ false ran)
    exact ⟨s',false :: verdicts,by simp [performAll,ran,rest_ran],sim',slots'.trans frame.slots⟩

theorem registry_run (registry : s.Registry) {tr : List Event} (named : Named s tr) (silent : ∀ e ∈ tr, ¬ IsAccess e)
    (spare : Spare cpp s tr) (k : ℕ) : ∃ s' verdicts, performAll cpp s (tr.take k) = some (s',verdicts) ∧
      ClockSim s' (LogicalClock.after (tr.take k)) ∧ s'.slot = s.slot :=
  clock_run registry.sim (tr.take k) (named_take named k) (fun e member => silent e (List.mem_of_mem_take member))
    (spare_take spare k)

theorem found_of_slot {s' : Runtime} (same : s'.slot = s.slot) {id : ThreadID} (known : s.Registered id) :
    ∃ t, s'.TS.find id = some t := by
  obtain ⟨k,at_k⟩ := registered_iff.mp known
  obtain ⟨t,found,_⟩ := slot_some.mp (same ▸ at_k : s'.slot id = some k)
  exact ⟨t,found⟩

end Clocks

-- Event i is made by the thread state ta; tb is any other thread's state once k
-- events are over. What tb has of the slot of ta tells whether i is before the
-- next step of its thread.
theorem order_iff_clock {cpp : Cpp} {s : Runtime} (registry : s.Registry) {main : ThreadID} {tr : List Event}
    (named : Named s tr) (legal : Legal main tr) (silent : ∀ e ∈ tr, ¬ IsAccess e) (spare : Spare cpp s tr)
    {i k : ℕ} {e : Event} {b : ThreadID} (found : tr[i]? = some e) (later : i < k) (within : k ≤ tr.length)
    (other : b ≠ e.actor) (known : s.Registered b) :
    ∃ si vi sk vk ta tb x, performAll cpp s (tr.take i) = some (si,vi) ∧ performAll cpp s (tr.take k) = some (sk,vk) ∧
      si.TS.find e.actor = some ta ∧ sk.TS.find b = some tb ∧ tb.C[ta.tid]? = some x ∧
      (Before order (tr.take k ++ [.skip b]) i k ↔ CLOCK x ≥ CLOCK ta.epoch) := by
  obtain ⟨si,vi,ranI,simI,slotsI⟩ := registry_run registry named silent spare i
  obtain ⟨sk,vk,ranK,simK,slotsK⟩ := registry_run registry named silent spare k
  have actor : s.Registered e.actor :=
    named e (List.mem_of_getElem? found) _ (by cases e <;> simp [threadsOf,ThreadEvents.Event.actor])
  obtain ⟨ta,foundA⟩ := found_of_slot slotsI actor
  obtain ⟨tb,foundB⟩ := found_of_slot slotsK known
  have fits := simI.threads e.actor ta foundA
  have at_a : sk.slot e.actor = some ta.tid := by rw [slotsK,← slotsI]; exact slot_of foundA
  have fitsB := simK.threads b tb foundB
  refine ⟨si,vi,sk,vk,ta,tb,_,ranI,ranK,foundA,foundB,meaning_in (fitsB.room e.actor ta.tid at_a),?_⟩
  have length : (tr.take k).length = k := by simp [within]
  have inner : (tr.take k)[i]? = some e := by rw [List.getElem?_take_of_lt later]; exact found
  have order_count := LogicalClock.reaches_iff_count (c := .thread b) (disciplined_take (legal_disciplined legal) k) inner
  have epoch : CLOCK ta.epoch = LogicalClock.countAt (tr.take k) i e := by
    rw [fits.epoch_clock (slot_of foundA),LogicalClock.countAt,List.take_take,Nat.min_eq_left (Nat.le_of_lt later)]
  have entry := fitsB.models.counts e.actor ta.tid at_a
  unfold count at entry
  rw [reaches_thread,length] at order_count
  rw [order_count,ge_iff_le,epoch,entry]

def handover : List Event := [.fork 1 2,.acquire 1 8,.release 1 8,.acquire 2 8]

theorem order_iff_clock_handover : ∃ si vi sk vk ta tb x,
    performAll (.checked .leftFirst) (.ofThreads [1,2] (by decide)) (handover.take 2) = some (si,vi) ∧
    performAll (.checked .leftFirst) (.ofThreads [1,2] (by decide)) (handover.take 4) = some (sk,vk) ∧
    si.TS.find 1 = some ta ∧ sk.TS.find 2 = some tb ∧ tb.C[ta.tid]? = some x ∧
    (Before order (handover.take 4 ++ [.skip 2]) 2 4 ↔ CLOCK x ≥ CLOCK ta.epoch) :=
  order_iff_clock (i := 2) (k := 4) (b := 2) (e := .release 1 8) (ofThreads_prepared (by decide)).toRegistry
    (by decide) (show Legal 1 _ by decide) (by simp [handover,IsAccess]) (by decide) rfl (by decide) (by decide) (by decide) (by decide)

end EmbedSanitizer
