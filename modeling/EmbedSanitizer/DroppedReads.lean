import EmbedSanitizer.Exactness
import EmbedSanitizer.ReadRemoval

namespace EmbedSanitizer
open HappensBefore ThreadEvents EpochDetector

section Deletions
variable {cpp : Cpp} {s s' : Runtime} {σ σ' : Detector ThreadID Address Address}

theorem unspent_same (sim : ClockSim s σ.clocks) (sim' : ClockSim s' σ'.clocks) (clocks : σ'.clocks = σ.clocks)
    (slots : s'.slot = s.slot) (unspent : s.Unspent) : s'.Unspent := by
  intro id t' found'
  have at_t' := slot_of found'
  obtain ⟨t,found,tid⟩ := slot_some.mp (slots ▸ at_t')
  have now := (sim'.threads id t' found').epoch_clock at_t'
  have before := (sim.threads id t found).epoch_clock (slot_of found)
  rw [now,clocks,← before]
  exact unspent id t found

theorem spare_without (sim : DetectorSim s σ) (sim' : DetectorSim s' σ') (clocks : σ'.clocks = σ.clocks) (slots : s'.slot = s.slot)
    {tr : List Event} {dropped : ℕ → Bool} (only : AccessesOnly tr dropped) (named : Named s tr) (spare : Spare cpp s tr) :
    Spare cpp s' (without dropped tr) := by
  induction tr generalizing s s' σ σ' dropped with
  | nil => exact unspent_same sim.clocks sim'.clocks clocks slots spare
  | cons e rest ih =>
    have unspent := unspent_same sim.clocks sim'.clocks clocks slots spare.1
    have known := named e List.mem_cons_self
    obtain ⟨s₁,b,ran,sim₁,slots₁,_⟩ := detector_step cpp sim spare.1 known
    have named₁ : Named s₁ rest := named_slots slots₁ fun d member => named d (List.mem_cons_of_mem _ member)
    have spare₁ := spare.2 s₁ b ran
    unfold without
    cases drop : dropped 0 with
    | true =>
      obtain ⟨t,kind,a,rfl⟩ := only 0 e rfl drop
      rw [if_pos rfl]
      exact ih sim₁ sim' clocks (slots.trans slots₁.symm) (accesses_tail only) named₁ spare₁
    | false =>
      rw [if_neg Bool.false_ne_true]
      have known' : ∀ t ∈ threadsOf e, s'.Registered t := by
        intro t mem
        rw [registered_iff,slots,← registered_iff]
        exact known t mem
      obtain ⟨s₂,b',ran',sim₂,slots₂,_⟩ := detector_step cpp sim' unspent known'
      refine ⟨unspent,fun s₃ b'' ran'' => ?_⟩
      rw [ran'] at ran''
      cases ran''
      have clocks₂ : (σ'.step e).clocks = (σ.step e).clocks := congrArg (fun c => LogicalClock.step c e) clocks
      exact ih sim₁ sim₂ clocks₂ ((slots₂.trans slots).trans slots₁.symm) (accesses_tail only) named₁ spare₁

theorem without_sublist {ε : Type*} (tr : List ε) (dropped : ℕ → Bool) : (without dropped tr).Sublist tr := by
  induction tr generalizing dropped with
  | nil => exact .slnil
  | cons e rest ih =>
    unfold without
    split
    · exact (ih _).cons e
    · exact (ih _).cons_cons e

end Deletions

-- Reads that their thread follows by a write to the same address, before it
-- synchronizes, are not needed: without them a race is reported on the same addresses.
theorem dropped_reads_reported {cpp : Cpp} {s : Runtime} (prepared : s.Prepared) {main : ThreadID} {tr : List Event}
    (named : Named s tr) (legal : Legal main tr) (spare : Spare cpp s tr) {dropped : ℕ → Bool} (removable : Removable tr dropped)
    (a : Address) : ∃ s₁ full s₂ reduced, performAll cpp s tr = some (s₁,full) ∧
      performAll cpp s (without dropped tr) = some (s₂,reduced) ∧
      (RaceReported tr full a ↔ RaceReported (without dropped tr) reduced a) := by
  have only := removable_accesses removable
  have fewer : Named s (without dropped tr) := fun e member => named e ((without_sublist tr dropped).subset member)
  have spared := spare_without prepared.sim prepared.sim rfl rfl only named spare
  obtain ⟨s₁,full,ran,_,reports⟩ := prepared_run prepared named spare
  obtain ⟨s₂,reduced,reran,_,rereports⟩ := prepared_run prepared fewer spared
  refine ⟨s₁,full,s₂,reduced,ran,reran,?_⟩
  rw [reports,rereports]
  exact (reported_without legal removable a).symm

def incrementBesideRead : List Event := [.fork 1 2,.access 2 .read 100,.access 1 .read 100,.access 2 .write 100]

theorem dropped_reads_reported_increment : ∃ s₁ full s₂ reduced,
    performAll (.checked .leftFirst) (.ofThreads [1,2] (by decide)) incrementBesideRead = some (s₁,full) ∧
    performAll (.checked .leftFirst) (.ofThreads [1,2] (by decide)) (without (· == 1) incrementBesideRead) = some (s₂,reduced) ∧
    (RaceReported incrementBesideRead full 100 ↔ RaceReported (without (· == 1) incrementBesideRead) reduced 100) := by
  apply dropped_reads_reported (ofThreads_prepared (by decide)) (by decide) (show Legal 1 _ by decide) (by decide)
  intro i _ drop
  have first : i = 1 := by simpa using drop
  subst first
  refine ⟨2,100,3,.write,rfl,by decide,rfl,rfl,?_⟩
  intro n e above below found own
  have middle : n = 2 := by omega
  subst middle
  cases found
  cases own

end EmbedSanitizer
