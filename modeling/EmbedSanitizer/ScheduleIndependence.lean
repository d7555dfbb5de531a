import EmbedSanitizer.GatedDetection
import EmbedSanitizer.SameOrder

namespace EmbedSanitizer
open HappensBefore ThreadEvents LogicalClock

section Schedules
variable {cpp : Cpp} {s : Runtime} {main : ThreadID} {calls calls' : List Call}

-- Two schedules of callbacks in which every thread makes the same ones in the same
-- order, and so do all threads together on every mutex.
def SameCallbacks (calls calls' : List Call) : Prop := SameOrder (calls.map Call.attempt) (calls'.map Call.attempt)

theorem same_named {tr tr' : List Event} (same : SameOrder tr tr') (named : Named s tr) : Named s tr' :=
  fun e member => named e ((same_members same.threads e).mpr member)

theorem same_ticks {tr tr' : List Event} (legal : Legal main tr) (legal' : Legal main tr') (same : SameOrder tr tr') (id : ThreadID) :
    tr'.countP (ticks id) = tr.countP (ticks id) :=
  (equivalent_perm (sameOrder_equivalent legal legal' same)).symm.countP_eq _

theorem schedule_independent (prepared : s.Prepared) (quiet : s.isConcurrent = 0) (named : Named s (calls.map Call.attempt))
    (legal : Legal main (calls.map Call.attempt)) (legal' : Legal main (calls'.map Call.attempt))
    (spare : Spare cpp s (calls.map Call.attempt)) (same : SameCallbacks calls calls') :
    ∃ s₁ reports s₂ reports', invokeAll cpp s calls = some (s₁,reports) ∧ invokeAll cpp s calls' = some (s₂,reports') ∧
      ∀ a, CallReported calls reports a ↔ CallReported calls' reports' a := by
  have named' := same_named same named
  have spare' := spare_of_ticks prepared.sim owned_start named named' (same_ticks legal legal' same) spare
  obtain ⟨s₁,reports,ran,reported⟩ := callbacks_reported prepared named (gated_spare prepared named _ spare)
  obtain ⟨s₂,reports',ran',reported'⟩ := callbacks_reported prepared named' (gated_spare prepared named' _ spare')
  refine ⟨s₁,reports,s₂,reports',ran,ran',fun a => ?_⟩
  rw [reported,reported',quiet,events_reported legal,events_reported legal']
  exact sameOrder_races legal legal' same

def writerFirst : List Call := [⟨1,.threadCreate 2⟩,⟨1,.access .write4 100 ⟨10,0,0⟩⟩,⟨2,.access .read4 100 ⟨20,0,0⟩⟩]

def readerFirst : List Call := [⟨1,.threadCreate 2⟩,⟨2,.access .read4 100 ⟨20,0,0⟩⟩,⟨1,.access .write4 100 ⟨10,0,0⟩⟩]

theorem schedule_independent_pair : ∃ s₁ reports s₂ reports',
    invokeAll (.checked .leftFirst) (.ofThreads [1,2] (by decide)) writerFirst = some (s₁,reports) ∧
    invokeAll (.checked .leftFirst) (.ofThreads [1,2] (by decide)) readerFirst = some (s₂,reports') ∧
    ∀ a, CallReported writerFirst reports a ↔ CallReported readerFirst reports' a :=
  schedule_independent (ofThreads_prepared (by decide)) rfl (by decide) (show Legal 1 _ by decide) (show Legal 1 _ by decide)
    (by decide) (show SameOrder _ _ by decide)

end Schedules
end EmbedSanitizer
