import EmbedSanitizer.CallbackDetection
import EmbedSanitizer.ClockTicks
import EmbedSanitizer.Gate

namespace EmbedSanitizer
open HappensBefore ThreadEvents EpochDetector LogicalClock

section Skips
variable {calls : List Call} {main : ThreadID}

theorem events_flow (n : CInt) (calls : List Call) : List.Forall₂ (fun e e' => order.feeds e = order.feeds e' ∧ order.draws e = order.draws e')
    (calls.map Call.attempt) (eventsFrom n calls) := by
  induction calls generalizing n with
  | nil => exact .nil
  | cons c rest ih =>
    refine .cons ?_ (ih _)
    cases c with
    | mk self callback =>
    cases callback with
    | access entry addr site =>
      by_cases checked : n ≠ 0
      · simp only [Call.attempt,Call.event,if_pos checked]; exact ⟨rfl,rfl⟩
      · simp only [Call.attempt,Call.event,if_neg checked]; exact ⟨rfl,rfl⟩
    | _ => exact ⟨rfl,rfl⟩

theorem events_before (n : CInt) (calls : List Call) (i j : ℕ) :
    Before order (eventsFrom n calls) i j ↔ Before order (calls.map Call.attempt) i j := by
  constructor
  · exact before_forall₂ ((events_flow n calls).flip.imp fun _ _ same => ⟨same.1.symm,same.2.symm⟩)
  · exact before_forall₂ (events_flow n calls)

theorem events_ticks (n : CInt) (calls : List Call) (id : ThreadID) :
    (eventsFrom n calls).countP (ticks id) = (calls.map Call.attempt).countP (ticks id) := by
  induction calls generalizing n with
  | nil => rfl
  | cons c rest ih =>
    have same : ticks id (c.event n) = ticks id c.attempt := by
      cases c with
      | mk self callback =>
      cases callback with
      | access entry addr site => simp only [Call.attempt,Call.event]; split <;> rfl
      | _ => rfl
    rw [eventsFrom,List.map_cons,List.countP_cons,List.countP_cons,same,ih]

-- An access that is attempted while isConcurrent is zero races with none.
theorem skipped_raceless (legal : Legal main (calls.map Call.attempt)) (races : Races (calls.map Call.attempt) a i j) :
    counterAt 0 calls i ≠ 0 := by
  intro zero
  have different := races.ne.symm
  obtain ⟨⟨_,_,at_i,at_j,t,_,k,_,rfl,rfl,_⟩,notBefore,notAfter⟩ := races
  have alone : ((calls.map Call.attempt).take i).foldl concurrentAfter 0 = 0 := by rw [← List.map_take]; exact zero
  have runs := allows_live (legal_at legal at_i)
  have bound := (List.getElem?_eq_some_iff.mp at_j).1
  rcases alone_ordered legal at_i rfl (zero_alone (legal_take legal i) alone runs) bound different with before | after
  · exact notAfter before
  · exact notBefore after

theorem events_access {n : CInt} {i : ℕ} (found : (eventsFrom n calls)[i]? = some (.access t kind a)) :
    (calls.map Call.attempt)[i]? = some (.access t kind a) := by
  rw [eventsFrom_at] at found
  obtain ⟨c,at_i,event⟩ := Option.map_eq_some_iff.mp found
  obtain ⟨_,rfl,entry,site,callback,rfl⟩ := event_access.mp event
  rw [List.getElem?_map,at_i]
  exact congrArg some (event_access.mpr ⟨by decide,rfl,entry,site,callback,rfl⟩)

theorem attempt_access {n : CInt} {i : ℕ} (found : (calls.map Call.attempt)[i]? = some (.access t kind a))
    (checked : counterAt n calls i ≠ 0) : (eventsFrom n calls)[i]? = some (.access t kind a) := by
  rw [List.getElem?_map] at found
  obtain ⟨c,at_i,event⟩ := Option.map_eq_some_iff.mp found
  obtain ⟨_,rfl,entry,site,callback,rfl⟩ := event_access.mp event
  rw [eventsFrom_at,at_i]
  exact congrArg some (event_access.mpr ⟨checked,rfl,entry,site,callback,rfl⟩)

theorem events_races (legal : Legal main (calls.map Call.attempt)) (a : Address) (i j : ℕ) :
    Races (eventsFrom 0 calls) a i j ↔ Races (calls.map Call.attempt) a i j := by
  constructor
  · rintro ⟨⟨_,_,at_i,at_j,t,u,k,l,rfl,rfl,different,writes⟩,notBefore,notAfter⟩
    rw [events_before] at notBefore notAfter
    exact ⟨⟨_,_,events_access at_i,events_access at_j,t,u,k,l,rfl,rfl,different,writes⟩,notBefore,notAfter⟩
  · intro races
    have left := skipped_raceless legal races
    have right := skipped_raceless legal races.symm
    obtain ⟨⟨_,_,at_i,at_j,t,u,k,l,rfl,rfl,different,writes⟩,notBefore,notAfter⟩ := races
    rw [← events_before 0] at notBefore notAfter
    exact ⟨⟨_,_,attempt_access at_i left,attempt_access at_j right,t,u,k,l,rfl,rfl,different,writes⟩,notBefore,notAfter⟩

end Skips

section Detection
variable {cpp : Cpp} {s : Runtime} {main : ThreadID} {calls : List Call}

theorem gated_spare (prepared : s.Prepared) (named : Named s (calls.map Call.attempt)) (n : CInt)
    (spare : Spare cpp s (calls.map Call.attempt)) : Spare cpp s (eventsFrom n calls) :=
  spare_of_ticks prepared.sim owned_start named (calls_named named n) (events_ticks n calls) spare

theorem events_disciplined {holder : Address → Option ThreadID} (disciplined : DisciplinedFrom holder (calls.map Call.attempt))
    (n : CInt) : DisciplinedFrom holder (eventsFrom n calls) := by
  induction calls generalizing holder n with
  | nil => trivial
  | cons c rest ih =>
    obtain ⟨guarded,later⟩ := disciplined
    have same : Guarded holder (c.event n) ∧ holderAfter holder (c.event n) = holderAfter holder c.attempt := by
      cases c with
      | mk self callback =>
      cases callback with
      | access entry addr site => simp only [Call.attempt,Call.event]; split <;> exact ⟨trivial,rfl⟩
      | _ => exact ⟨guarded,rfl⟩
    exact ⟨same.1,same.2 ▸ ih later _⟩

theorem events_reported (legal : Legal main (calls.map Call.attempt)) (a : Address) :
    Reported (eventsFrom 0 calls) a ↔ ∃ i j, Races (calls.map Call.attempt) a i j := by
  rw [reported_iff_races (events_disciplined (legal_disciplined legal) 0)]
  exact exists_congr fun i => exists_congr fun j => events_races legal a i j

-- The callbacks report an address exactly when two accesses to it race, those that
-- they skip included.
theorem reports_iff_race (prepared : s.Prepared) (quiet : s.isConcurrent = 0) (named : Named s (calls.map Call.attempt))
    (legal : Legal main (calls.map Call.attempt)) (spare : Spare cpp s (calls.map Call.attempt)) (a : Address) :
    ∃ s' reports, invokeAll cpp s calls = some (s',reports) ∧
      (CallReported calls reports a ↔ ∃ i j, Races (calls.map Call.attempt) a i j) := by
  obtain ⟨s',reports,ran,reported⟩ := callbacks_reported prepared named (gated_spare prepared named _ spare)
  refine ⟨s',reports,ran,?_⟩
  rw [reported,quiet,events_reported legal]

def forkBetweenWrites : List Call :=
  [⟨1,.access .write4 100 ⟨10,0,0⟩⟩,⟨1,.threadCreate 2⟩,⟨1,.access .write4 100 ⟨11,0,0⟩⟩,⟨2,.access .read4 100 ⟨20,0,0⟩⟩]

theorem reports_iff_race_forked : ∃ s' reports,
    invokeAll (.checked .leftFirst) (.ofThreads [1,2] (by decide)) forkBetweenWrites = some (s',reports) ∧
    (CallReported forkBetweenWrites reports 100 ↔ ∃ i j, Races (forkBetweenWrites.map Call.attempt) 100 i j) :=
  reports_iff_race (ofThreads_prepared (by decide)) rfl (by decide) (show Legal 1 _ by decide) (by decide) 100

end Detection
end EmbedSanitizer
