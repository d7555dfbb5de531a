import EmbedSanitizer.CallbackRuns
import EmbedSanitizer.LatestOrder
import EmbedSanitizer.Preparation

namespace EmbedSanitizer
open HappensBefore ThreadEvents EpochDetector

def Call.addr (c : Call) : Option Address :=
  match c.callback with
  | .access _ addr _ => some addr
  | _ => none

def CallReported (calls : List Call) (reports : List (Option Report)) (a : Address) : Prop :=
  ∃ (k : ℕ) (c : Call) (r : Report), calls[k]? = some c ∧ c.addr = some a ∧ reports[k]? = some (some r)

def counterAt (n : CInt) (calls : List Call) (k : ℕ) : CInt := ((calls.take k).map Call.attempt).foldl concurrentAfter n

section Events
variable {calls : List Call} {c : Call}

theorem eventsFrom_at (n : CInt) (k : ℕ) :
    (eventsFrom n calls)[k]? = calls[k]?.map fun c => c.event (counterAt n calls k) := by
  induction calls generalizing n k with
  | nil => rfl
  | cons c rest ih =>
    cases k with
    | zero => rfl
    | succ k =>
      simp only [eventsFrom,List.getElem?_cons_succ,ih,counterAt,List.take_succ_cons,List.map_cons,List.foldl_cons,
        concurrentAfter_event]

theorem threadsOf_event (c : Call) (n : CInt) : threadsOf (c.event n) = threadsOf c.attempt := by
  cases c with
  | mk self callback =>
  cases callback with
  | access entry addr site => simp only [Call.attempt,Call.event]; split <;> rfl
  | _ => rfl

theorem calls_named {s : Runtime} (named : Named s (calls.map Call.attempt)) (n : CInt) : Named s (eventsFrom n calls) := by
  intro e member t mem
  obtain ⟨k,found⟩ := List.getElem?_of_mem member
  rw [eventsFrom_at] at found
  obtain ⟨c,at_k,rfl⟩ := Option.map_eq_some_iff.mp found
  rw [threadsOf_event] at mem
  exact named c.attempt (List.mem_map_of_mem (List.mem_of_getElem? at_k)) t mem

theorem event_access {n : CInt} : c.event n = .access t kind a ↔
    n ≠ 0 ∧ c.self = t ∧ ∃ entry site, c.callback = .access entry a site ∧ entry.check = kind := by
  cases c with
  | mk self callback =>
  cases callback with
  | access entry addr site =>
    by_cases zero : n = 0
    · simp [Call.event,zero]
    · simp only [Call.event,if_pos zero]
      constructor
      · intro same; cases same; exact ⟨zero,rfl,entry,site,rfl,rfl⟩
      · rintro ⟨_,rfl,_,_,same,rfl⟩; cases same; rfl
  | _ => simp [Call.event]

theorem report_some {b : Bool} : c.report b = some r ↔
    b = true ∧ ∃ entry a site, c.callback = .access entry a site ∧ r = entry.report site := by
  cases c with
  | mk self callback =>
  cases callback with
  | access entry addr site => cases b <;> simp [Call.report,eq_comm]
  | _ => simp [Call.report]

end Events

section Detection
variable {cpp : Cpp} {s : Runtime} {calls : List Call}

theorem callbacks_reported (prepared : s.Prepared) (named : Named s (calls.map Call.attempt))
    (spare : Spare cpp s (eventsFrom s.isConcurrent calls)) : ∃ s' reports, invokeAll cpp s calls = some (s',reports) ∧
      ∀ a, CallReported calls reports a ↔ Reported (eventsFrom s.isConcurrent calls) a := by
  obtain ⟨s',verdicts,ran,_,_,reports⟩ := run_sim prepared.sim _ (calls_named named _) spare
  refine ⟨s',List.zipWith Call.report calls verdicts,by rw [invokeAll_events,ran]; rfl,fun a => ?_⟩
  constructor
  · rintro ⟨k,c,r,at_k,addr,reported⟩
    obtain ⟨d,b,at_k',verdict,report⟩ := List.getElem?_zipWith_eq_some.mp reported
    rw [at_k,Option.some.injEq] at at_k'
    subst at_k'
    obtain ⟨rfl,entry,a',site,callback,_⟩ := report_some.mp report
    have same : a' = a := by simpa [Call.addr,callback] using addr
    subst same
    have found : (eventsFrom s.isConcurrent calls)[k]? = some (c.event (counterAt s.isConcurrent calls k)) := by
      rw [eventsFrom_at,at_k]; rfl
    have detected := (reports k _ found).mp verdict
    refine ⟨k,_,found,?_,detected⟩
    by_cases checked : counterAt s.isConcurrent calls k ≠ 0
    · exact ⟨c.self,entry.check,event_access.mpr ⟨checked,rfl,entry,site,callback,rfl⟩⟩
    · simp [Call.event,callback,not_not.mp checked,Detector.Reports] at detected
  · rintro ⟨k,e,found,⟨t,kind,rfl⟩,detected⟩
    have verdict := (reports k _ found).mpr detected
    rw [eventsFrom_at] at found
    obtain ⟨c,at_k,event⟩ := Option.map_eq_some_iff.mp found
    obtain ⟨_,rfl,entry,site,callback,_⟩ := event_access.mp event
    refine ⟨k,c,entry.report site,at_k,by simp [Call.addr,callback],?_⟩
    rw [List.getElem?_zipWith_eq_some]
    exact ⟨c,true,at_k,verdict,report_some.mpr ⟨rfl,entry,a,site,callback,rfl⟩⟩

end Detection

def AccessCallback.isRead : AccessCallback → Bool
  | .read1 | .read2 | .read4 | .read8 | .read16 => true
  | .unalignedRead2 | .unalignedRead4 | .unalignedRead8 | .unalignedRead16 => true
  | .vptrRead => true
  | _ => false

def OnlyRead (calls : List Call) (a : Address) : Prop :=
  ∀ c ∈ calls, ∀ entry site, c.callback = .access entry a site → entry.isRead = true

-- Two checked accesses to a by different threads, at least one of them by
-- __tsan_vptr_read, that the latest releases, forks and joins leave unordered.
def UnorderedVptr (tr : List Event) (a : Address) (i j : ℕ) : Prop :=
  i < j ∧ (∃ t u k l, tr[i]? = some (.access t k a) ∧ tr[j]? = some (.access u l a) ∧ t ≠ u ∧
    (k = .update ∨ l = .update)) ∧ ¬ Before latest (number tr) i j

theorem read_check {entry : AccessCallback} (read : entry.isRead = true) : entry.check.writes = true ↔ entry.check = .update := by
  cases entry <;> simp_all [AccessCallback.isRead,AccessCallback.check,Access.writes]

theorem read_events {calls : List Call} {t : ThreadID} {kind : Access} {a : Address} {k : ℕ} (reads : OnlyRead calls a) (n : CInt)
    (found : (eventsFrom n calls)[k]? = some (.access t kind a)) : kind.writes = true ↔ kind = .update := by
  rw [eventsFrom_at] at found
  obtain ⟨c,at_k,event⟩ := Option.map_eq_some_iff.mp found
  obtain ⟨_,_,entry,site,callback,rfl⟩ := event_access.mp event
  exact read_check (reads c (List.mem_of_getElem? at_k) entry site callback)

-- An address on which only read callbacks are made stays quiet exactly when no
-- __tsan_vptr_read on it is unordered with the access of another thread.
theorem reads_quiet_iff {cpp : Cpp} {s : Runtime} {calls : List Call} (prepared : s.Prepared) (named : Named s (calls.map Call.attempt))
    (spare : Spare cpp s (eventsFrom s.isConcurrent calls)) {a : Address} (reads : OnlyRead calls a) :
    ∃ s' reports, invokeAll cpp s calls = some (s',reports) ∧
      (¬ CallReported calls reports a ↔ ¬ ∃ i j, UnorderedVptr (eventsFrom s.isConcurrent calls) a i j) := by
  obtain ⟨s',reports,ran,reported⟩ := callbacks_reported prepared named spare
  refine ⟨s',reports,ran,not_congr ?_⟩
  rw [reported,reported_iff_unseen]
  refine exists_congr fun i => exists_congr fun j => ?_
  rw [unseen_iff_latest]
  refine and_congr_right fun _ => and_congr_left fun _ => ?_
  constructor
  · rintro ⟨_,_,at_i,at_j,t,u,k,l,rfl,rfl,different,writes⟩
    exact ⟨t,u,k,l,at_i,at_j,different,writes.imp (read_events reads _ at_i).mp (read_events reads _ at_j).mp⟩
  · rintro ⟨t,u,k,l,at_i,at_j,different,updates⟩
    exact ⟨_,_,at_i,at_j,t,u,k,l,rfl,rfl,different,
      updates.imp (read_events reads _ at_i).mpr (read_events reads _ at_j).mpr⟩

def vptrReadBesideRead : List Call := [⟨1,.threadCreate 2⟩,⟨1,.access .vptrRead 100 ⟨10,0,0⟩⟩,⟨2,.access .read4 100 ⟨20,0,0⟩⟩]

def vptrReads : List Call := [⟨1,.threadCreate 2⟩,⟨1,.access .vptrRead 100 ⟨10,0,0⟩⟩,⟨2,.access .vptrRead 100 ⟨20,0,0⟩⟩]

theorem reads_quiet_iff_vptr : ∃ s' reports,
    invokeAll (.checked .leftFirst) (.ofThreads [1,2] (by decide)) vptrReadBesideRead = some (s',reports) ∧
    (¬ CallReported vptrReadBesideRead reports 100 ↔ ¬ ∃ i j, UnorderedVptr (eventsFrom 0 vptrReadBesideRead) 100 i j) :=
  reads_quiet_iff (ofThreads_prepared (by decide)) (by decide) (by decide) (by simp [vptrReadBesideRead,OnlyRead,AccessCallback.isRead])

theorem vptr_reads_reported : OnlyRead vptrReads 100 ∧
    Spare (.checked .leftFirst) (.ofThreads [1,2] (by decide)) (eventsFrom 0 vptrReads) ∧
    (invokeAll (.checked .leftFirst) (.ofThreads [1,2] (by decide)) vptrReads).map Prod.snd =
      some [none,none,some (.reportRaceOnWrite ⟨20,0,0⟩)] := by
  refine ⟨by simp [vptrReads,OnlyRead,AccessCallback.isRead],by decide,by decide⟩

section Ranges
variable {cpp : Cpp} {s : Runtime} {calls : List Call}

def Unskipped (n : CInt) (calls : List Call) : Prop := eventsFrom n calls = calls.map Call.attempt

instance (n : CInt) (calls : List Call) : Decidable (Unskipped n calls) := inferInstanceAs (Decidable (_ = _))

def Overlap (a n b m : ℕ) : Prop := ∃ x, a ≤ x ∧ x < a + n ∧ b ≤ x ∧ x < b + m

-- Accesses of any two sizes that start at one address meet in its entry.
theorem same_base_reported (prepared : s.Prepared) (named : Named s (calls.map Call.attempt)) {main : ThreadID}
    (legal : Legal main (calls.map Call.attempt)) (running : Unskipped s.isConcurrent calls)
    (spare : Spare cpp s (calls.map Call.attempt)) {i j : ℕ} {t u : ThreadID} {entry entry' : AccessCallback} {a : Address}
    {site site' : Site} (first : calls[i]? = some ⟨t,.access entry a site⟩) (second : calls[j]? = some ⟨u,.access entry' a site'⟩)
    (different : t ≠ u) (writes : entry.check.writes = true ∨ entry'.check.writes = true)
    (notBefore : ¬ Before order (calls.map Call.attempt) i j) (notAfter : ¬ Before order (calls.map Call.attempt) j i) :
    ∃ s' reports, invokeAll cpp s calls = some (s',reports) ∧ CallReported calls reports a := by
  have observed : eventsFrom s.isConcurrent calls = calls.map Call.attempt := running
  obtain ⟨s',reports,ran,reported⟩ := callbacks_reported prepared named (by rwa [observed])
  refine ⟨s',reports,ran,(reported a).mpr ?_⟩
  rw [observed,reported_iff_races (legal_disciplined legal)]
  refine ⟨i,j,⟨_,_,?_,?_,t,u,entry.check,entry'.check,rfl,rfl,different,writes⟩,notBefore,notAfter⟩
  · rw [List.getElem?_map,first]; rfl
  · rw [List.getElem?_map,second]; rfl

def twoSizes : List Call := [⟨1,.threadCreate 2⟩,⟨1,.access .write4 100 ⟨10,0,0⟩⟩,⟨2,.access .unalignedRead8 100 ⟨20,0,0⟩⟩]

def secondByte : List Call := [⟨1,.threadCreate 2⟩,⟨1,.access .write4 100 ⟨10,0,0⟩⟩,⟨2,.access .read1 101 ⟨20,0,0⟩⟩]

theorem same_base_reported_sizes : ∃ s' reports,
    invokeAll (.checked .leftFirst) (.ofThreads [1,2] (by decide)) twoSizes = some (s',reports) ∧ CallReported twoSizes reports 100 :=
  same_base_reported (i := 1) (j := 2) (ofThreads_prepared (by decide)) (by decide) (show Legal 1 _ by decide) (by decide)
    (by decide) rfl rfl (by decide) (by decide)
    (LogicalClock.unordered_of_count (legal_disciplined (show Legal 1 _ by decide)) (by decide) rfl rfl (by decide))
    (fun after => absurd (before_lt after) (by decide))

theorem overlap_unreported : Overlap 100 AccessCallback.write4.size 101 AccessCallback.read1.size ∧
    Legal 1 (secondByte.map Call.attempt) ∧ Unskipped 0 secondByte ∧
    Spare (.checked .leftFirst) (.ofThreads [1,2] (by decide)) (secondByte.map Call.attempt) ∧
    ¬ Before order (secondByte.map Call.attempt) 1 2 ∧ ¬ Before order (secondByte.map Call.attempt) 2 1 ∧
    (invokeAll (.checked .leftFirst) (.ofThreads [1,2] (by decide)) secondByte).map Prod.snd = some [none,none,none] := by
  refine ⟨⟨101,by decide⟩,by decide,by decide,by decide,?_,fun after => absurd (before_lt after) (by decide),by decide⟩
  exact LogicalClock.unordered_of_count (legal_disciplined (show Legal 1 _ by decide)) (by decide) rfl rfl (by decide)

end Ranges
end EmbedSanitizer
