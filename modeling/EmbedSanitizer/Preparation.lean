import EmbedSanitizer.DetectorRefinement
import Mathlib.Data.List.Nodup

namespace EmbedSanitizer
open ThreadEvents EpochDetector

-- Threads registered beforehand: each is at clock 1, knows of no other, and has
-- room for every slot.
structure Runtime.Registry (s : Runtime) : Prop where
  apart : ∀ id t id' t', s.TS.find id = some t → s.TS.find id' = some t' → t.tid = t'.tid → id = id'
  room : ∀ id t id' t', s.TS.find id = some t → s.TS.find id' = some t' → t'.tid < t.C.length
  clocks : ∀ id t i, s.TS.find id = some t → i < t.C.length → t.C[i]? = some (if i = t.tid then lane i + 1 else lane i)
  epochs : ∀ id t, s.TS.find id = some t → t.C[t.tid]? = some t.epoch
  locks : ∀ m, s.LS.find m = none

structure Runtime.Prepared (s : Runtime) : Prop extends s.Registry where
  tids : ∀ id t, s.TS.find id = some t → 1 ≤ t.tid ∧ t.tid ≤ 255 ∧ t.tid < s.NumThreads
  sizes : ∀ id t, s.TS.find id = some t → t.C.length = s.NumThreads
  vars : ∀ a, s.Vstates.find a = none

section Starts
variable {s : Runtime} {id : ThreadID}

theorem slot_some : s.slot id = some k ↔ ∃ t, s.TS.find id = some t ∧ t.tid = k := by
  simp [Runtime.slot]

theorem Runtime.Registry.meaning (registry : s.Registry) (found : s.TS.find id = some t) (i : ℕ) :
    EmbedSanitizer.meaning t.C i = if i = t.tid then lane i + 1 else lane i := by
  rcases Nat.lt_or_ge i t.C.length with inside | outside
  · unfold EmbedSanitizer.meaning; rw [registry.clocks id t i found inside]; rfl
  · have room := registry.room id t id t found found
    rw [meaning_out outside,if_neg (by omega)]

theorem Runtime.Registry.sim (registry : s.Registry) : ClockSim s LogicalClock.start where
  apart := by
    intro id id' k at_id at_id'
    obtain ⟨t,found,tid⟩ := slot_some.mp at_id
    obtain ⟨t',found',tid'⟩ := slot_some.mp at_id'
    exact registry.apart id t id' t' found found' (tid.trans tid'.symm)
  threads := by
    intro id t found
    have entries := registry.meaning found
    refine ⟨⟨registry.room id t id t found found,?_⟩,?_,⟨fun i => ?_,fun id' k at_k => ?_⟩⟩
    · have epoch := registry.epochs id t found
      rw [meaning_in (registry.room id t id t found found)] at epoch
      exact (Option.some.inj epoch).symm
    · intro id' k at_k
      obtain ⟨t',found',rfl⟩ := slot_some.mp at_k
      exact registry.room id t id' t' found found'
    · rw [entries]
      split
      · exact (first_tick i).1
      · exact TID_lane i
    · obtain ⟨t',found',rfl⟩ := slot_some.mp at_k
      unfold count LogicalClock.start
      rw [entries]
      by_cases own : id' = id
      · subst own
        rw [found] at found'
        cases found'
        rw [if_pos rfl,if_pos rfl]
        exact (first_tick t.tid).2
      · have other : t'.tid ≠ t.tid := fun same => own (registry.apart id' t' id t found' found same)
        simp [other,Ne.symm own]
  locks := by
    intro m
    have empty : s.lockClock m = [] := by simp [Runtime.lockClock,registry.locks m]
    rw [empty]
    exact models_nil s.slot

theorem Runtime.Prepared.sim (prepared : s.Prepared) : DetectorSim s .start where
  clocks := prepared.toRegistry.sim
  bounded := by
    intro id k at_k
    obtain ⟨t,found,rfl⟩ := slot_some.mp at_k
    exact Nat.lt_succ_of_le (prepared.tids id t found).2.1
  counted := by
    intro id k at_k
    obtain ⟨t,found,rfl⟩ := slot_some.mp at_k
    exact (prepared.tids id t found).2.2
  opened := by intro a x found; rw [prepared.vars a] at found; cases found
  unopened := fun _ _ => rfl

theorem prepared_run {cpp : Cpp} (prepared : s.Prepared) {tr : List Event} (named : Named s tr) (spare : Spare cpp s tr) :
    ∃ s' verdicts, performAll cpp s tr = some (s',verdicts) ∧ DetectorSim s' (run tr) ∧
      ∀ a, RaceReported tr verdicts a ↔ Reported tr a := by
  obtain ⟨s',verdicts,ran,sim,_,reports⟩ := run_sim prepared.sim tr named spare
  refine ⟨s',verdicts,ran,sim,fun a => ?_⟩
  constructor
  · rintro ⟨k,e,found,touches,verdict⟩
    exact ⟨k,e,found,touches,(reports k e found).mp verdict⟩
  · rintro ⟨k,e,found,touches,verdict⟩
    exact ⟨k,e,found,touches,(reports k e found).mpr verdict⟩

end Starts

section Threads

def freshThread (n tid : ℕ) : ThreadState :=
  ⟨tid,(List.range n).map fun i => if i = tid then lane i + 1 else lane i,lane tid + 1⟩

theorem present_at {ids : List ThreadID} (f : ℕ → ThreadState) (id : ThreadID) :
    id ∈ ids ↔ ((ids.idxOf? id).map f).isSome := by simp

-- The threads ids registered one after another, each with room for all of them.
def Runtime.ofThreads (ids : List ThreadID) (nodup : ids.Nodup) : Runtime :=
  {Runtime.empty with
    TS := ⟨fun id => (ids.idxOf? id).map fun i => freshThread (ids.length + 1) (i + 1),ids,nodup,present_at _⟩
    NumThreads := ids.length + 1}

variable {ids : List ThreadID} {nodup : ids.Nodup}

theorem ofThreads_find {id : ThreadID} (found : (Runtime.ofThreads ids nodup).TS.find id = some t) :
    ∃ i, i < ids.length ∧ ids[i]? = some id ∧ t = freshThread (ids.length + 1) (i + 1) := by
  obtain ⟨i,at_i,rfl⟩ := Option.map_eq_some_iff.mp found
  obtain ⟨bound,same,_⟩ := List.idxOf?_eq_some_iff.mp at_i
  exact ⟨i,bound,by simpa [List.getElem?_eq_getElem bound] using same,rfl⟩

theorem ofThreads_registry : (Runtime.ofThreads ids nodup).Registry where
  apart := by
    intro id t id' t' found found' same
    obtain ⟨i,_,at_i,rfl⟩ := ofThreads_find found
    obtain ⟨j,_,at_j,rfl⟩ := ofThreads_find found'
    have equal : i = j := Nat.succ.inj same
    rw [equal,at_j] at at_i
    exact (Option.some.inj at_i).symm
  room := by
    intro id t id' t' found found'
    obtain ⟨i,_,_,rfl⟩ := ofThreads_find found
    obtain ⟨j,bound,_,rfl⟩ := ofThreads_find found'
    simpa [freshThread] using bound
  clocks := by
    intro id t i found inside
    obtain ⟨j,_,_,rfl⟩ := ofThreads_find found
    have bound : i < ids.length + 1 := by simpa [freshThread] using inside
    rw [freshThread,List.getElem?_map,List.getElem?_range bound]
    rfl
  epochs := by
    intro id t found
    obtain ⟨j,bound,_,rfl⟩ := ofThreads_find found
    have inside : j + 1 < ids.length + 1 := Nat.succ_lt_succ bound
    simp only [freshThread,List.getElem?_map,List.getElem?_range inside,Option.map_some,if_true]
  locks := fun _ => rfl

theorem ofThreads_prepared (few : ids.length ≤ 255) : (Runtime.ofThreads ids nodup).Prepared where
  toRegistry := ofThreads_registry
  tids := by
    intro id t found
    obtain ⟨j,bound,_,rfl⟩ := ofThreads_find found
    have counted : (Runtime.ofThreads ids nodup).NumThreads = ids.length + 1 := rfl
    rw [counted]
    simp only [freshThread]
    omega
  sizes := by
    intro id t found
    obtain ⟨j,_,_,rfl⟩ := ofThreads_find found
    simp [freshThread,Runtime.ofThreads]
  vars := fun _ => rfl

end Threads

section Decisions

def unspentKeys (s : Runtime) : Bool := s.TS.keys.all fun id => (s.TS.find id).all fun t => CLOCK t.epoch != 0xFFFFFF

theorem unspent_iff_keys (s : Runtime) : s.Unspent ↔ unspentKeys s = true := by
  unfold unspentKeys
  rw [List.all_eq_true]
  constructor
  · intro unspent id _
    cases found : s.TS.find id with
    | none => rfl
    | some t => simpa using unspent id t found
  · intro spare id t found
    have checked := spare id ((s.TS.present id).mpr (by simp [found]))
    simpa [found] using checked

instance (s : Runtime) : Decidable s.Unspent := decidable_of_iff _ (unspent_iff_keys s).symm

instance decidableSpare (cpp : Cpp) (s : Runtime) : (tr : List Event) → Decidable (Spare cpp s tr)
  | [] => inferInstanceAs (Decidable s.Unspent)
  | e :: rest =>
    match ran : perform cpp s e with
    | none => decidable_of_iff s.Unspent (by simp [Spare,ran])
    | some (s',b) =>
      have := decidableSpare cpp s' rest
      decidable_of_iff (s.Unspent ∧ Spare cpp s' rest) (by simp [Spare,ran])

instance (s : Runtime) (id : ThreadID) : Decidable (s.Registered id) :=
  decidable_of_iff ((s.TS.find id).isSome = true) Option.isSome_iff_exists

theorem named_iff_all (s : Runtime) (tr : List Event) :
    Named s tr ↔ (tr.all fun e => (threadsOf e).all fun t => decide (s.Registered t)) = true := by
  simp [Named]

instance (s : Runtime) (tr : List Event) : Decidable (Named s tr) := decidable_of_iff _ (named_iff_all s tr).symm

end Decisions
end EmbedSanitizer
