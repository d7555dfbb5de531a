import EmbedSanitizer.CallbackRuns
import EmbedSanitizer.Lifetimes
import EmbedSanitizer.Preparation
import Mathlib.Data.Fintype.Card

namespace EmbedSanitizer
open HappensBefore ThreadEvents

theorem crew_bound {w : World ThreadID Address} {live : List ThreadID} (crew : Crew w live) : live.length ≤ 0x100000000 := by
  have nodup : (live.map BitVec.toFin).Nodup :=
    crew.nodup.map fun _ _ same => BitVec.toFin_inj.mp same
  simpa using nodup.length_le_card

section Counting
variable {w : World ThreadID Address} {live : List ThreadID} {n : CInt} {e : Event}

-- The counter is the number of live threads but one: a fork adds one without
-- wrapping around, and a join finds a thread to take away.
theorem crew_step (crew : Crew w live) (counts : live.length = n.toNat + 1) (allowed : w.Allows e) :
    ∃ live', Crew (w.after e) live' ∧ live'.length = (concurrentAfter n e).toNat + 1 := by
  cases e with
  | fork p u =>
    have grown := crew_fork crew allowed
    have bound := crew_bound grown
    refine ⟨u :: live,grown,?_⟩
    simp only [List.length_cons] at bound ⊢
    have next : (n + 1).toNat = n.toNat + 1 := by
      rw [BitVec.toNat_add]
      have one : (1 : CInt).toNat = 1 := rfl
      rw [one,Nat.mod_eq_of_lt (by omega)]
    rw [concurrentAfter,next,counts]
  | join p u =>
    obtain ⟨runs,runsU,apart⟩ := allowed
    have memP : p ∈ live := (crew.listed p).mpr runs
    have memU : u ∈ live := (crew.listed u).mpr runsU
    have several : 1 < live.length := by
      have left := List.length_erase_of_mem memU
      have kept : 0 < (live.erase u).length := List.length_pos_of_mem (crew.nodup.mem_erase_iff.mpr ⟨apart,memP⟩)
      omega
    have positive : n ≠ 0 := by rintro rfl; simp at counts; omega
    refine ⟨live.erase u,crew_join crew,?_⟩
    have previous : (n - 1).toNat = n.toNat - 1 := by
      have bound := n.isLt
      have one : (1 : CInt).toNat = 1 := rfl
      rw [BitVec.toNat_sub,one]
      omega
    rw [concurrentAfter,if_pos positive,previous,List.length_erase_of_mem memU]
    omega
  | acquire p m => exact ⟨live,crew_other crew (by simp) (by simp),counts⟩
  | release p m => exact ⟨live,crew_other crew (by simp) (by simp),counts⟩
  | access p kind a => exact ⟨live,crew_other crew (by simp) (by simp),counts⟩
  | skip p => exact ⟨live,crew_other crew (by simp) (by simp),counts⟩

theorem crew_run {main : ThreadID} {tr : List Event} (legal : Legal main tr) :
    ∃ live, Crew (worldAfter main tr) live ∧ live.length = (tr.foldl concurrentAfter 0).toNat + 1 := by
  induction tr using List.reverseRecOn with
  | nil => exact ⟨[main],crew_start main,rfl⟩
  | append_singleton tr e ih =>
    obtain ⟨legal,allowed⟩ := legal_snoc.mp legal
    obtain ⟨live,crew,counts⟩ := ih legal
    rw [worldAfter_snoc,List.foldl_append]
    exact crew_step crew counts allowed

theorem zero_alone {main : ThreadID} {tr : List Event} (legal : Legal main tr) (zero : tr.foldl concurrentAfter 0 = 0)
    (runs : Live (worldAfter main tr) p) : ∀ t, Live (worldAfter main tr) t → t = p := by
  obtain ⟨live,crew,counts⟩ := crew_run legal
  rw [zero] at counts
  obtain ⟨only,rfl⟩ := List.length_eq_one_iff.mp counts
  have single : ∀ t, Live (worldAfter main tr) t → t = only := fun t live =>
    List.mem_singleton.mp ((crew.listed t).mpr live)
  intro t live
  rw [single t live,single p runs]

end Counting

-- An access that is skipped because isConcurrent is zero is ordered with every
-- other event of the run, so it has no part in any race.
theorem gate_ordered {cpp : Cpp} {s : Runtime} (quiet : s.isConcurrent = 0) {main : ThreadID} {calls : List Call}
    (legal : Legal main (calls.map Call.attempt)) {k : ℕ} {self : ThreadID} {entry : AccessCallback} {addr : Address}
    {site : Site} (found : calls[k]? = some ⟨self,.access entry addr site⟩) {sk : Runtime} {reports : List (Option Report)}
    (ran : invokeAll cpp s (calls.take k) = some (sk,reports)) (zero : sk.isConcurrent = 0) :
    Call.invoke cpp sk ⟨self,.access entry addr site⟩ = some (sk,none) ∧
    (∀ j, j < calls.length → j ≠ k →
      Before order (calls.map Call.attempt) j k ∨ Before order (calls.map Call.attempt) k j) ∧
    ∀ a i j, Races (calls.map Call.attempt) a i j → i ≠ k ∧ j ≠ k := by
  have at_k : (calls.map Call.attempt)[k]? = some (.access self entry.check addr) := by
    simp [found,Call.attempt,Call.event]
  have counted : ((calls.map Call.attempt).take k).foldl concurrentAfter 0 = 0 := by
    rw [← List.map_take,← quiet,← invokeAll_counter ran,zero,quiet]
  have runs := allows_live (legal_at legal at_k)
  have ordered : ∀ j, j < calls.length → j ≠ k →
      Before order (calls.map Call.attempt) j k ∨ Before order (calls.map Call.attempt) k j := fun j bound different =>
    alone_ordered legal at_k rfl (zero_alone (legal_take legal k) counted runs) (by simpa using bound) different
  have raceless : ∀ a i j, Races (calls.map Call.attempt) a i j → i ≠ k := by
    rintro a i j races rfl
    have different := races.ne.symm
    obtain ⟨⟨_,_,_,at_j,_⟩,notBefore,notAfter⟩ := races
    have bound : j < calls.length := by simpa using (List.getElem?_eq_some_iff.mp at_j).1
    rcases ordered j bound different with before | after
    · exact notAfter before
    · exact notBefore after
  refine ⟨?_,ordered,fun a i j races => ⟨raceless a i j races,raceless a j i races.symm⟩⟩
  rw [invoke_event]
  simp [Call.event,zero,perform,Call.report]

def touchJoined : List Call :=
  [⟨1,.threadCreate 2⟩,⟨2,.access .write4 100 ⟨1,0,0⟩⟩,⟨1,.threadJoin 2⟩,⟨1,.access .read4 100 ⟨2,0,0⟩⟩]

theorem gate_ordered_joined : Before order (touchJoined.map Call.attempt) 1 3 ∨ Before order (touchJoined.map Call.attempt) 3 1 := by
  have ran := (Option.some_get (x := invokeAll (.checked .leftFirst) (.ofThreads [1,2] (by decide)) (touchJoined.take 3)) (by decide)).symm
  exact (gate_ordered (k := 3) (by decide) (show Legal 1 _ by decide) rfl ran (by decide)).2.1 1 (by decide) (by decide)

end EmbedSanitizer
