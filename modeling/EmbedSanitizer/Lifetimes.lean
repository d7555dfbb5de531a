import EmbedSanitizer.ThreadEvents
import Mathlib.Data.List.Nodup
import Mathlib.Data.List.Induction

namespace ThreadEvents
open HappensBefore

section Lifetimes
variable {T L A : Type*} [DecidableEq T] [DecidableEq L] {main : T} {tr : List (Event T L A)} {e : Event T L A}

def worldAfter (main : T) (tr : List (Event T L A)) : World T L := tr.foldl World.after (World.start main)

@[simp] theorem worldAfter_nil : worldAfter main ([] : List (Event T L A)) = World.start main := rfl
@[simp] theorem worldAfter_snoc : worldAfter main (tr ++ [e]) = (worldAfter main tr).after e := by simp [worldAfter]

theorem legal_snoc : Legal main (tr ++ [e]) ↔ Legal main tr ∧ (worldAfter main tr).Allows e := by
  simp [Legal,legalFrom_append,LegalFrom,worldAfter]

theorem legal_take (legal : Legal main tr) (k : ℕ) : Legal main (tr.take k) := by
  rw [← List.take_append_drop k tr] at legal
  exact (legalFrom_append.mp legal).1

theorem legal_at (legal : Legal main tr) (found : tr[k]? = some e) : (worldAfter main (tr.take k)).Allows e := by
  have prefixLegal := legal_take legal (k+1)
  rw [take_at found] at prefixLegal
  exact (legal_snoc.mp prefixLegal).2

def Live (w : World T L) (t : T) : Prop := w.status t = .running

omit [DecidableEq T] [DecidableEq L] in
theorem allows_live {w : World T L} (allowed : w.Allows e) : Live w e.actor := by
  cases e with
  | access t kind a => exact allowed
  | skip t => exact allowed
  | _ => exact allowed.1

theorem live_after (w : World T L) (e : Event T L A) (t : T) : Live (w.after e) t ↔
    (∃ p, e = .fork p t) ∨ (Live w t ∧ ∀ p, e ≠ .join p t) := by
  unfold Live
  cases e with
  | fork p u =>
    by_cases own : t = u
    · subst own; simp [World.after]
    · simp [World.after,own,Ne.symm own]
  | join p u =>
    by_cases own : t = u
    · subst own; simp [World.after]
    · simp [World.after,own,Ne.symm own]
  | _ => simp [World.after]

theorem actor_stays {w : World T L} (allowed : w.Allows e) : Live (w.after e) e.actor := by
  refine (live_after w e _).mpr (.inr ⟨allows_live allowed,?_⟩)
  intro p same
  rw [same] at allowed
  exact allowed.2.2 (congrArg Event.actor same).symm

-- Every event is in the past of a thread that is still live: its own, or whoever
-- joined that one, and so on.
theorem reaches_live (legal : Legal main tr) (old : i < tr.length) :
    ∃ t, Live (worldAfter main tr) t ∧ Reaches order tr i (.thread t) := by
  induction tr using List.reverseRecOn with
  | nil => cases old
  | append_singleton tr e ih =>
    obtain ⟨legal,allowed⟩ := legal_snoc.mp legal
    rw [worldAfter_snoc]
    rcases Nat.lt_or_ge i tr.length with earlier | last
    · obtain ⟨t,live,reach⟩ := ih legal earlier
      by_cases joined : ∃ p, e = .join p t
      · obtain ⟨p,rfl⟩ := joined
        refine ⟨p,actor_stays allowed,(reaches_snoc earlier).mpr (.inr ⟨rfl,.thread t,.inr rfl,reach⟩)⟩
      · refine ⟨t,(live_after _ e t).mpr (.inr ⟨live,fun p same => joined ⟨p,same⟩⟩),reaches_append [e] reach⟩
    · have at_end : i = tr.length := by
        simp only [List.length_append,List.length_singleton] at old; omega
      subst at_end
      exact ⟨e.actor,actor_stays allowed,reaches_new.mpr (feeds_actor e)⟩

theorem reaches_all_live (legal : Legal main (tr ++ rest)) (old : k < tr.length)
    (known : ∀ t, Live (worldAfter main tr) t → Reaches order tr k (.thread t)) :
    ∀ t, Live (worldAfter main (tr ++ rest)) t → Reaches order (tr ++ rest) k (.thread t) := by
  induction rest using List.reverseRecOn with
  | nil => simpa using known
  | append_singleton rest e ih =>
    rw [← List.append_assoc] at legal ⊢
    obtain ⟨before,allowed⟩ := legal_snoc.mp legal
    have earlier : k < (tr ++ rest).length := by simp; omega
    intro t live
    rw [worldAfter_snoc] at live
    rcases (live_after _ e t).mp live with ⟨p,rfl⟩ | ⟨live,_⟩
    · exact (reaches_snoc earlier).mpr (.inr ⟨.inr rfl,.thread p,rfl,ih before p (allows_live allowed)⟩)
    · exact reaches_append [e] (ih before t live)

-- An event made while its thread is the only live one, and that leaves it so, is
-- ordered with every other event of the run.
theorem alone_ordered (legal : Legal main tr) (found : tr[k]? = some e) (quiet : e.Synchronizes = false)
    (alone : ∀ t, Live (worldAfter main (tr.take k)) t → t = e.actor) (bound : j < tr.length) (different : j ≠ k) :
    Before order tr j k ∨ Before order tr k j := by
  have here := (List.getElem?_eq_some_iff.mp found).1
  have length : (tr.take k).length = k := by simp [Nat.le_of_lt here]
  rcases Nat.lt_or_gt_of_ne different with earlier | later
  · obtain ⟨t,live,reach⟩ := reaches_live (legal_take legal k) (by rw [length]; exact earlier)
    exact .inl ((before_reaches found).mpr ⟨_,draws_actor e,alone t live ▸ reach⟩)
  · have at_k := take_at found
    have span := take_split tr (show k + 1 ≤ j from later)
    have known : ∀ t, Live (worldAfter main (tr.take (k+1))) t → Reaches order (tr.take (k+1)) k (.thread t) := by
      intro t live
      rw [at_k,worldAfter_snoc] at live
      have only : t = e.actor := by
        rcases (live_after _ e t).mp live with ⟨p,rfl⟩ | ⟨live,_⟩
        · cases quiet
        · exact alone t live
      have fed : Reaches order (tr.take k ++ [e]) (tr.take k).length (.thread e.actor) := reaches_new.mpr (feeds_actor e)
      rw [length,← at_k] at fed
      exact only ▸ fed
    obtain ⟨d,found_j⟩ : ∃ d, tr[j]? = some d := ⟨_,List.getElem?_eq_getElem bound⟩
    have legal_j := legal_take legal j
    rw [span] at legal_j
    have reach := reaches_all_live legal_j (by simp [Nat.succ_le_of_lt here]) known d.actor
      (by rw [← span]; exact allows_live (legal_at legal found_j))
    rw [← span] at reach
    exact .inr ((before_reaches found_j).mpr ⟨_,draws_actor d,reach⟩)

structure Crew (w : World T L) (live : List T) : Prop where
  nodup : live.Nodup
  listed : ∀ t, t ∈ live ↔ Live w t

omit [DecidableEq L] in
theorem crew_start (main : T) : Crew (World.start main : World T L) [main] := by
  refine ⟨List.nodup_singleton main,fun t => ?_⟩
  by_cases own : t = main <;> simp [Live,World.start,own]

theorem crew_fork {w : World T L} (crew : Crew w live) (allowed : w.Allows (.fork p u : Event T L A)) :
    Crew (w.after (.fork p u : Event T L A)) (u :: live) := by
  have absent : u ∉ live := by
    rw [crew.listed]; intro running; rw [Live,allowed.2] at running; cases running
  refine ⟨List.nodup_cons.mpr ⟨absent,crew.nodup⟩,fun t => ?_⟩
  rw [live_after,List.mem_cons,crew.listed]
  simp [eq_comm]

theorem crew_join {w : World T L} (crew : Crew w live) :
    Crew (w.after (.join p u : Event T L A)) (live.erase u) := by
  refine ⟨crew.nodup.erase u,fun t => ?_⟩
  rw [live_after,crew.nodup.mem_erase_iff,crew.listed]
  simp [and_comm,eq_comm]

theorem crew_other {w : World T L} (crew : Crew w live) (forks : ∀ p u, e ≠ .fork p u) (joins : ∀ p u, e ≠ .join p u) :
    Crew (w.after e) live := by
  refine ⟨crew.nodup,fun t => ?_⟩
  rw [live_after,crew.listed]
  simp [forks,joins]

end Lifetimes
end ThreadEvents
