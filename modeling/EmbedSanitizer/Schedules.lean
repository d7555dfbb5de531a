import EmbedSanitizer.CallbackDetection
import EmbedSanitizer.AnnouncedOrder

namespace EmbedSanitizer
open HappensBefore ThreadEvents EpochDetector Interleaving

abbrev Step := Action ThreadID Address Call

-- The steps with every callback as the event it would be if it were not skipped.
def attempts (acts : List Step) : List (Action ThreadID Address Event) := acts.map (Action.map Call.attempt)

-- The steps with every callback as the event it is, isConcurrent being n at first.
def observed (n : CInt) : List Step → List (Action ThreadID Address Event)
  | [] => []
  | .callback c :: rest => .callback (c.event n) :: observed (concurrentAfter n (c.event n)) rest
  | .lock t m :: rest => .lock t m :: observed n rest
  | .unlock t m :: rest => .unlock t m :: observed n rest
  | .create t u :: rest => .create t u :: observed n rest
  | .join t u :: rest => .join t u :: observed n rest
  | .exit t :: rest => .exit t :: observed n rest

def Clash (a : Address) (c c' : Call) : Prop :=
  c.self ≠ c'.self ∧ ∃ entry entry' site site', c.callback = .access entry a site ∧ c'.callback = .access entry' a site' ∧
    (entry.isRead = false ∨ entry'.isRead = false)

def Ordered (acts : List Step) : Prop :=
  ∀ i j c c' a, acts[i]? = some (.callback c) → acts[j]? = some (.callback c') → Clash a c c' →
    Before real (attempts acts) i j ∨ Before real (attempts acts) j i

-- A __tsan_vptr_read that is not skipped is ordered by the program with whatever
-- else another thread has checked on its address: it is itself checked as a write.
def VptrOrdered (n : CInt) (acts : List Step) : Prop :=
  ∀ i j t u k a, (observed n acts)[i]? = some (.callback (.access t .update a)) →
    (observed n acts)[j]? = some (.callback (.access u k a)) → t ≠ u →
    Before real (attempts acts) i j ∨ Before real (attempts acts) j i

section Gates

inductive Gated : Action ThreadID Address Event → Action ThreadID Address Event → Prop
  | same (a) : Gated a a
  | skipped (t k x) : Gated (.callback (.access t k x)) (.callback (.skip t))

theorem event_gated (c : Call) (n : CInt) : Gated (.callback c.attempt) (.callback (c.event n)) := by
  cases c with
  | mk self callback =>
  cases callback with
  | access entry addr site =>
    by_cases checked : n ≠ 0
    · simp only [Call.attempt,Call.event,if_pos checked]; exact .same _
    · simp only [Call.attempt,Call.event,if_neg checked]; exact .skipped _ _ _
  | _ => exact .same _

theorem observed_gated (n : CInt) (acts : List Step) : List.Forall₂ Gated (attempts acts) (observed n acts) := by
  induction acts generalizing n with
  | nil => exact .nil
  | cons a rest ih =>
    cases a with
    | callback c => exact .cons (event_gated c n) (ih _)
    | _ => exact .cons (.same _) (ih n)

theorem observed_callbacks (n : CInt) (acts : List Step) : callbacks (observed n acts) = eventsFrom n (callbacks acts) := by
  induction acts generalizing n with
  | nil => rfl
  | cons a rest ih =>
    cases a with
    | callback c => exact congrArg (c.event n :: ·) (ih _)
    | _ => exact ih n

theorem gated_allows {s : Machine ThreadID Address} (gated : Gated a b) : s.Allows a ↔ s.Allows b := by
  cases gated <;> exact Iff.rfl

theorem gated_after {s : Machine ThreadID Address} (gated : Gated a b) : s.after a = s.after b := by
  cases gated <;> rfl

theorem gated_scheduledFrom {s : Machine ThreadID Address} {tr tr' : List (Action ThreadID Address Event)}
    (gated : List.Forall₂ Gated tr tr') : ScheduledFrom s tr ↔ ScheduledFrom s tr' := by
  induction gated generalizing s with
  | nil => exact Iff.rfl
  | cons first _ ih => exact and_congr (gated_allows first) ((gated_after first : s.after _ = _) ▸ ih)

theorem gated_before {tr tr' : List (Action ThreadID Address Event)} (gated : List.Forall₂ Gated tr tr')
    (before : Before real tr i j) : Before real tr' i j :=
  before_forall₂ (gated.imp fun _ _ one => by cases one <;> exact ⟨rfl,rfl⟩) before

theorem observed_access {n : CInt} {acts : List Step} {k : ℕ} (found : (observed n acts)[k]? = some (.callback (.access t kind a))) :
    ∃ entry site, acts[k]? = some (.callback ⟨t,.access entry a site⟩) ∧ entry.check = kind := by
  induction acts generalizing n k with
  | nil => cases found
  | cons first rest ih =>
    cases k with
    | zero =>
      cases first with
      | callback c =>
        have event : c.event n = .access t kind a := Action.callback.inj (Option.some.inj found)
        obtain ⟨_,rfl,entry,site,callback,checked⟩ := event_access.mp event
        exact ⟨entry,site,by rw [← callback]; rfl,checked⟩
      | _ => cases found
    | succ k =>
      cases first with
      | callback c => exact ih (n := concurrentAfter n (c.event n)) found
      | _ => exact ih (n := n) found

end Gates

section Reports
variable {cpp : Cpp} {s : Runtime}

theorem reported_call {calls : List Call} (ran : invokeAll cpp s calls = some (s',reports)) {k : ℕ} {r : Report}
    (reported : reports[k]? = some (some r)) : ∃ a, CallReported calls reports a := by
  rw [invokeAll_events] at ran
  obtain ⟨⟨s₁,verdicts⟩,_,same⟩ := Option.map_eq_some_iff.mp ran
  cases same
  obtain ⟨c,b,at_k,_,report⟩ := List.getElem?_zipWith_eq_some.mp reported
  obtain ⟨_,_,a,_,callback,_⟩ := report_some.mp report
  exact ⟨a,k,c,r,at_k,by simp [Call.addr,callback],reported⟩

theorem writing_check {entry : AccessCallback} (writes : entry.check.writes = true) (other : entry.check ≠ .update) :
    entry.isRead = false := by
  cases read : entry.isRead with
  | false => rfl
  | true => exact absurd ((read_check read).mp writes) other

theorem checked_ordered {n : CInt} {acts : List Step} (ordered : Ordered acts) (virtual : VptrOrdered n acts)
    (at_i : (observed n acts)[i]? = some (.callback (.access t k a))) (at_j : (observed n acts)[j]? = some (.callback (.access u l a)))
    (different : t ≠ u) (writes : k.writes = true ∨ l.writes = true) :
    Before real (attempts acts) i j ∨ Before real (attempts acts) j i := by
  by_cases left : k = .update
  · subst left; exact virtual i j t u l a at_i at_j different
  by_cases right : l = .update
  · subst right; exact (virtual j i u t k a at_j at_i different.symm).symm
  obtain ⟨entry,site,found_i,rfl⟩ := observed_access at_i
  obtain ⟨entry',site',found_j,rfl⟩ := observed_access at_j
  exact ordered i j _ _ a found_i found_j ⟨different,entry,entry',site,site',rfl,rfl,
    writes.imp (writing_check · left) (writing_check · right)⟩

-- A creation that is announced before its child does anything that counts gives no
-- false alarm, whatever the schedule.
theorem announced_quiet (prepared : s.Prepared) {main : ThreadID} {acts : List Step} (scheduled : Scheduled main (attempts acts))
    (named : Named s ((callbacks acts).map Call.attempt)) (spare : Spare cpp s (eventsFrom s.isConcurrent (callbacks acts)))
    (timely : Timely main (observed s.isConcurrent acts)) (ordered : Ordered acts) (virtual : VptrOrdered s.isConcurrent acts) :
    ∃ s' reports, invokeAll cpp s (callbacks acts) = some (s',reports) ∧ ∀ r ∈ reports, r = none := by
  obtain ⟨s',reports,ran,detected⟩ := callbacks_reported prepared named spare
  refine ⟨s',reports,ran,fun r member => ?_⟩
  cases r with
  | none => rfl
  | some r =>
    obtain ⟨k,at_k⟩ := List.getElem?_of_mem member
    obtain ⟨a,reported⟩ := reported_call ran at_k
    have gated := observed_gated s.isConcurrent acts
    have quiet : ¬ Reported (callbacks (observed s.isConcurrent acts)) a := by
      refine callbacks_quiet ((gated_scheduledFrom gated).mp scheduled) timely ?_
      intro i j e e' at_i at_j conflict
      obtain ⟨t,u,k,l,rfl,rfl,different,writes⟩ := conflict
      exact (checked_ordered ordered virtual at_i at_j different writes).imp (gated_before gated) (gated_before gated)
    rw [observed_callbacks] at quiet
    exact absurd ((detected a).mp reported) quiet

end Reports

section Announcements

theorem ordered_of_two {acts : List Step} {n m : ℕ} {t u : ThreadID}
    (two : ∀ k c entry a site, acts[k]? = some (.callback c) → c.callback = .access entry a site →
      (k = n ∧ c.self = t) ∨ (k = m ∧ c.self = u))
    (before : Before real (attempts acts) n m) : Ordered acts := by
  rintro i j c c' a at_i at_j ⟨different,entry,entry',site,site',first,second,_⟩
  rcases two i c entry a site at_i first with ⟨rfl,own⟩ | ⟨rfl,own⟩
  · rcases two j c' entry' a site' at_j second with ⟨rfl,own'⟩ | ⟨rfl,own'⟩
    · exact absurd (own.trans own'.symm) different
    · exact .inl before
  · rcases two j c' entry' a site' at_j second with ⟨rfl,own'⟩ | ⟨rfl,own'⟩
    · exact .inr before
    · exact absurd (own.trans own'.symm) different

-- While thread 2 is live, thread 1 sets a virtual pointer and then creates thread 3,
-- which reads it.
def announcedFirst : List Step :=
  [.create 1 2,.callback ⟨1,.threadCreate 2⟩,.callback ⟨1,.access (.vptrUpdate 7) 100 ⟨10,0,0⟩⟩,.create 1 3,
    .callback ⟨1,.threadCreate 3⟩,.callback ⟨3,.access .vptrRead 100 ⟨20,0,0⟩⟩]

def announcedLate : List Step :=
  [.create 1 2,.callback ⟨1,.threadCreate 2⟩,.callback ⟨1,.access .write4 100 ⟨10,0,0⟩⟩,.create 1 3,
    .callback ⟨3,.access .write4 100 ⟨20,0,0⟩⟩,.callback ⟨1,.threadCreate 3⟩]

theorem announcedFirst_before : Before real (attempts announcedFirst) 2 5 := by
  have creates : Linked real (attempts announcedFirst) 2 3 := ⟨by decide,_,_,.thread 1,rfl,rfl,rfl,rfl⟩
  have starts : Linked real (attempts announcedFirst) 3 5 := ⟨by decide,_,_,.thread 3,rfl,rfl,Or.inr rfl,rfl⟩
  exact .tail (.single creates) starts

theorem announcedFirst_ordered : Ordered announcedFirst := by
  apply ordered_of_two (n := 2) (m := 5) (t := 1) (u := 3) _ announcedFirst_before
  intro k c entry a site found access
  rcases k with _ | _ | _ | _ | _ | _ | k <;> simp [announcedFirst] at found <;> subst found <;> simp_all

theorem announcedFirst_vptr : VptrOrdered 0 announcedFirst := by
  intro i j t u k a at_i at_j different
  have reader : i = 5 ∧ t = 3 := by
    rcases i with _ | _ | _ | _ | _ | _ | i <;>
      simp_all [announcedFirst,observed,Call.event,concurrentAfter,AccessCallback.check]
  have updater : (j = 2 ∧ u = 1) ∨ (j = 5 ∧ u = 3) := by
    rcases j with _ | _ | _ | _ | _ | _ | j <;>
      simp_all [announcedFirst,observed,Call.event,concurrentAfter,AccessCallback.check]
  obtain ⟨rfl,rfl⟩ := reader
  rcases updater with ⟨rfl,_⟩ | ⟨_,rfl⟩
  · exact .inr announcedFirst_before
  · exact absurd rfl different

theorem announcedLate_ordered : Ordered announcedLate := by
  apply ordered_of_two (n := 2) (m := 4) (t := 1) (u := 3)
  · intro k c entry a site found access
    rcases k with _ | _ | _ | _ | _ | _ | k <;> simp [announcedLate] at found <;> subst found <;> simp_all
  · have creates : Linked real (attempts announcedLate) 2 3 := ⟨by decide,_,_,.thread 1,rfl,rfl,rfl,rfl⟩
    have starts : Linked real (attempts announcedLate) 3 4 := ⟨by decide,_,_,.thread 3,rfl,rfl,Or.inr rfl,rfl⟩
    exact .tail (.single creates) starts

theorem announced_quiet_first : ∃ s' reports,
    invokeAll (.checked .leftFirst) (.ofThreads [1,2,3] (by decide)) (callbacks announcedFirst) = some (s',reports) ∧
    ∀ r ∈ reports, r = none :=
  announced_quiet (ofThreads_prepared (by decide)) (show Scheduled 1 _ by decide) (by decide) (by decide)
    (by decide) announcedFirst_ordered announcedFirst_vptr

-- The write of thread 3 is reported though thread 1 wrote before it created thread 3.
theorem late_creation_reported : Scheduled 1 (attempts announcedLate) ∧ Ordered announcedLate ∧
    (Runtime.ofThreads [1,2,3] (by decide)).Prepared ∧
    Named (.ofThreads [1,2,3] (by decide)) ((callbacks announcedLate).map Call.attempt) ∧
    Spare (.checked .leftFirst) (.ofThreads [1,2,3] (by decide)) (eventsFrom 0 (callbacks announcedLate)) ∧
    (invokeAll (.checked .leftFirst) (.ofThreads [1,2,3] (by decide)) (callbacks announcedLate)).map Prod.snd =
      some [none,none,some (.reportRaceOnWrite ⟨20,0,0⟩),none] := by
  refine ⟨by decide,announcedLate_ordered,ofThreads_prepared (by decide),by decide,by decide,by decide⟩

end Announcements
end EmbedSanitizer
