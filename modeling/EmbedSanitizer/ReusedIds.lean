import EmbedSanitizer.Exactness
import EmbedSanitizer.Recycling

namespace EmbedSanitizer
open HappensBefore ThreadEvents EpochDetector

-- A thread is known to the runtime by its pthread id only; it is the nth with that id.
abbrev Lifetime := ThreadID × ℕ
abbrev LifetimeEvent := ThreadEvents.Event Lifetime Address Address

def idsOf (tr : List LifetimeEvent) : List Event := tr.map (Event.rename Prod.fst)

-- Two conflicting accesses by threads of a run in which ids are given again are
-- detected if they are unordered even when the threads of one id count as one.
theorem reused_ids_reported {cpp : Cpp} {s : Runtime} (prepared : s.Prepared) {main : ThreadID} {tr : List LifetimeEvent}
    (named : Named s (idsOf tr)) (recycled : Recycled main tr) (spare : Spare cpp s (idsOf tr)) {i j : ℕ} {t u : Lifetime}
    {k l : Access} {a : Address} (first : tr[i]? = some (.access t k a)) (second : tr[j]? = some (.access u l a))
    (different : t ≠ u) (writes : k.writes = true ∨ l.writes = true) (notBefore : ¬ Before (orderOfNames Prod.fst) tr i j)
    (notAfter : ¬ Before (orderOfNames Prod.fst) tr j i) :
    ∃ s' verdicts, performAll cpp s (idsOf tr) = some (s',verdicts) ∧ RaceReported (idsOf tr) verdicts a := by
  obtain ⟨s',verdicts,ran,_,reports⟩ := prepared_run prepared named spare
  refine ⟨s',verdicts,ran,(reports a).mpr ((reported_iff_races (recycled_disciplined recycled) a).mpr ⟨i,j,?_,?_,?_⟩)⟩
  · have ids : t.1 ≠ u.1 := by
      intro same
      rcases Nat.lt_trichotomy i j with less | equal | more
      · exact notBefore (before_same_name first second less same)
      · rw [equal,second] at first
        cases first
        exact different rfl
      · exact notAfter (before_same_name second first more same.symm)
    refine ⟨.access t.1 k a,.access u.1 l a,?_,?_,t.1,u.1,k,l,rfl,rfl,ids,writes⟩
    · rw [List.getElem?_map,first]; rfl
    · rw [List.getElem?_map,second]; rfl
  · exact mt rename_before.mp notBefore
  · exact mt rename_before.mp notAfter

def laterWriter : List LifetimeEvent :=
  [.fork (1,0) (2,0),.fork (1,0) (3,0),.access (2,0) .write 100,.join (1,0) (2,0),.fork (1,0) (2,1),
    .access (3,0) .write 200,.access (2,1) .write 200]

theorem reused_ids_reported_later : ∃ s' verdicts,
    performAll (.checked .leftFirst) (.ofThreads [1,2,3] (by decide)) (idsOf laterWriter) = some (s',verdicts) ∧
    RaceReported (idsOf laterWriter) verdicts 200 := by
  have recycled : Recycled 1 laterWriter := by decide
  have disciplined : Disciplined (idsOf laterWriter) := recycled_disciplined recycled
  refine reused_ids_reported (i := 5) (j := 6) (ofThreads_prepared (by decide)) (by decide) recycled (by decide) rfl rfl
    (by decide) (by decide) ?_ (fun after => absurd (before_lt after) (by decide))
  rw [← rename_before]
  exact LogicalClock.unordered_of_count disciplined (by decide) rfl rfl (by decide)

-- Thread 2 writes and is joined by 1; thread 3, which knows nothing of that, creates
-- the next thread with the id 2, and this one writes to the same address.
def heirWriter : List LifetimeEvent :=
  [.fork (1,0) (2,0),.fork (1,0) (3,0),.access (2,0) .write 100,.join (1,0) (2,0),.fork (3,0) (2,1),.access (2,1) .write 100]

theorem heir_unreported : Recycled 1 heirWriter ∧ (Runtime.ofThreads [1,2,3] (by decide)).Prepared ∧
    Named (.ofThreads [1,2,3] (by decide)) (idsOf heirWriter) ∧
    Spare (.checked .leftFirst) (.ofThreads [1,2,3] (by decide)) (idsOf heirWriter) ∧ Races heirWriter 100 2 5 ∧
    (performAll (.checked .leftFirst) (.ofThreads [1,2,3] (by decide)) (idsOf heirWriter)).map Prod.snd =
      some [false,false,false,false,false,false] := by
  have recycled : Recycled 1 heirWriter := by decide
  have disciplined : Disciplined heirWriter := legal_disciplined (recycled_legal recycled)
  refine ⟨recycled,ofThreads_prepared (by decide),by decide,by decide,⟨?_,?_,?_⟩,by decide⟩
  · exact ⟨_,_,rfl,rfl,(2,0),(2,1),.write,.write,rfl,rfl,by decide,.inl rfl⟩
  · exact LogicalClock.unordered_of_count disciplined (by decide) rfl rfl (by decide)
  · exact fun after => absurd (before_lt after) (by decide)

end EmbedSanitizer
