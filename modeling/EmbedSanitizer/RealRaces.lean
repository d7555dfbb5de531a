import EmbedSanitizer.Schedules
import EmbedSanitizer.ToldRuns

namespace Interleaving
open HappensBefore ThreadEvents EpochDetector

section Hands
variable {T L A : Type*} {s : Machine T L}

-- Whose past is in whose: that of a creator in its child's and that of a joined
-- thread in its joiner's, while the callbacks for these are still due.
inductive Hands (s : Machine T L) : T → T → Prop
  | self (t : T) : Hands s t t
  | create : s.pc p = .created t → Hands s t u → Hands s p u
  | join : s.pc t = .joined p → Hands s t u → Hands s p u

theorem hands_end (sane : Sane s) (creates : ∀ v, s.pc t ≠ .created v) (open_ : s.life t ≠ .joined) (hands : Hands s t u) : u = t := by
  cases hands with
  | self => rfl
  | create waits _ => exact absurd waits (creates _)
  | join waits _ => exact absurd (sane.ended _ t waits) open_

theorem hands_running (sane : Sane s) (creates : ∀ v, s.pc t ≠ .created v) (runs : s.life t = .running) (hands : Hands s t u) : u = t :=
  hands_end sane creates (by rw [runs]; simp) hands

variable [DecidableEq T] [DecidableEq L] {a : Action T L (Event T L A)}

theorem hands_old (allowed : s.Allows a) (creates : ∀ p t, a ≠ .create p t) (joins : ∀ p t, a ≠ .join p t)
    (hands : Hands (s.after a) p u) : Hands s p u := by
  induction hands with
  | self t => exact .self t
  | create waits _ ih =>
    rcases created_cases allowed waits with same | ⟨waits,_⟩
    · exact absurd same (creates _ _)
    · exact .create waits ih
  | join waits _ ih =>
    rcases joined_cases allowed waits with same | ⟨waits,_⟩
    · exact absurd same (joins _ _)
    · exact .join waits ih

theorem hands_create (sane : Sane s) (allowed : s.Allows (.create p v : Action T L (Event T L A)))
    (hands : Hands (s.after (.create p v : Action T L (Event T L A))) q u) : Hands s q u ∨ (u = v ∧ Hands s q p) := by
  have fresh : s.life v = .unborn := allowed.2
  have fruitless : ∀ {u}, Hands s v u → u = v :=
    hands_end sane (by simp [sane.resting (t := v) (by rw [fresh]; simp)]) (by rw [fresh]; simp)
  induction hands with
  | self t => exact .inl (.self t)
  | create waits _ ih =>
    rcases created_cases allowed waits with same | ⟨waits,_⟩
    · cases same
      exact .inr ⟨ih.elim fruitless And.left,.self p⟩
    · exact ih.imp (.create waits) fun ⟨same,hands⟩ => ⟨same,.create waits hands⟩
  | join waits _ ih =>
    rcases joined_cases allowed waits with same | ⟨waits,_⟩
    · cases same
    · exact ih.imp (.join waits) fun ⟨same,hands⟩ => ⟨same,.join waits hands⟩

theorem hands_join (sane : Sane s) (allowed : s.Allows (.join t v : Action T L (Event T L A)))
    (hands : Hands (s.after (.join t v : Action T L (Event T L A))) q u) : Hands s q u ∨ (u = t ∧ Hands s q v) := by
  have fruitless : ∀ {u}, Hands s t u → u = t := hands_running sane (by simp [allowed.1.2]) allowed.1.1
  induction hands with
  | self t => exact .inl (.self t)
  | create waits _ ih =>
    rcases created_cases allowed waits with same | ⟨waits,_⟩
    · cases same
    · exact ih.imp (.create waits) fun ⟨same,hands⟩ => ⟨same,.create waits hands⟩
  | join waits _ ih =>
    rcases joined_cases allowed waits with same | ⟨waits,_⟩
    · cases same
      exact .inr ⟨ih.elim fruitless And.left,.self v⟩
    · exact ih.imp (.join waits) fun ⟨same,hands⟩ => ⟨same,.join waits hands⟩

end Hands

section Holding
variable {T L A : Type*} {s : Machine T L} {a : Action T L (Event T L A)} {had known : Channel T L → Prop}

-- What the callbacks pass on, the real order has passed on: what is known to a thread
-- to it and to whom it hands it, what is known to a mutex to the mutex or its owner.
structure Founded (s : Machine T L) (had known : Channel T L → Prop) : Prop where
  thread : ∀ p u, Hands s p u → known (.thread p) → had (.thread u)
  free : ∀ m, s.owner m = none → known (.lock m) → had (.lock m)
  owned : ∀ m t, s.owner m = some t → known (.lock m) → had (.thread t)

theorem spread_skip (known : Channel T L → Prop) (c : Channel T L) (t : T) :
    spread order (.skip t : Event T L A) known c ↔ known c := spread_own (fun _ => Iff.rfl) (fun _ => Iff.rfl) known c

theorem spread_access (known : Channel T L → Prop) (c : Channel T L) (t : T) (kind : Access) (x : A) :
    spread order (.access t kind x : Event T L A) known c ↔ known c := spread_own (fun _ => Iff.rfl) (fun _ => Iff.rfl) known c

variable [DecidableEq T] [DecidableEq L]

theorem founded_thread (sane : Sane s) (allowed : s.Allows a) (founded : Founded s had known)
    (hands : Hands (s.after a) p u) (told : spread order a.seen known (.thread p)) : spread real a had (.thread u) := by
  have kept : ∀ {q v}, Hands s q v → known (.thread q) → spread real a had (.thread v) :=
    fun hands knows => .inl (founded.thread _ _ hands knows)
  cases a with
  | create q v =>
    have knows := (spread_skip known _ q).mp told
    rcases hands_create sane allowed hands with old | ⟨rfl,creator⟩
    · exact kept old knows
    · exact (spread_create had _ q u).mpr (.inr ⟨rfl,founded.thread p q creator knows⟩)
  | join q v =>
    have knows := (spread_skip known _ q).mp told
    rcases hands_join sane allowed hands with old | ⟨rfl,ended⟩
    · exact kept old knows
    · exact (spread_join had _ u v).mpr (.inr ⟨rfl,founded.thread p v ended knows⟩)
  | lock q m => exact kept (hands_old allowed (by simp) (by simp) hands) ((spread_skip known _ q).mp told)
  | unlock q m => exact kept (hands_old allowed (by simp) (by simp) hands) ((spread_skip known _ q).mp told)
  | exit q => exact kept (hands_old allowed (by simp) (by simp) hands) ((spread_skip known _ q).mp told)
  | callback e =>
    have old := hands_old allowed (by simp) (by simp) hands
    cases e with
    | fork q v =>
      rcases (spread_forked known _ q v).mp told with knows | ⟨same,creator⟩
      · exact kept old knows
      · cases same
        exact kept (.create allowed old) creator
    | join q v =>
      rcases (spread_joined known _ q v).mp told with knows | ⟨same,ended⟩
      · exact kept old knows
      · cases same
        exact kept (.join allowed old) ended
    | acquire q m =>
      rcases (spread_acquired known _ q m).mp told with knows | ⟨same,passed⟩
      · exact kept old knows
      · cases same
        have at_lock : s.pc p = .locked m := allowed
        have runs : s.life p = .running := sane.acts allowed
        rw [hands_running sane (by simp [at_lock]) runs old]
        exact .inl (founded.owned m p (sane.owned p m (.inl at_lock)) passed)
    | release q m =>
      rcases (spread_released known _ q m).mp told with knows | ⟨same,_⟩
      · exact kept old knows
      · cases same
    | access q kind x => exact kept old ((spread_access known _ q kind x).mp told)
    | skip q => exact kept old ((spread_skip known _ q).mp told)

omit [DecidableEq T] [DecidableEq L] in
theorem known_lock {e : Event T L A} (knows : spread order e known (.lock m)) :
    known (.lock m) ∨ ∃ t, e = .release t m ∧ known (.thread t) := by
  cases e with
  | fork q v => exact .inl (((spread_forked known _ q v).mp knows).resolve_right fun passed => by cases passed.1)
  | join q v => exact .inl (((spread_joined known _ q v).mp knows).resolve_right fun passed => by cases passed.1)
  | acquire q k => exact .inl (((spread_acquired known _ q k).mp knows).resolve_right fun passed => by cases passed.1)
  | release q k =>
    rcases (spread_released known _ q k).mp knows with knows | ⟨same,holder⟩
    · exact .inl knows
    · cases same; exact .inr ⟨q,rfl,holder⟩
  | access q kind x => exact .inl ((spread_access known _ q kind x).mp knows)
  | skip q => exact .inl ((spread_skip known _ q).mp knows)

theorem founded_free (sane : Sane s) (allowed : s.Allows a) (founded : Founded s had known) (free : (s.after a).owner m = none)
    (knows : spread order a.seen known (.lock m)) : spread real a had (.lock m) := by
  by_cases unlocks : ∃ p, a = .unlock p m
  · obtain ⟨p,rfl⟩ := unlocks
    have holds := sane.owned p m (.inr allowed)
    exact (spread_unlock had _ p m).mpr (.inr ⟨rfl,founded.owned m p holds ((spread_skip known _ p).mp knows)⟩)
  · have locks : ∀ p, a ≠ .lock p m := by
      rintro p rfl
      simp [Machine.after] at free
    rw [owner_kept locks fun p same => unlocks ⟨p,same⟩] at free
    rcases known_lock knows with knows | ⟨t,seen,_⟩
    · exact .inl (founded.free m free knows)
    · have same := seen_callback rfl seen
      subst same
      rw [allowed.2] at free; cases free

theorem founded_owned (allowed : s.Allows a) (founded : Founded s had known) (owns : (s.after a).owner m = some t)
    (knows : spread order a.seen known (.lock m)) : spread real a had (.thread t) := by
  by_cases locks : ∃ p, a = .lock p m
  · obtain ⟨p,rfl⟩ := locks
    have same : p = t := by simpa [Machine.after] using owns
    subst same
    exact (spread_lock had _ p m).mpr (.inr ⟨rfl,founded.free m allowed.2 ((spread_skip known _ p).mp knows)⟩)
  · have unlocks : ∀ p, a ≠ .unlock p m := by
      rintro p rfl
      simp [Machine.after] at owns
    rw [owner_kept (fun p same => locks ⟨p,same⟩) unlocks] at owns
    rcases known_lock knows with knows | ⟨q,seen,holder⟩
    · exact .inl (founded.owned m t owns knows)
    · have same := seen_callback rfl seen
      subst same
      have same : q = t := Option.some.inj (allowed.2.symm.trans owns)
      subst same
      exact .inl (founded.thread q q (.self q) holder)

theorem founded_step (sane : Sane s) (allowed : s.Allows a) (founded : Founded s had known) :
    Founded (s.after a) (spread real a had) (spread order a.seen known) where
  thread _ _ := founded_thread sane allowed founded
  free _ := founded_free sane allowed founded
  owned _ _ := founded_owned allowed founded

end Holding

section Runs
variable {T L A : Type*} [DecidableEq T] [DecidableEq L] {main : T} {acts : List (Action T L (Event T L A))} {e : Event T L A}

omit [DecidableEq T] [DecidableEq L] in
theorem founded_fresh {s : Machine T L} (sane : Sane s) (ready : s.Ready t) :
    Founded s (fun c => c = .thread t) (fun c => c = .thread t) where
  thread p u hands same := by
    cases same
    rw [hands_running sane (by simp [ready.2]) ready.1 hands]
  free m _ same := by cases same
  owned m u _ same := by cases same

omit [DecidableEq T] [DecidableEq L] in
theorem plain_feeds (plain : e.Synchronizes = false) : e.Feeds = fun c => c = .thread e.actor := by
  cases e with
  | access t kind x => rfl
  | skip t => rfl
  | _ => cases plain

theorem plain_stays {s : Machine T L} (plain : e.Synchronizes = false) (allowed : s.Allows (.callback e)) :
    s.Ready e.actor ∧ s.after (.callback e) = s := by
  cases e with
  | access t kind x => exact ⟨allowed,rfl⟩
  | skip t => exact ⟨allowed,rfl⟩
  | _ => cases plain

theorem founded_after (scheduled : Scheduled main acts) {i : ℕ} (found : acts[i]? = some (.callback e)) (plain : e.Synchronizes = false) :
    Founded (machineAfter main acts) (Reaches real acts i) (Reaches order (acts.map Action.seen) i) := by
  induction acts using List.reverseRecOn with
  | nil => cases found
  | append_singleton acts a ih =>
    obtain ⟨earlier,allowed⟩ := scheduled_snoc.mp scheduled
    rw [machineAfter_snoc,List.map_append,List.map_singleton]
    rcases getElem?_snoc.mp found with ⟨old,found⟩ | ⟨rfl,rfl⟩
    · rw [reaches_spread old,reaches_spread (by simpa using old)]
      exact founded_step (sane_after earlier) allowed (ih earlier found)
    · obtain ⟨ready,stays⟩ := plain_stays plain allowed
      have had : Reaches real (acts ++ [.callback e]) acts.length = fun c => c = .thread e.actor := by
        funext c; exact propext reaches_new
      have last : (acts.map Action.seen).length = acts.length := List.length_map ..
      have known : Reaches order (acts.map Action.seen ++ [e]) acts.length = fun c => c = .thread e.actor := by
        rw [← plain_feeds plain,← last]
        funext c; exact propext reaches_new
      rw [stays,had]
      exact known ▸ founded_fresh (sane_after earlier) ready

theorem told_before_access (scheduled : Scheduled main acts) {i j : ℕ} {t : T} {k : Access} {x : A}
    (found : acts[i]? = some (.callback e)) (plain : e.Synchronizes = false)
    (access : acts[j]? = some (.callback (.access t k x))) (before : Before order (acts.map Action.seen) i j) :
    Before real acts i j := by
  have seen : (acts.map Action.seen)[j]? = some (.access t k x) := by rw [List.getElem?_map,access]; rfl
  have inner : (acts.take j)[i]? = some (.callback e) := by
    rw [List.getElem?_take_of_lt (before_lt before)]; exact found
  have founded := founded_after (scheduled_take scheduled j) inner plain
  rw [before_access seen,← List.map_take] at before
  exact (before_reaches access).mpr ⟨.thread t,rfl,founded.thread t t (.self t) before⟩

def RealRaces (acts : List (Action T L (Event T L A))) (x : A) (i j : ℕ) : Prop :=
  (∃ e e', acts[i]? = some (.callback e) ∧ acts[j]? = some (.callback e') ∧ Conflict x e e') ∧
    ¬ Before real acts i j ∧ ¬ Before real acts j i

theorem realRaces_seen (scheduled : Scheduled main acts) {x : A} {i j : ℕ} (races : RealRaces acts x i j) :
    Races (acts.map Action.seen) x i j := by
  obtain ⟨⟨e,e',at_i,at_j,conflict⟩,notBefore,notAfter⟩ := races
  have conflicting := conflict
  obtain ⟨t,u,k,l,rfl,rfl,_,_⟩ := conflict
  refine ⟨⟨_,_,by rw [List.getElem?_map,at_i]; rfl,by rw [List.getElem?_map,at_j]; rfl,conflicting⟩,?_,?_⟩
  · exact fun before => notBefore (told_before_access scheduled at_i rfl at_j before)
  · exact fun after => notAfter (told_before_access scheduled at_j rfl at_i after)

theorem seen_realRaces (scheduled : Scheduled main acts) (timely : Timely main acts) {x : A} {i j : ℕ}
    (races : Races (acts.map Action.seen) x i j) : RealRaces acts x i j := by
  obtain ⟨⟨e,e',at_i,at_j,conflict⟩,notBefore,notAfter⟩ := races
  have conflicting := conflict
  obtain ⟨t,u,k,l,rfl,rfl,_,_⟩ := conflict
  have found_i := seen_access at_i
  have found_j := seen_access at_j
  refine ⟨⟨_,_,found_i,found_j,conflicting⟩,?_,?_⟩
  · exact fun before => notBefore (real_before_access scheduled timely found_i rfl found_j before)
  · exact fun after => notAfter (real_before_access scheduled timely found_j rfl found_i after)

end Runs
end Interleaving

namespace EmbedSanitizer
open HappensBefore ThreadEvents EpochDetector Interleaving

section Reports
variable {cpp : Cpp} {s : Runtime} {main : ThreadID} {acts : List Step}

-- No schedule hides a race of two accesses that are checked: they are reported however
-- late the creations are announced. Nothing else is where they are announced in time.
theorem real_races_reported (prepared : s.Prepared) (scheduled : Scheduled main (attempts acts))
    (named : Named s ((callbacks acts).map Call.attempt)) (spare : Spare cpp s (eventsFrom s.isConcurrent (callbacks acts))) :
    ∃ s' reports, invokeAll cpp s (callbacks acts) = some (s',reports) ∧
      (∀ a i j, RealRaces (observed s.isConcurrent acts) a i j → CallReported (callbacks acts) reports a) ∧
      (Timely main (observed s.isConcurrent acts) → ∀ a, CallReported (callbacks acts) reports a →
        ∃ i j, RealRaces (observed s.isConcurrent acts) a i j) := by
  obtain ⟨s',reports,ran,detected⟩ := callbacks_reported prepared named spare
  have gated : Scheduled main (observed s.isConcurrent acts) := (gated_scheduledFrom (observed_gated s.isConcurrent acts)).mp scheduled
  have reported : ∀ a, CallReported (callbacks acts) reports a ↔
      ∃ i j, Races ((observed s.isConcurrent acts).map Action.seen) a i j := by
    intro a
    rw [detected,← observed_callbacks,(reported_callbacks a).2,reported_iff_races (callbacks_disciplined gated)]
  refine ⟨s',reports,ran,fun a i j races => ?_,fun timely a found => ?_⟩
  · exact (reported a).mpr ⟨i,j,realRaces_seen gated races⟩
  · obtain ⟨i,j,races⟩ := (reported a).mp found
    exact ⟨i,j,seen_realRaces gated timely races⟩

def writtenBefore : List Step :=
  [.create 1 2,.callback ⟨1,.threadCreate 2⟩,.create 1 3,.callback ⟨2,.access .write4 100 ⟨10,0,0⟩⟩,
    .callback ⟨3,.access .write4 100 ⟨20,0,0⟩⟩,.callback ⟨1,.threadCreate 3⟩]

theorem real_races_reported_before : ∃ s' reports,
    invokeAll (.checked .leftFirst) (.ofThreads [1,2,3] (by decide)) (callbacks writtenBefore) = some (s',reports) ∧
      (∀ a i j, RealRaces (observed 0 writtenBefore) a i j → CallReported (callbacks writtenBefore) reports a) ∧
      (Timely 1 (observed 0 writtenBefore) → ∀ a, CallReported (callbacks writtenBefore) reports a →
        ∃ i j, RealRaces (observed 0 writtenBefore) a i j) :=
  real_races_reported (ofThreads_prepared (by decide)) (show Scheduled 1 _ by decide) (by decide) (by decide)

-- The write of thread 2 is skipped before its creation is announced, and then no write
-- is left for the one of thread 1 to race with.
example : Scheduled 1 (attempts [.create 1 2,.callback ⟨2,.access .write4 100 ⟨10,0,0⟩⟩,.callback ⟨1,.threadCreate 2⟩,
      .callback ⟨1,.access .write4 100 ⟨20,0,0⟩⟩]) ∧
    (invokeAll (.checked .leftFirst) (.ofThreads [1,2] (by decide)) [⟨2,.access .write4 100 ⟨10,0,0⟩⟩,⟨1,.threadCreate 2⟩,
      ⟨1,.access .write4 100 ⟨20,0,0⟩⟩]).map Prod.snd = some [none,none,none] := by decide

end Reports
end EmbedSanitizer
