import EmbedSanitizer.DetectorRuns

namespace ThreadEvents
open HappensBefore LogicalClock

-- Where mutexes are used without discipline a release replaces what its mutex
-- passes on. Each release opens a version of the mutex, and an acquire draws on
-- the version that is current.
section Versions
variable {T L A : Type*} [DecidableEq L]

def versionAfter (v : L → ℕ) : Event T L A → L → ℕ
  | .release _ m => Function.update v m (v m + 1)
  | _ => v

def versions (tr : List (Event T L A)) : L → ℕ := tr.foldl versionAfter (fun _ => 0)

def numberFrom (v : L → ℕ) : List (Event T L A) → List (Event T L A × (L → ℕ))
  | [] => []
  | e :: rest => (e,v) :: numberFrom (versionAfter v e) rest

def number (tr : List (Event T L A)) : List (Event T L A × (L → ℕ)) := numberFrom (fun _ => 0) tr

omit [DecidableEq L] in
def latest : Flow (Event T L A × (L → ℕ)) (Channel T (L × ℕ)) where
  feeds := fun (e,v) c => match c with
    | .thread t => e.Feeds (.thread t)
    | .lock (m,n) => e.Feeds (.lock m) ∧ n = v m + 1
  draws := fun (e,v) c => match c with
    | .thread t => e.Draws (.thread t)
    | .lock (m,n) => e.Draws (.lock m) ∧ n = v m

def current (tr : List (Event T L A)) : Channel T L → Channel T (L × ℕ)
  | .thread t => .thread t
  | .lock m => .lock (m,versions tr m)

variable {tr : List (Event T L A)} {e : Event T L A}

@[simp] theorem versions_snoc : versions (tr ++ [e]) = versionAfter (versions tr) e := by simp [versions]

theorem numberFrom_snoc (v : L → ℕ) : numberFrom v (tr ++ [e]) = numberFrom v tr ++ [(e,tr.foldl versionAfter v)] := by
  induction tr generalizing v with
  | nil => rfl
  | cons d rest ih => simp [numberFrom,ih]

theorem number_snoc : number (tr ++ [e]) = number tr ++ [(e,versions tr)] := numberFrom_snoc _

theorem numberFrom_length (v : L → ℕ) : (numberFrom v tr).length = tr.length := by
  induction tr generalizing v with
  | nil => rfl
  | cons d rest ih => simp [numberFrom,ih]

@[simp] theorem number_length : (number tr).length = tr.length := numberFrom_length _

theorem numberFrom_take (v : L → ℕ) (k : ℕ) : (numberFrom v tr).take k = numberFrom v (tr.take k) := by
  induction tr generalizing v k with
  | nil => simp [numberFrom]
  | cons d rest ih =>
    cases k with
    | zero => rfl
    | succ k => simp [numberFrom,ih]

theorem number_take (k : ℕ) : (number tr).take k = number (tr.take k) := numberFrom_take _ k

theorem number_at (found : tr[k]? = some e) : ∃ v, (number tr)[k]? = some (e,v) ∧ v = versions (tr.take k) := by
  have bound := (List.getElem?_eq_some_iff.mp found).1
  have here : tr.take (k+1) = tr.take k ++ [e] := by rw [List.take_add_one,found]; rfl
  have numbered := congrArg number here
  rw [number_snoc,← number_take] at numbered
  refine ⟨_,?_,rfl⟩
  have length : (number (tr.take k)).length = k := by simp [Nat.le_of_lt bound]
  rw [← List.getElem?_take_of_lt (Nat.lt_succ_self k),numbered,List.getElem?_append_right (Nat.le_of_eq length),length]
  simp

theorem version_fed (feeds : e.Feeds (.lock m)) (v : L → ℕ) : versionAfter v e m = v m + 1 := by
  cases e with
  | release t k =>
    rcases feeds with same | same
    · cases same
    · cases same; simp [versionAfter]
  | fork t u => rcases feeds with same | same <;> cases same
  | _ => cases feeds

theorem version_kept (unfed : ¬ e.Feeds (.lock m)) (v : L → ℕ) : versionAfter v e m = v m := by
  cases e with
  | release t k =>
    have other : m ≠ k := fun same => unfed (.inr (by rw [same]))
    simp [versionAfter,other]
  | _ => rfl

theorem reaches_version (reach : Reaches latest (number tr) i (.lock (m,n))) : n ≤ versions tr m := by
  induction tr using List.reverseRecOn with
  | nil => obtain ⟨_,_,found,_⟩ := reach; cases found
  | append_singleton tr d ih =>
    rw [number_snoc] at reach
    rw [versions_snoc]
    by_cases feeds : d.Feeds (.lock m)
    · rw [version_fed feeds]
      by_cases opens : n = versions tr m + 1
      · exact Nat.le_of_eq opens
      · have unfed : ¬ latest.feeds (d,versions tr) (.lock (m,n)) := fun fed => opens fed.2
        exact Nat.le_succ_of_le (ih ((reaches_unfed unfed).mp reach))
    · have unfed : ¬ latest.feeds (d,versions tr) (.lock (m,n)) := fun fed => feeds fed.1
      rw [version_kept feeds]
      exact ih ((reaches_unfed unfed).mp reach)

omit [DecidableEq L] in
theorem feeds_thread (v : L → ℕ) (t : T) : latest.feeds (e,v) (.thread t) ↔ e.Feeds (.thread t) := Iff.rfl

theorem draws_current {P : Channel T (L × ℕ) → Prop} :
    (∃ c, latest.draws (e,versions tr) c ∧ P c) ↔ ∃ c, e.Draws c ∧ P (current tr c) := by
  constructor
  · rintro ⟨c,draws,holds⟩
    cases c with
    | thread t => exact ⟨.thread t,draws,holds⟩
    | lock mn => obtain ⟨m,n⟩ := mn; obtain ⟨draws,rfl⟩ := draws; exact ⟨.lock m,draws,holds⟩
  · rintro ⟨c,draws,holds⟩
    cases c with
    | thread t => exact ⟨.thread t,draws,holds⟩
    | lock m => exact ⟨.lock (m,versions tr m),⟨draws,rfl⟩,holds⟩

theorem feeds_current (c : Channel T L) : latest.feeds (e,versions tr) (current (tr ++ [e]) c) ↔ e.Feeds c := by
  cases c with
  | thread t => exact Iff.rfl
  | lock m =>
    constructor
    · exact fun fed => fed.1
    · exact fun feeds => ⟨feeds,by rw [versions_snoc,version_fed feeds]⟩

end Versions

section Counts
variable {T L A : Type*} [DecidableEq T] [DecidableEq L] {tr : List (Event T L A)} {e : Event T L A}

theorem lock_released (s : Clocks T L) (t : T) (m : L) :
    LogicalClock.step s (.release t m : Event T L A) (.lock m) = s (.thread t) := by
  funext x; simp [LogicalClock.step]

theorem lock_kept (s : Clocks T L) (unfed : ¬ e.Feeds (.lock m)) : LogicalClock.step s e (.lock m) = s (.lock m) := by
  funext x
  cases e with
  | release t k =>
    have other : m ≠ k := fun same => unfed (.inr (by rw [same]))
    simp [LogicalClock.step,other]
  | _ => simp [LogicalClock.step]

theorem latest_iff_count (found : tr[i]? = some e) :
    Reaches latest (number tr) i (current tr c) ↔ countAt tr i e ≤ LogicalClock.after tr c e.actor := by
  induction tr using List.reverseRecOn generalizing c with
  | nil => cases found
  | append_singleton tr d ih =>
    rw [number_snoc,after_snoc]
    rcases getElem?_snoc.mp found with ⟨old,found⟩ | ⟨rfl,rfl⟩
    · have same : countAt (tr ++ [d]) i e = countAt tr i e := by
        unfold countAt; rw [List.take_append_of_le_length (Nat.le_of_lt old)]
      have past : ∀ {c}, Reaches latest (number tr) i (current tr c) ↔ countAt tr i e ≤ LogicalClock.after tr c e.actor :=
        ih found
      have inside : i < (number tr).length := by simpa using old
      rw [same]
      cases c with
      | thread t =>
        have atThread : Reaches latest (number tr) i (.thread t) ↔ _ := past (c := .thread t)
        rw [current,reaches_snoc inside,draws_current,step_reaches_thread (countAt_le tr i e),feeds_thread,atThread]
        simp only [past]
      | lock m =>
        by_cases feeds : d.Feeds (.lock m)
        · obtain ⟨t,rfl⟩ : ∃ t, d = .release t m := by
            cases d with
            | release t k => rcases feeds with wrong | same <;> [cases wrong; (cases same; exact ⟨t,rfl⟩)]
            | fork t u => rcases feeds with wrong | wrong <;> cases wrong
            | _ => cases feeds
          have fed : latest.feeds (.release t m,versions tr) (current (tr ++ [.release t m]) (.lock m)) :=
            (feeds_current (.lock m)).mpr feeds
          have unopened : ¬ Reaches latest (number tr) i (current (tr ++ [.release t m]) (.lock m)) := by
            intro reach
            have bound := reaches_version reach
            rw [versions_snoc,version_fed feeds] at bound
            omega
          have atThread : Reaches latest (number tr) i (.thread t) ↔ _ := past (c := .thread t)
          rw [reaches_snoc inside,or_iff_right unopened,and_iff_right fed,draws_current,lock_released,← atThread]
          simp [Event.Draws,current]
        · have unfed : ¬ latest.feeds (d,versions tr) (current tr (.lock m)) := fun fed => feeds fed.1
          have kept : current (tr ++ [d]) (.lock m) = current tr (.lock m) := by
            simp [current,version_kept feeds]
          rw [kept,reaches_unfed unfed,past,lock_kept _ feeds]
    · have length : tr.length = (number tr).length := number_length.symm
      rw [length,reaches_new,feeds_current,← length]
      simpa [countAt] using (step_fresh (owned_after tr) d).symm

theorem unseen_iff_latest : EpochDetector.Unseen tr a i j ↔
    i < j ∧ (∃ e e', tr[i]? = some e ∧ tr[j]? = some e' ∧ Conflict a e e') ∧ ¬ Before latest (number tr) i j := by
  have seen : ∀ {e e'}, i < j → tr[i]? = some e → tr[j]? = some e' → Conflict a e e' →
      (Before latest (number tr) i j ↔ countAt tr i e ≤ clockAt tr j e' e.actor) := by
    rintro e e' order atI atJ ⟨t,u,k,l,rfl,rfl,_,_⟩
    obtain ⟨v,numbered,same⟩ := number_at atJ
    have inner : (tr.take j)[i]? = some (.access t k a) := by rw [List.getElem?_take_of_lt order]; exact atI
    have count := latest_iff_count (c := .thread u) inner
    rw [before_reaches numbered,number_take,same,draws_current]
    unfold countAt at count ⊢
    rw [List.take_take,Nat.min_eq_left (Nat.le_of_lt order)] at count
    simpa [Event.Draws,Event.actor,clockAt,current] using count
  constructor
  · rintro ⟨order,e,e',atI,atJ,conflict,unseen⟩
    refine ⟨order,⟨e,e',atI,atJ,conflict⟩,fun before => ?_⟩
    exact Nat.not_le_of_lt unseen ((seen order atI atJ conflict).mp before)
  · rintro ⟨order,⟨e,e',atI,atJ,conflict⟩,unordered⟩
    refine ⟨order,e,e',atI,atJ,conflict,Nat.lt_of_not_le fun known => ?_⟩
    exact unordered ((seen order atI atJ conflict).mpr known)

end Counts
end ThreadEvents
