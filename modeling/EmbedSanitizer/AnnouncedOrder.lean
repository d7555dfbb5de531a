import EmbedSanitizer.Interleaving
import EmbedSanitizer.DetectorRuns

namespace Interleaving
open HappensBefore ThreadEvents EpochDetector

section RealOrder
variable {T L A : Type*}

def Action.Feeds : Action T L (Event T L A) → Channel T L → Prop
  | .unlock t m,c => c = .thread t ∨ c = .lock m
  | .create t u,c => c = .thread t ∨ c = .thread u
  | .lock t _,c | .join t _,c | .exit t,c => c = .thread t
  | .callback e,c => c = .thread e.actor

def Action.Draws : Action T L (Event T L A) → Channel T L → Prop
  | .lock t m,c => c = .thread t ∨ c = .lock m
  | .join t u,c => c = .thread t ∨ c = .thread u
  | .unlock t _,c | .create t _,c | .exit t,c => c = .thread t
  | .callback e,c => c = .thread e.actor

-- What orders the steps of the program itself: program order, an unlock before the
-- later locks, a creation before all that the child does, all that before the join.
-- Callbacks order nothing.
def real : Flow (Action T L (Event T L A)) (Channel T L) := ⟨Action.Feeds,Action.Draws⟩

def spread {ε κ : Type*} (flow : Flow ε κ) (e : ε) (known : κ → Prop) (c : κ) : Prop :=
  known c ∨ (flow.feeds e c ∧ ∃ d, flow.draws e d ∧ known d)

theorem reaches_spread {ε κ : Type*} {flow : Flow ε κ} {tr : List ε} {e : ε} {i : ℕ} (old : i < tr.length) :
    Reaches flow (tr ++ [e]) i = spread flow e (Reaches flow tr i) := by
  funext c; exact propext (reaches_snoc old)

section Passing
variable {ε κ : Type*} {flow : Flow ε κ} {e : ε} {x y : κ}

theorem spread_draw (feeds : ∀ c, flow.feeds e c ↔ c = x) (draws : ∀ c, flow.draws e c ↔ c = x ∨ c = y)
    (known : κ → Prop) (c : κ) : spread flow e known c ↔ known c ∨ (c = x ∧ known y) := by
  unfold spread
  simp only [feeds,draws]
  constructor
  · rintro (knows | ⟨rfl,_,rfl | rfl,knows⟩)
    · exact .inl knows
    · exact .inl knows
    · exact .inr ⟨rfl,knows⟩
  · rintro (knows | ⟨rfl,knows⟩)
    · exact .inl knows
    · exact .inr ⟨rfl,y,.inr rfl,knows⟩

theorem spread_feed (feeds : ∀ c, flow.feeds e c ↔ c = x ∨ c = y) (draws : ∀ c, flow.draws e c ↔ c = x)
    (known : κ → Prop) (c : κ) : spread flow e known c ↔ known c ∨ (c = y ∧ known x) := by
  unfold spread
  simp only [feeds,draws]
  constructor
  · rintro (knows | ⟨rfl | rfl,_,rfl,knows⟩)
    · exact .inl knows
    · exact .inl knows
    · exact .inr ⟨rfl,knows⟩
  · rintro (knows | ⟨rfl,knows⟩)
    · exact .inl knows
    · exact .inr ⟨.inr rfl,x,rfl,knows⟩

theorem spread_own (feeds : ∀ c, flow.feeds e c ↔ c = x) (draws : ∀ c, flow.draws e c ↔ c = x)
    (known : κ → Prop) (c : κ) : spread flow e known c ↔ known c := by
  rw [spread_draw feeds (fun c => (draws c).trans (or_self_iff).symm)]
  exact or_iff_left_of_imp fun ⟨same,knows⟩ => same ▸ knows

end Passing

section Passes
variable (known : Channel T L → Prop) (c : Channel T L)

theorem spread_lock (t : T) (m : L) : spread real (.lock t m : Action T L (Event T L A)) known c ↔
    known c ∨ (c = .thread t ∧ known (.lock m)) := spread_draw (fun _ => Iff.rfl) (fun _ => Iff.rfl) known c

theorem spread_unlock (t : T) (m : L) : spread real (.unlock t m : Action T L (Event T L A)) known c ↔
    known c ∨ (c = .lock m ∧ known (.thread t)) := spread_feed (fun _ => Iff.rfl) (fun _ => Iff.rfl) known c

theorem spread_create (t u : T) : spread real (.create t u : Action T L (Event T L A)) known c ↔
    known c ∨ (c = .thread u ∧ known (.thread t)) := spread_feed (fun _ => Iff.rfl) (fun _ => Iff.rfl) known c

theorem spread_join (t u : T) : spread real (.join t u : Action T L (Event T L A)) known c ↔
    known c ∨ (c = .thread t ∧ known (.thread u)) := spread_draw (fun _ => Iff.rfl) (fun _ => Iff.rfl) known c

theorem spread_exit (t : T) : spread real (.exit t : Action T L (Event T L A)) known c ↔ known c :=
  spread_own (fun _ => Iff.rfl) (fun _ => Iff.rfl) known c

theorem spread_callback (e : Event T L A) : spread real (.callback e : Action T L (Event T L A)) known c ↔ known c :=
  spread_own (fun _ => Iff.rfl) (fun _ => Iff.rfl) known c

theorem spread_acquired (t : T) (m : L) : spread order (.acquire t m : Event T L A) known c ↔
    known c ∨ (c = .thread t ∧ known (.lock m)) := spread_draw (fun _ => Iff.rfl) (fun _ => Iff.rfl) known c

theorem spread_released (t : T) (m : L) : spread order (.release t m : Event T L A) known c ↔
    known c ∨ (c = .lock m ∧ known (.thread t)) := spread_feed (fun _ => Iff.rfl) (fun _ => Iff.rfl) known c

theorem spread_forked (t u : T) : spread order (.fork t u : Event T L A) known c ↔
    known c ∨ (c = .thread u ∧ known (.thread t)) := spread_feed (fun _ => Iff.rfl) (fun _ => Iff.rfl) known c

theorem spread_joined (t u : T) : spread order (.join t u : Event T L A) known c ↔
    known c ∨ (c = .thread t ∧ known (.thread u)) := spread_draw (fun _ => Iff.rfl) (fun _ => Iff.rfl) known c

end Passes
end RealOrder

section Debts
variable {T L A : Type*} {s : Machine T L} {a : Action T L (Event T L A)} {had known : Channel T L → Prop}

-- What the callbacks have passed to a thread, or will have once the callbacks that
-- are due now have been made.
inductive Owed (s : Machine T L) (known : Channel T L → Prop) : T → Prop
  | own : known (.thread t) → Owed s known t
  | lock : s.pc t = .locked m → known (.lock m) → Owed s known t
  | join : s.pc t = .joined u → Owed s known u → Owed s known t
  | fork : s.pc p = .created t → Owed s known p → Owed s known t

def Machine.Announced (s : Machine T L) (t : T) : Prop := ∀ p, s.pc p ≠ .created t

-- A callback that passes on or checks what a thread knows comes only once the
-- creation of that thread has been announced.
def Machine.Timely (s : Machine T L) : Action T L (Event T L A) → Prop
  | .callback (.fork t _) | .callback (.release t _) | .callback (.access t _ _) => s.Announced t
  | .callback (.join _ u) => s.Announced u
  | _ => True

theorem Owed.settled (owed : Owed s known t) (announced : s.Announced t) (locked : ∀ m, s.pc t ≠ .locked m)
    (joined : ∀ u, s.pc t ≠ .joined u) : known (.thread t) := by
  cases owed with
  | own knows => exact knows
  | lock at_lock _ => exact absurd at_lock (locked _)
  | join at_join _ => exact absurd at_join (joined _)
  | fork at_fork _ => exact absurd at_fork (announced _)

theorem Owed.idle (owed : Owed s known t) (announced : s.Announced t) (resting : s.pc t = .idle) : known (.thread t) :=
  owed.settled announced (by simp [resting]) (by simp [resting])

def Pc.next (t : T) : Pc T L → Option (Action T L (Event T L A))
  | .idle => none
  | .locked m => some (.callback (.acquire t m))
  | .unlocking m => some (.unlock t m)
  | .created u => some (.callback (.fork t u))
  | .joined u => some (.callback (.join t u))

variable [DecidableEq T] [DecidableEq L]

theorem busy_next {pc : Pc T L} (allowed : s.Allows a) (stands : s.pc t = pc) (busy : pc ≠ .idle) :
    (s.after a).pc t = pc ∨ pc.next t = some a := by
  subst stands
  by_cases own : t = a.actor
  · subst own
    right
    cases a with
    | lock t m => exact absurd allowed.1.2 busy
    | unlock t m => simp [Action.actor,show s.pc t = .unlocking m from allowed,Pc.next]
    | create t u => exact absurd allowed.1.2 busy
    | join t u => exact absurd allowed.1.2 busy
    | exit t => exact absurd allowed.2 busy
    | callback e =>
      cases e with
      | fork t u => simp [Action.actor,Event.actor,show s.pc t = .created u from allowed,Pc.next]
      | join t u => simp [Action.actor,Event.actor,show s.pc t = .joined u from allowed,Pc.next]
      | acquire t m => simp [Action.actor,Event.actor,show s.pc t = .locked m from allowed,Pc.next]
      | release t m => exact absurd allowed.1.2 busy
      | access t kind x => exact absurd allowed.2 busy
      | skip t => exact absurd allowed.2 busy
  · exact .inl (pc_other own)

theorem owed_kept (sane : Sane s) (allowed : s.Allows a) (timely : s.Timely a) (owed : Owed s known t) :
    Owed (s.after a) (spread order a.seen known) t := by
  induction owed with
  | own knows => exact .own (.inl knows)
  | @lock t m at_lock knows =>
    rcases busy_next allowed at_lock (by simp) with stays | leaves
    · exact .lock stays (.inl knows)
    · cases leaves
      exact .own ((spread_acquired known _ t m).mpr (.inr ⟨rfl,knows⟩))
  | @join t u at_join owed ih =>
    rcases busy_next allowed at_join (by simp) with stays | leaves
    · exact .join stays ih
    · cases leaves
      have resting : s.pc u = .idle := sane.resting (by rw [sane.ended t u at_join]; simp)
      exact .own ((spread_joined known _ t u).mpr (.inr ⟨rfl,owed.idle timely resting⟩))
  | @fork p t at_fork owed ih =>
    rcases busy_next allowed at_fork (by simp) with stays | leaves
    · exact .fork stays ih
    · cases leaves
      have knows := owed.settled timely (by simp [at_fork]) (by simp [at_fork])
      exact .own ((spread_forked known _ p t).mpr (.inr ⟨rfl,knows⟩))

-- What the real order passes on, the callbacks pass on as well: to a thread as
-- something it is owed, to a mutex by the time it is unlocked.
structure Followed (s : Machine T L) (had known : Channel T L → Prop) : Prop where
  thread : ∀ t, had (.thread t) → Owed s known t
  lock : ∀ m, had (.lock m) → known (.lock m)
  leaving : ∀ t m, s.pc t = .unlocking m → had (.thread t) → known (.lock m)

theorem followed_thread (sane : Sane s) (allowed : s.Allows a) (timely : s.Timely a) (followed : Followed s had known)
    (reached : spread real a had (.thread t)) : Owed (s.after a) (spread order a.seen known) t := by
  have kept : ∀ u, had (.thread u) → Owed (s.after a) (spread order a.seen known) u :=
    fun u reached => owed_kept sane allowed timely (followed.thread u reached)
  cases a with
  | lock p m =>
    rcases (spread_lock had _ p m).mp reached with old | ⟨same,released⟩
    · exact kept t old
    · cases same
      exact .lock (by simp [Machine.after]) (.inl (followed.lock m released))
  | unlock p m =>
    rcases (spread_unlock had _ p m).mp reached with old | ⟨same,_⟩
    · exact kept t old
    · cases same
  | create p u =>
    rcases (spread_create had _ p u).mp reached with old | ⟨same,creator⟩
    · exact kept t old
    · cases same
      exact .fork (by simp [Machine.after]) (kept p creator)
  | join p u =>
    rcases (spread_join had _ p u).mp reached with old | ⟨same,ended⟩
    · exact kept t old
    · cases same
      exact .join (by simp [Machine.after]) (kept u ended)
  | exit p => exact kept t ((spread_exit had _ p).mp reached)
  | callback e => exact kept t ((spread_callback had _ e).mp reached)

omit [DecidableEq T] [DecidableEq L] in
theorem followed_lock (allowed : s.Allows a) (followed : Followed s had known) (reached : spread real a had (.lock m)) :
    spread order a.seen known (.lock m) := by
  have kept : had (.lock m) → spread order a.seen known (.lock m) := fun old => .inl (followed.lock m old)
  cases a with
  | lock p k =>
    rcases (spread_lock had _ p k).mp reached with old | ⟨same,_⟩
    · exact kept old
    · cases same
  | unlock p k =>
    rcases (spread_unlock had _ p k).mp reached with old | ⟨same,holder⟩
    · exact kept old
    · cases same
      exact .inl (followed.leaving p m allowed holder)
  | create p u =>
    rcases (spread_create had _ p u).mp reached with old | ⟨same,_⟩
    · exact kept old
    · cases same
  | join p u =>
    rcases (spread_join had _ p u).mp reached with old | ⟨same,_⟩
    · exact kept old
    · cases same
  | exit p => exact kept ((spread_exit had _ p).mp reached)
  | callback e => exact kept ((spread_callback had _ e).mp reached)

theorem followed_leaving (sane : Sane s) (allowed : s.Allows a) (timely : s.Timely a) (followed : Followed s had known)
    (leaving : (s.after a).pc t = .unlocking m) (reached : spread real a had (.thread t)) :
    spread order a.seen known (.lock m) := by
  by_cases own : t = a.actor
  · subst own
    cases a with
    | exit p => exact absurd (allowed.2.symm.trans leaving) (by simp)
    | callback e =>
      cases e with
      | release p k =>
        have same : k = m := by simpa [Machine.after,Action.actor,Event.actor] using leaving
        subst same
        have owed := followed.thread p ((spread_callback had _ _).mp reached)
        exact (spread_released known _ p k).mpr (.inr ⟨rfl,owed.idle timely allowed.1.2⟩)
      | access p kind x => exact absurd (allowed.2.symm.trans leaving) (by simp)
      | skip p => exact absurd (allowed.2.symm.trans leaving) (by simp)
      | _ => simp [Machine.after,Action.actor,Event.actor] at leaving
    | _ => simp [Machine.after,Action.actor] at leaving
  · rw [pc_other own] at leaving
    have runs : s.life t = .running := sane.busy t (by simp [leaving])
    have kept : had (.thread t) → spread order a.seen known (.lock m) := fun old => .inl (followed.leaving t m leaving old)
    cases a with
    | lock p k =>
      rcases (spread_lock had _ p k).mp reached with old | ⟨same,_⟩
      · exact kept old
      · cases same; exact absurd rfl own
    | unlock p k =>
      rcases (spread_unlock had _ p k).mp reached with old | ⟨same,_⟩
      · exact kept old
      · cases same
    | create p u =>
      rcases (spread_create had _ p u).mp reached with old | ⟨same,_⟩
      · exact kept old
      · cases same
        rw [allowed.2] at runs; cases runs
    | join p u =>
      rcases (spread_join had _ p u).mp reached with old | ⟨same,_⟩
      · exact kept old
      · cases same; exact absurd rfl own
    | exit p => exact kept ((spread_exit had _ p).mp reached)
    | callback e => exact kept ((spread_callback had _ e).mp reached)

theorem followed_step (sane : Sane s) (allowed : s.Allows a) (timely : s.Timely a) (followed : Followed s had known) :
    Followed (s.after a) (spread real a had) (spread order a.seen known) where
  thread _ := followed_thread sane allowed timely followed
  lock _ := followed_lock allowed followed
  leaving _ _ := followed_leaving sane allowed timely followed

end Debts

section Runs
variable {T L A : Type*} [DecidableEq T] [DecidableEq L] {acts : List (Action T L (Event T L A))} {e : Event T L A}

def Timely (main : T) (acts : List (Action T L (Event T L A))) : Prop :=
  ∀ (k : ℕ) (a : Action T L (Event T L A)), acts[k]? = some a → (machineAfter main (acts.take k)).Timely a

theorem timely_snoc {a : Action T L (Event T L A)} (timely : Timely main (acts ++ [a])) :
    Timely main acts ∧ (machineAfter main acts).Timely a := by
  constructor
  · intro k b found
    have bound := (List.getElem?_eq_some_iff.mp found).1
    have step := timely k b (by rw [List.getElem?_append_left bound]; exact found)
    rwa [List.take_append_of_le_length (Nat.le_of_lt bound)] at step
  · simpa using timely acts.length a (by simp)

theorem created_listed {p t : T} (waits : (machineAfter main acts).pc p = .created t) : .create p t ∈ acts := by
  induction acts using List.reverseRecOn with
  | nil => cases waits
  | append_singleton acts a ih =>
    rw [machineAfter_snoc] at waits
    have later : (machineAfter main acts).pc p = .created t → .create p t ∈ acts ++ [a] :=
      fun waits => List.mem_append_left _ (ih waits)
    by_cases own : p = a.actor
    · subst own
      cases a with
      | create p u =>
        have same : u = t := by simpa [Machine.after,Action.actor] using waits
        simp [Action.actor,same]
      | exit p => exact later waits
      | callback e =>
        cases e with
        | access p kind x => exact later waits
        | skip p => exact later waits
        | _ => simp [Machine.after,Action.actor,Event.actor] at waits
      | _ => simp [Machine.after,Action.actor] at waits
    · rw [pc_other own] at waits
      exact later waits

def Action.creation? {ε : Type*} : Action T L ε → Option (T × T)
  | .create p u => some (p,u)
  | _ => none

theorem announced_iff_creators {t : T} : (machineAfter main acts).Announced t ↔
    ∀ c ∈ acts.filterMap Action.creation?, (machineAfter main acts).pc c.1 ≠ .created t := by
  constructor
  · exact fun announced c _ => announced c.1
  · intro creators p waits
    exact creators (p,t) (List.mem_filterMap.mpr ⟨_,created_listed waits,rfl⟩) waits

instance decidableAnnounced (main t : T) (acts : List (Action T L (Event T L A))) :
    Decidable ((machineAfter main acts).Announced t) := decidable_of_iff _ announced_iff_creators.symm

instance decidableTimelyStep (main : T) (acts : List (Action T L (Event T L A))) :
    (a : Action T L (Event T L A)) → Decidable ((machineAfter main acts).Timely a)
  | .callback (.fork t _) | .callback (.release t _) | .callback (.access t _ _) => decidableAnnounced main t acts
  | .callback (.join _ u) => decidableAnnounced main u acts
  | .callback (.acquire ..) | .callback (.skip _) | .lock .. | .unlock .. | .create .. | .join .. | .exit _ => isTrue trivial

theorem timely_iff_bounded : Timely main acts ↔
    ∀ k < acts.length, ∀ a ∈ acts[k]?, (machineAfter main (acts.take k)).Timely a := by
  constructor
  · exact fun timely k _ a found => timely k a found
  · exact fun timely k a found => timely k (List.getElem?_eq_some_iff.mp found).1 a found

instance decidableTimely (main : T) (acts : List (Action T L (Event T L A))) : Decidable (Timely main acts) :=
  decidable_of_iff _ timely_iff_bounded.symm

omit [DecidableEq T] [DecidableEq L] in
theorem followed_fresh {s : Machine T L} (ready : s.Ready e.actor) (plain : e.Synchronizes = false) :
    Followed s (fun c => c = .thread e.actor) e.Feeds := by
  have feeds : ∀ c, e.Feeds c ↔ c = .thread e.actor := by
    cases e with
    | access t kind x => exact fun _ => Iff.rfl
    | skip t => exact fun _ => Iff.rfl
    | _ => cases plain
  refine ⟨fun t same => .own ((feeds _).mpr same),fun m same => (by cases same),fun t m leaving same => ?_⟩
  cases same
  rw [ready.2] at leaving; cases leaving

theorem followed_after (scheduled : Scheduled main acts) (timely : Timely main acts) {i : ℕ}
    (found : acts[i]? = some (.callback e)) (plain : e.Synchronizes = false) :
    Followed (machineAfter main acts) (Reaches real acts i) (Reaches order (acts.map Action.seen) i) := by
  induction acts using List.reverseRecOn with
  | nil => cases found
  | append_singleton acts a ih =>
    obtain ⟨earlier,allowed⟩ := scheduled_snoc.mp scheduled
    obtain ⟨timely,now⟩ := timely_snoc timely
    rw [machineAfter_snoc,List.map_append,List.map_singleton]
    rcases getElem?_snoc.mp found with ⟨old,found⟩ | ⟨rfl,rfl⟩
    · rw [reaches_spread old,reaches_spread (by simpa using old)]
      exact followed_step (sane_after earlier) allowed now (ih earlier timely found)
    · have ready : (machineAfter main acts).Ready e.actor := by
        cases e with
        | access t kind x => exact allowed
        | skip t => exact allowed
        | _ => cases plain
      have idle : (machineAfter main acts).after (.callback e) = machineAfter main acts := by
        cases e with
        | access t kind x => rfl
        | skip t => rfl
        | _ => cases plain
      have had : Reaches real (acts ++ [.callback e]) acts.length = fun c => c = .thread e.actor := by
        funext c; exact propext reaches_new
      have known : Reaches order (acts.map Action.seen ++ [e]) acts.length = e.Feeds := by
        funext c
        have last : (acts.map Action.seen).length = acts.length := List.length_map ..
        rw [← last]
        exact propext reaches_new
      rw [idle,had]
      exact known ▸ followed_fresh ready plain

theorem real_before_access (scheduled : Scheduled main acts) (timely : Timely main acts) {i j : ℕ} {t : T} {k : Access} {x : A}
    (found : acts[i]? = some (.callback e)) (plain : e.Synchronizes = false)
    (access : acts[j]? = some (.callback (.access t k x))) (before : Before real acts i j) :
    Before order (acts.map Action.seen) i j := by
  have allowed := scheduled_at scheduled access
  have announced := timely j _ access
  have inner : (acts.take j)[i]? = some (.callback e) := by
    rw [List.getElem?_take_of_lt (before_lt before)]; exact found
  have earlier : Timely main (acts.take j) := by
    intro n a at_n
    have bound := (List.getElem?_eq_some_iff.mp at_n).1
    have less : n < j := Nat.lt_of_lt_of_le bound (List.length_take_le j acts)
    rw [List.getElem?_take_of_lt less] at at_n
    have step := timely n a at_n
    rwa [List.take_take,Nat.min_eq_left (Nat.le_of_lt less)]
  have followed := followed_after (scheduled_take scheduled j) earlier inner plain
  obtain ⟨c,draws,reached⟩ := (before_reaches access).mp before
  cases draws
  have knows := (followed.thread t reached).idle announced allowed.2
  have seen : (acts.map Action.seen)[j]? = some (.access t k x) := by rw [List.getElem?_map,access]; rfl
  rw [before_access seen,← List.map_take]
  exact knows

omit [DecidableEq T] [DecidableEq L] in
theorem seen_access {n : ℕ} {t : T} {k : Access} {x : A} (seen : (acts.map Action.seen)[n]? = some (.access t k x)) :
    acts[n]? = some (.callback (.access t k x)) := by
  rw [List.getElem?_map] at seen
  obtain ⟨a,found,same⟩ := Option.map_eq_some_iff.mp seen
  cases a with
  | callback e => rw [found,show e = .access t k x from same]
  | _ => cases same

-- Where the real order leaves no conflict open, the callbacks show no race.
theorem callbacks_raceless (scheduled : Scheduled main acts) (timely : Timely main acts) {x : A}
    (ordered : ∀ i j e e', acts[i]? = some (.callback e) → acts[j]? = some (.callback e') → Conflict x e e' →
      Before real acts i j ∨ Before real acts j i) (i j : ℕ) : ¬ Races (acts.map Action.seen) x i j := by
  rintro ⟨⟨e,e',at_i,at_j,conflict⟩,notBefore,notAfter⟩
  have conflicting := conflict
  obtain ⟨t,u,k,l,rfl,rfl,_,_⟩ := conflict
  have found_i := seen_access at_i
  have found_j := seen_access at_j
  rcases ordered i j _ _ found_i found_j conflicting with before | after
  · exact notBefore (real_before_access scheduled timely found_i rfl found_j before)
  · exact notAfter (real_before_access scheduled timely found_j rfl found_i after)

theorem step_skip [DecidableEq A] (σ : Detector T L A) (t : T) : σ.step (.skip t) = σ := rfl

theorem reported_callbacks [DecidableEq A] (x : A) :
    run (callbacks acts) = run (acts.map Action.seen) ∧
      (Reported (callbacks acts) x ↔ Reported (acts.map Action.seen) x) := by
  induction acts using List.reverseRecOn with
  | nil => exact ⟨rfl,Iff.rfl⟩
  | append_singleton acts a ih =>
    obtain ⟨same,reported⟩ := ih
    rw [callbacks_snoc,List.map_append,List.map_singleton,run_snoc,reported_snoc]
    cases a with
    | callback e =>
      rw [show (Action.callback e : Action T L (Event T L A)).callback?.toList = [e] from rfl,run_snoc,reported_snoc,same,reported]
      exact ⟨rfl,Iff.rfl⟩
    | _ => simp [Action.callback?,Action.seen,step_skip,Event.Touches,same,reported]

theorem callbacks_quiet [DecidableEq A] (scheduled : Scheduled main acts) (timely : Timely main acts) {x : A}
    (ordered : ∀ i j e e', acts[i]? = some (.callback e) → acts[j]? = some (.callback e') → Conflict x e e' →
      Before real acts i j ∨ Before real acts j i) : ¬ Reported (callbacks acts) x := by
  rw [(reported_callbacks x).2,reported_iff_races (callbacks_disciplined scheduled)]
  rintro ⟨i,j,races⟩
  exact callbacks_raceless scheduled timely ordered i j races

end Runs
end Interleaving
