import EmbedSanitizer.ThreadEvents
import Mathlib.Data.List.Induction

namespace Interleaving
open HappensBefore ThreadEvents

-- The steps of instrumented threads: what they do to mutexes and to one another,
-- and the callbacks about it. A lock or a join happens when the call returns, a
-- create as soon as the child can run.
inductive Action (T L ε : Type*) where
  | lock (t : T) (m : L)
  | unlock (t : T) (m : L)
  | create (t u : T)
  | join (t u : T)
  | exit (t : T)
  | callback (e : ε)
  deriving DecidableEq, Repr

-- A thread is in its own code, or between an operation and the callback that
-- belongs to it.
inductive Pc (T L : Type*) where
  | idle
  | locked (m : L)
  | unlocking (m : L)
  | created (u : T)
  | joined (u : T)
  deriving DecidableEq, Repr

inductive Life where
  | unborn | running | exited | joined
  deriving DecidableEq, Repr

structure Machine (T L : Type*) where
  pc : T → Pc T L
  life : T → Life
  owner : L → Option T

section Steps
variable {T L A : Type*}

def Action.actor : Action T L (Event T L A) → T
  | .lock t _ | .unlock t _ | .create t _ | .join t _ | .exit t => t
  | .callback e => e.actor

def Machine.Ready (s : Machine T L) (t : T) : Prop := s.life t = .running ∧ s.pc t = .idle

-- Where each callback stands: after the creation, the join and the lock it is
-- about, and before the unlock. A thread unlocks what it holds.
def Machine.Calls (s : Machine T L) : Event T L A → Prop
  | .fork t u => s.pc t = .created u
  | .join t u => s.pc t = .joined u
  | .acquire t m => s.pc t = .locked m
  | .release t m => s.Ready t ∧ s.owner m = some t
  | .access t _ _ | .skip t => s.Ready t

-- A lock returns only when the mutex is free, a join only when the thread is over.
def Machine.Allows (s : Machine T L) : Action T L (Event T L A) → Prop
  | .lock t m => s.Ready t ∧ s.owner m = none
  | .unlock t m => s.pc t = .unlocking m
  | .create t u => s.Ready t ∧ s.life u = .unborn
  | .join t u => s.Ready t ∧ s.life u = .exited
  | .exit t => s.Ready t
  | .callback e => s.Calls e

variable [DecidableEq T] [DecidableEq L]

def Machine.start (main : T) : Machine T L :=
  ⟨fun _ => .idle,fun t => if t = main then .running else .unborn,fun _ => none⟩

def Machine.at (s : Machine T L) (t : T) (pc : Pc T L) : Machine T L := {s with pc := Function.update s.pc t pc}

def Machine.after (s : Machine T L) : Action T L (Event T L A) → Machine T L
  | .lock t m => {s.at t (.locked m) with owner := Function.update s.owner m (some t)}
  | .unlock t m => {s.at t .idle with owner := Function.update s.owner m none}
  | .create t u => {s.at t (.created u) with life := Function.update s.life u .running}
  | .join t u => {s.at t (.joined u) with life := Function.update s.life u .joined}
  | .exit t => {s with life := Function.update s.life t .exited}
  | .callback (.fork t _) | .callback (.join t _) | .callback (.acquire t _) => s.at t .idle
  | .callback (.release t m) => s.at t (.unlocking m)
  | .callback (.access ..) | .callback (.skip _) => s

def ScheduledFrom (s : Machine T L) : List (Action T L (Event T L A)) → Prop
  | [] => True
  | a :: rest => s.Allows a ∧ ScheduledFrom (s.after a) rest

def Scheduled (main : T) (acts : List (Action T L (Event T L A))) : Prop := ScheduledFrom (.start main) acts

def machineAfter (main : T) (acts : List (Action T L (Event T L A))) : Machine T L :=
  acts.foldl Machine.after (.start main)

instance Machine.decidableReady (s : Machine T L) (t : T) : Decidable (s.Ready t) := inferInstanceAs (Decidable (_ ∧ _))

instance Machine.decidableCalls (s : Machine T L) : (e : Event T L A) → Decidable (s.Calls e)
  | .fork .. | .join .. | .acquire .. => inferInstanceAs (Decidable (_ = _))
  | .release .. => inferInstanceAs (Decidable (_ ∧ _))
  | .access t .. | .skip t => s.decidableReady t

instance Machine.decidableAllows (s : Machine T L) : (a : Action T L (Event T L A)) → Decidable (s.Allows a)
  | .lock .. | .create .. | .join .. => inferInstanceAs (Decidable (_ ∧ _))
  | .unlock .. => inferInstanceAs (Decidable (_ = _))
  | .exit t => s.decidableReady t
  | .callback e => s.decidableCalls e

instance decidableScheduledFrom (s : Machine T L) :
    (acts : List (Action T L (Event T L A))) → Decidable (ScheduledFrom s acts)
  | [] => isTrue trivial
  | a :: rest => @instDecidableAnd _ _ (s.decidableAllows a) (decidableScheduledFrom (s.after a) rest)

instance decidableScheduled (main : T) (acts : List (Action T L (Event T L A))) : Decidable (Scheduled main acts) :=
  decidableScheduledFrom _ acts

@[simp] theorem machineAfter_nil : machineAfter main ([] : List (Action T L (Event T L A))) = .start main := rfl
@[simp] theorem machineAfter_snoc {acts : List (Action T L (Event T L A))} :
    machineAfter main (acts ++ [a]) = (machineAfter main acts).after a := by simp [machineAfter]

theorem scheduledFrom_append {s : Machine T L} {acts rest : List (Action T L (Event T L A))} :
    ScheduledFrom s (acts ++ rest) ↔ ScheduledFrom s acts ∧ ScheduledFrom (acts.foldl Machine.after s) rest := by
  induction acts generalizing s with
  | nil => simp [ScheduledFrom]
  | cons a acts ih => simp [ScheduledFrom,ih,and_assoc]

theorem scheduled_snoc {acts : List (Action T L (Event T L A))} :
    Scheduled main (acts ++ [a]) ↔ Scheduled main acts ∧ (machineAfter main acts).Allows a := by
  simp [Scheduled,scheduledFrom_append,ScheduledFrom,machineAfter]

theorem scheduled_take {acts : List (Action T L (Event T L A))} (scheduled : Scheduled main acts) (k : ℕ) :
    Scheduled main (acts.take k) := by
  rw [← List.take_append_drop k acts] at scheduled
  exact (scheduledFrom_append.mp scheduled).1

theorem scheduled_at {acts : List (Action T L (Event T L A))} (scheduled : Scheduled main acts) (found : acts[k]? = some a) :
    (machineAfter main (acts.take k)).Allows a := by
  have prefixScheduled := scheduled_take scheduled (k+1)
  rw [take_at found] at prefixScheduled
  exact (scheduled_snoc.mp prefixScheduled).2

end Steps

section Moves
variable {T L A : Type*} [DecidableEq T] {s : Machine T L}

@[simp] theorem at_self (t : T) (pc : Pc T L) : (s.at t pc).pc t = pc := by simp [Machine.at]
@[simp] theorem at_life (t : T) (pc : Pc T L) : (s.at t pc).life = s.life := rfl
@[simp] theorem at_owner (t : T) (pc : Pc T L) : (s.at t pc).owner = s.owner := rfl
theorem at_other (other : u ≠ t) (pc : Pc T L) : (s.at t pc).pc u = s.pc u := by simp [Machine.at,other]

variable [DecidableEq L] {a : Action T L (Event T L A)}

theorem pc_other (other : t ≠ a.actor) : (s.after a).pc t = s.pc t := by
  cases a with
  | exit u => rfl
  | callback e => cases e with
    | access u kind x => rfl
    | skip u => rfl
    | _ => exact at_other other _
  | _ => exact at_other other _

theorem life_kept (creates : ∀ p, a ≠ .create p t) (joins : ∀ p, a ≠ .join p t) (exits : a ≠ .exit t) :
    (s.after a).life t = s.life t := by
  cases a with
  | create p u => exact Function.update_of_ne (fun same => creates p (by rw [same])) _ _
  | join p u => exact Function.update_of_ne (fun same => joins p (by rw [same])) _ _
  | exit u => exact Function.update_of_ne (fun same => exits (by rw [same])) _ _
  | callback e => cases e <;> rfl
  | _ => rfl

theorem owner_kept (locks : ∀ p, a ≠ .lock p m) (unlocks : ∀ p, a ≠ .unlock p m) : (s.after a).owner m = s.owner m := by
  cases a with
  | lock p k => exact Function.update_of_ne (fun same => locks p (by rw [same])) _ _
  | unlock p k => exact Function.update_of_ne (fun same => unlocks p (by rw [same])) _ _
  | callback e => cases e <;> rfl
  | _ => rfl

end Moves

section Invariant
variable {T L A : Type*} {s : Machine T L} {a : Action T L (Event T L A)}

-- A thread is at a mutex between locking it and the callback for that, and
-- between the callback for its release and unlocking it.
def Machine.Engaged (s : Machine T L) (t : T) (m : L) : Prop := s.pc t = .locked m ∨ s.pc t = .unlocking m

-- What holds in every state of a run: only running threads are busy, a join has
-- ended its thread, and whoever is at a mutex owns it.
structure Sane (s : Machine T L) : Prop where
  busy : ∀ t, s.pc t ≠ .idle → s.life t = .running
  ended : ∀ t u, s.pc t = .joined u → s.life u = .joined
  owned : ∀ t m, s.Engaged t m → s.owner m = some t

theorem Sane.resting (sane : Sane s) (ended : s.life t ≠ .running) : s.pc t = .idle :=
  Classical.byContradiction fun busy => ended (sane.busy t busy)

theorem Sane.acts (sane : Sane s) (allowed : s.Allows a) : s.life a.actor = .running := by
  cases a with
  | lock t m => exact allowed.1.1
  | unlock t m => exact sane.busy t (by rw [show s.pc t = .unlocking m from allowed]; simp)
  | create t u => exact allowed.1.1
  | join t u => exact allowed.1.1
  | exit t => exact allowed.1
  | callback e =>
    cases e with
    | fork t u => exact sane.busy t (by rw [show s.pc t = .created u from allowed]; simp)
    | join t u => exact sane.busy t (by rw [show s.pc t = .joined u from allowed]; simp)
    | acquire t m => exact sane.busy t (by rw [show s.pc t = .locked m from allowed]; simp)
    | release t m => exact allowed.1.1
    | access t kind x => exact allowed.1
    | skip t => exact allowed.1

variable [DecidableEq T] [DecidableEq L]

omit [DecidableEq L] in
theorem sane_start (main : T) : Sane (Machine.start main : Machine T L) := by
  constructor <;> simp [Machine.start,Machine.Engaged]

theorem running_kept (allowed : s.Allows a) (exits : a ≠ .exit t) (runs : s.life t = .running) :
    (s.after a).life t = .running := by
  by_cases created : ∃ p, a = .create p t
  · obtain ⟨p,rfl⟩ := created
    simp [Machine.after]
  · have joins : ∀ p, a ≠ .join p t := by
      rintro p rfl
      rw [allowed.2] at runs; cases runs
    rw [life_kept (fun p same => created ⟨p,same⟩) joins exits,runs]

theorem joined_kept (sane : Sane s) (allowed : s.Allows a) (gone : s.life t = .joined) : (s.after a).life t = .joined := by
  have creates : ∀ p, a ≠ .create p t := by
    rintro p rfl
    rw [allowed.2] at gone; cases gone
  have joins : ∀ p, a ≠ .join p t := by
    rintro p rfl
    rw [allowed.2] at gone; cases gone
  have exits : a ≠ .exit t := by
    rintro rfl
    have runs := sane.acts allowed
    rw [show s.life t = .running from runs] at gone; cases gone
  rw [life_kept creates joins exits,gone]

theorem busy_step (sane : Sane s) (allowed : s.Allows a) (busy : (s.after a).pc t ≠ .idle) :
    (s.after a).life t = .running := by
  by_cases own : t = a.actor
  · subst own
    refine running_kept allowed ?_ (sane.acts allowed)
    intro exits
    rw [exits] at allowed busy
    exact busy allowed.2
  · rw [pc_other own] at busy
    refine running_kept allowed ?_ (sane.busy t busy)
    intro exits
    exact own (by rw [exits]; rfl)

theorem ended_step (sane : Sane s) (allowed : s.Allows a) (joined : (s.after a).pc t = .joined u) :
    (s.after a).life u = .joined := by
  by_cases own : t = a.actor
  · subst own
    cases a with
    | join p v => simp [Machine.after,Action.actor] at joined ⊢; simp [joined]
    | exit p => exact joined_kept sane allowed (sane.ended _ _ joined)
    | callback e => cases e with
      | access p kind x => exact joined_kept sane allowed (sane.ended _ _ joined)
      | skip p => exact joined_kept sane allowed (sane.ended _ _ joined)
      | _ => simp [Machine.after,Action.actor,Event.actor] at joined
    | _ => simp [Machine.after,Action.actor] at joined
  · rw [pc_other own] at joined
    exact joined_kept sane allowed (sane.ended t u joined)

theorem owned_step (sane : Sane s) (allowed : s.Allows a) (there : (s.after a).Engaged t m) :
    (s.after a).owner m = some t := by
  unfold Machine.Engaged at there
  by_cases own : t = a.actor
  · subst own
    cases a with
    | lock p k => simp [Machine.after,Action.actor] at there ⊢; simp [there]
    | exit p => exact sane.owned _ _ there
    | callback e => cases e with
      | release p k =>
        simp [Machine.after,Action.actor,Event.actor] at there ⊢
        exact there ▸ allowed.2
      | access p kind x => exact sane.owned _ _ there
      | skip p => exact sane.owned _ _ there
      | _ => simp [Machine.after,Action.actor,Event.actor] at there
    | _ => simp [Machine.after,Action.actor] at there
  · rw [pc_other own] at there
    have owns := sane.owned t m there
    have locks : ∀ p, a ≠ .lock p m := by
      rintro p rfl
      rw [allowed.2] at owns; cases owns
    have unlocks : ∀ p, a ≠ .unlock p m := by
      rintro p rfl
      have owner := sane.owned p m (.inr allowed)
      rw [owns] at owner
      exact own (Option.some.inj owner)
    rw [owner_kept locks unlocks,owns]

theorem sane_step (sane : Sane s) (allowed : s.Allows a) : Sane (s.after a) :=
  ⟨fun _ => busy_step sane allowed,fun _ _ => ended_step sane allowed,fun _ _ => owned_step sane allowed⟩

theorem sane_after {acts : List (Action T L (Event T L A))} (scheduled : Scheduled main acts) :
    Sane (machineAfter main acts) := by
  induction acts using List.reverseRecOn with
  | nil => exact sane_start main
  | append_singleton acts a ih =>
    obtain ⟨scheduled,allowed⟩ := scheduled_snoc.mp scheduled
    rw [machineAfter_snoc]
    exact sane_step (ih scheduled) allowed

end Invariant

section Callbacks
variable {T L A : Type*}

-- The callbacks of a run, each at its place; to them every other step is a skip.
def Action.seen : Action T L (Event T L A) → Event T L A
  | .callback e => e
  | a => .skip a.actor

def Action.callback? {ε : Type*} : Action T L ε → Option ε
  | .callback e => some e
  | _ => none

def callbacks {ε : Type*} (acts : List (Action T L ε)) : List ε := acts.filterMap Action.callback?

def Action.map {ε δ : Type*} (f : ε → δ) : Action T L ε → Action T L δ
  | .lock t m => .lock t m
  | .unlock t m => .unlock t m
  | .create t u => .create t u
  | .join t u => .join t u
  | .exit t => .exit t
  | .callback e => .callback (f e)

theorem callbacks_map {ε δ : Type*} (f : ε → δ) (acts : List (Action T L ε)) :
    callbacks (acts.map (Action.map f)) = (callbacks acts).map f := by
  have each : ∀ a : Action T L ε, (a.map f).callback? = a.callback?.map f := fun a => by cases a <;> rfl
  simp only [callbacks,List.filterMap_map,List.map_filterMap]
  exact List.filterMap_congr fun a _ => each a

theorem callbacks_snoc {ε : Type*} (acts : List (Action T L ε)) (a : Action T L ε) :
    callbacks (acts ++ [a]) = callbacks acts ++ a.callback?.toList := by
  simp only [callbacks,List.filterMap_append]
  cases a <;> rfl

variable [DecidableEq T] [DecidableEq L] {s : Machine T L} {acts : List (Action T L (Event T L A))}

instance (s : Machine T L) (t : T) (m : L) : Decidable (s.Engaged t m) := inferInstanceAs (Decidable (_ ∨ _))

def Machine.told (s : Machine T L) (m : L) : Option T := (s.owner m).filter fun t => ¬ s.Engaged t m

def Action.on (m : L) : Action T L (Event T L A) → Bool
  | .lock _ k | .unlock _ k | .callback (.acquire _ k) | .callback (.release _ k) => k = m
  | _ => false

theorem elsewhere {a : Action T L (Event T L A)} (allowed : s.Allows a) (off : a.on m = false) :
    (s.after a).owner m = s.owner m ∧ ∀ t, ((s.after a).pc t = .locked m ↔ s.pc t = .locked m) ∧
      ((s.after a).pc t = .unlocking m ↔ s.pc t = .unlocking m) := by
  refine ⟨owner_kept (by rintro p rfl; simp [Action.on] at off) (by rintro p rfl; simp [Action.on] at off),fun t => ?_⟩
  by_cases own : t = a.actor
  · subst own
    cases a with
    | lock p k =>
      have apart : k ≠ m := by simpa [Action.on] using off
      simp [Machine.after,Action.actor,allowed.1.2,apart]
    | unlock p k =>
      have apart : k ≠ m := by simpa [Action.on] using off
      have leaving : s.pc p = .unlocking k := allowed
      simp [Machine.after,Action.actor,leaving,apart]
    | create p u => simp [Machine.after,Action.actor,allowed.1.2]
    | join p u => simp [Machine.after,Action.actor,allowed.1.2]
    | exit p => exact ⟨Iff.rfl,Iff.rfl⟩
    | callback e =>
      cases e with
      | fork p u =>
        have created : s.pc p = .created u := allowed
        simp [Machine.after,Action.actor,Event.actor,created]
      | join p u =>
        have joined : s.pc p = .joined u := allowed
        simp [Machine.after,Action.actor,Event.actor,joined]
      | acquire p k =>
        have apart : k ≠ m := by simpa [Action.on] using off
        have locked : s.pc p = .locked k := allowed
        simp [Machine.after,Action.actor,Event.actor,locked,apart]
      | release p k =>
        have apart : k ≠ m := by simpa [Action.on] using off
        simp [Machine.after,Action.actor,Event.actor,allowed.1.2,apart]
      | access p kind x => exact ⟨Iff.rfl,Iff.rfl⟩
      | skip p => exact ⟨Iff.rfl,Iff.rfl⟩
  · rw [pc_other own]; exact ⟨Iff.rfl,Iff.rfl⟩

theorem told_kept {a : Action T L (Event T L A)} (allowed : s.Allows a) (off : a.on m = false) :
    (s.after a).told m = s.told m := by
  obtain ⟨owner,there⟩ := elsewhere allowed off
  have same : ∀ t, (s.after a).Engaged t m ↔ s.Engaged t m := fun t => or_congr (there t).1 (there t).2
  unfold Machine.told
  simp only [owner,same]

theorem told_step (sane : Sane s) {a : Action T L (Event T L A)} (allowed : s.Allows a) :
    (s.after a).told = holderAfter s.told a.seen := by
  funext m
  cases about : a.on m with
  | false =>
    rw [told_kept allowed about]
    cases a with
    | callback e =>
      cases e with
      | acquire p k =>
        have apart : m ≠ k := by simpa [Action.on,eq_comm] using about
        simp [Action.seen,holderAfter,apart]
      | release p k =>
        have apart : m ≠ k := by simpa [Action.on,eq_comm] using about
        simp [Action.seen,holderAfter,apart]
      | _ => rfl
    | _ => rfl
  | true =>
    cases a with
    | lock p k =>
      have same : k = m := by simpa [Action.on] using about
      subst same
      simp [Machine.told,Option.filter_some,Machine.after,Machine.Engaged,Action.seen,holderAfter,allowed.2]
    | unlock p k =>
      have same : k = m := by simpa [Action.on] using about
      subst same
      have leaving : s.pc p = .unlocking k := allowed
      simp [Machine.told,Option.filter_some,Machine.after,Machine.Engaged,Action.seen,holderAfter,
        sane.owned p k (.inr leaving),leaving]
    | callback e =>
      cases e with
      | acquire p k =>
        have same : k = m := by simpa [Action.on] using about
        subst same
        have locked : s.pc p = .locked k := allowed
        simp [Machine.told,Option.filter_some,Machine.after,Machine.Engaged,Action.seen,holderAfter,
          sane.owned p k (.inl locked)]
      | release p k =>
        have same : k = m := by simpa [Action.on] using about
        subst same
        simp [Machine.told,Option.filter_some,Machine.after,Machine.Engaged,Action.seen,holderAfter,allowed.2]
      | _ => cases about
    | _ => cases about

theorem holders_told (scheduled : Scheduled main acts) : holders (acts.map Action.seen) = (machineAfter main acts).told := by
  induction acts using List.reverseRecOn with
  | nil => rfl
  | append_singleton acts a ih =>
    obtain ⟨scheduled,allowed⟩ := scheduled_snoc.mp scheduled
    rw [List.map_append,List.map_singleton,holders_snoc,ih scheduled,machineAfter_snoc,
      told_step (sane_after scheduled) allowed]

theorem told_guarded (sane : Sane s) {a : Action T L (Event T L A)} (allowed : s.Allows a) : Guarded s.told a.seen := by
  cases a with
  | callback e =>
    cases e with
    | acquire t m =>
      have owns := sane.owned t m (.inl allowed)
      have at_lock : s.pc t = .locked m := allowed
      simp [Action.seen,Guarded,Machine.told,Machine.Engaged,owns,at_lock]
    | release t m =>
      simp [Action.seen,Guarded,Machine.told,Machine.Engaged,allowed.2,allowed.1.2]
    | _ => trivial
  | _ => trivial

-- The callbacks acquire a mutex only when they have released it, and release it
-- only by the thread that acquired it.
theorem callbacks_disciplined (scheduled : Scheduled main acts) : Disciplined (acts.map Action.seen) := by
  induction acts using List.reverseRecOn with
  | nil => trivial
  | append_singleton acts a ih =>
    obtain ⟨scheduled,allowed⟩ := scheduled_snoc.mp scheduled
    rw [List.map_append,List.map_singleton,disciplined_snoc,holders_told scheduled]
    exact ⟨ih scheduled,told_guarded (sane_after scheduled) allowed⟩

omit [DecidableEq T] in
theorem disciplined_callbacks : (holders (callbacks acts) = holders (acts.map Action.seen)) ∧
    (Disciplined (callbacks acts) ↔ Disciplined (acts.map Action.seen)) := by
  induction acts using List.reverseRecOn with
  | nil => exact ⟨rfl,Iff.rfl⟩
  | append_singleton acts a ih =>
    obtain ⟨holds,disciplined⟩ := ih
    rw [callbacks_snoc,List.map_append,List.map_singleton,holders_snoc,disciplined_snoc]
    cases a with
    | callback e =>
      rw [show (Action.callback e : Action T L (Event T L A)).callback?.toList = [e] from rfl,holders_snoc,disciplined_snoc,holds,disciplined]
      exact ⟨rfl,Iff.rfl⟩
    | _ => simp [Action.callback?,Action.seen,holderAfter,Guarded,holds,disciplined]

end Callbacks

section Rounds
variable {T L A : Type*}

def round (m : L) (t : T) : List (Action T L (Event T L A)) :=
  [.lock t m,.callback (.acquire t m),.callback (.release t m),.unlock t m]

variable [DecidableEq T] [DecidableEq L] {s : Machine T L} {acts : List (Action T L (Event T L A))}

def Machine.underway (s : Machine T L) (m : L) : List (Action T L (Event T L A)) :=
  match s.owner m with
  | none => []
  | some t => (round m t).take (if s.pc t = .locked m then 1 else if s.pc t = .unlocking m then 3 else 2)

theorem underway_step (sane : Sane s) {a : Action T L (Event T L A)} (allowed : s.Allows a) (about : a.on m = true) :
    (s.after a).underway m = s.underway m ++ [a] ∨
    ∃ t, (s.after a).underway m = ([] : List (Action T L (Event T L A))) ∧ s.underway m ++ [a] = round m t := by
  cases a with
  | lock p k =>
    have same : k = m := by simpa [Action.on] using about
    subst same
    exact .inl (by simp [Machine.underway,Machine.after,allowed.2,round])
  | unlock p k =>
    have same : k = m := by simpa [Action.on] using about
    subst same
    have leaving : s.pc p = .unlocking k := allowed
    exact .inr ⟨p,by simp [Machine.underway,Machine.after],
      by simp [Machine.underway,sane.owned p k (.inr leaving),leaving,round]⟩
  | callback e =>
    cases e with
    | acquire p k =>
      have same : k = m := by simpa [Action.on] using about
      subst same
      have locked : s.pc p = .locked k := allowed
      exact .inl (by simp [Machine.underway,Machine.after,sane.owned p k (.inl locked),locked,round])
    | release p k =>
      have same : k = m := by simpa [Action.on] using about
      subst same
      exact .inl (by simp [Machine.underway,Machine.after,allowed.2,allowed.1.2,round])
    | _ => cases about
  | _ => cases about

-- All that is done about a mutex is one round after another, each by one thread.
theorem rounds_underway (scheduled : Scheduled main acts) (m : L) :
    ∃ ts : List T, acts.filter (Action.on m) = ts.flatMap (round m) ++ (machineAfter main acts).underway m := by
  induction acts using List.reverseRecOn with
  | nil => exact ⟨[],rfl⟩
  | append_singleton acts a ih =>
    obtain ⟨scheduled,allowed⟩ := scheduled_snoc.mp scheduled
    obtain ⟨ts,done⟩ := ih scheduled
    rw [machineAfter_snoc,List.filter_append,done]
    cases about : a.on m with
    | false =>
      obtain ⟨owner,there⟩ := elsewhere allowed about
      refine ⟨ts,?_⟩
      simp only [Machine.underway,owner,there]
      simp [about]
    | true =>
      rcases underway_step (sane_after scheduled) allowed about with more | ⟨t,ends,whole⟩
      · exact ⟨ts,by rw [more]; simp [about]⟩
      · refine ⟨ts ++ [t],?_⟩
        rw [ends]
        simp [about,whole]

theorem rounds (scheduled : Scheduled main acts) (m : L) : ∃ ts : List T, acts.filter (Action.on m) <+: ts.flatMap (round m) := by
  obtain ⟨ts,done⟩ := rounds_underway scheduled m
  rw [done]
  unfold Machine.underway
  cases (machineAfter main acts).owner m with
  | none => exact ⟨ts,by simp⟩
  | some t =>
    refine ⟨ts ++ [t],?_⟩
    rw [List.flatMap_append,List.flatMap_singleton]
    exact (List.prefix_append_right_inj _).mpr (List.take_prefix _ _)

theorem joined_over {rest : List (Action T L (Event T L A))} (scheduled : Scheduled main (acts ++ rest))
    (gone : (machineAfter main acts).life u = .joined) : (machineAfter main (acts ++ rest)).life u = .joined := by
  induction rest using List.reverseRecOn with
  | nil => simpa using gone
  | append_singleton rest a ih =>
    rw [← List.append_assoc] at scheduled ⊢
    obtain ⟨scheduled,allowed⟩ := scheduled_snoc.mp scheduled
    rw [machineAfter_snoc]
    exact joined_kept (sane_after scheduled) allowed (ih scheduled)

theorem acts_before_join (scheduled : Scheduled main acts) {i j : ℕ} (found : acts[j]? = some (.callback (.join t u)))
    {a : Action T L (Event T L A)} (acted : acts[i]? = some a) (own : a.actor = u) : i < j := by
  by_contra late
  have sane := sane_after (scheduled_take scheduled j)
  have gone := sane.ended t u (scheduled_at scheduled found)
  have span := take_split acts (show j ≤ i by omega)
  have still := scheduled_take scheduled i
  rw [span] at still
  have ended := joined_over still gone
  rw [← span] at ended
  have runs := (sane_after (scheduled_take scheduled i)).acts (scheduled_at scheduled acted)
  rw [own,ended] at runs
  cases runs

end Rounds
end Interleaving
