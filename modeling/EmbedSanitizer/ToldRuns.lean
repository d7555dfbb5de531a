import EmbedSanitizer.AnnouncedOrder
import EmbedSanitizer.SameOrder

namespace ThreadEvents
open HappensBefore

section Introductions
variable {T L A : Type*}

def Event.concerns : Event T L A → List T
  | .join t u => [t,u]
  | e => [e.actor]

def Event.introduces : Event T L A → List T
  | .fork _ u => [u]
  | _ => []

def IntroducedFrom (known : List T) : List (Event T L A) → Prop
  | [] => True
  | e :: rest => (∀ t ∈ e.concerns, t ∈ known) ∧ IntroducedFrom (e.introduces ++ known) rest

def Introduced (main : T) (tr : List (Event T L A)) : Prop := IntroducedFrom [main] tr

variable [DecidableEq T]

instance decidableIntroducedFrom (known : List T) : (tr : List (Event T L A)) → Decidable (IntroducedFrom known tr)
  | [] => isTrue trivial
  | e :: rest => @instDecidableAnd _ _ inferInstance (decidableIntroducedFrom (e.introduces ++ known) rest)

instance decidableIntroduced (main : T) (tr : List (Event T L A)) : Decidable (Introduced main tr) := decidableIntroducedFrom _ tr

end Introductions
end ThreadEvents

namespace Interleaving
open HappensBefore ThreadEvents

-- What happens in a run: the program does something itself, a callback tells of
-- something, or a thread ends.
inductive Happening (T L A κ : Type*) where
  | does (e : Event T L A)
  | tells (c : κ)
  | ends (t : T)
  deriving DecidableEq, Repr

section Happenings
variable {T L A κ κ' : Type*}

def Happening.map (f : κ → κ') : Happening T L A κ → Happening T L A κ'
  | .does e => .does e
  | .tells c => .tells (f c)
  | .ends t => .ends t

def Happening.deed? : Happening T L A κ → Option (Event T L A)
  | .does e => some e
  | _ => none

def Happening.told? : Happening T L A κ → Option κ
  | .tells c => some c
  | _ => none

def deeds (run : List (Happening T L A κ)) : List (Event T L A) := run.filterMap Happening.deed?
def told (run : List (Happening T L A κ)) : List κ := run.filterMap Happening.told?

theorem deeds_append (run rest : List (Happening T L A κ)) : deeds (run ++ rest) = deeds run ++ deeds rest := List.filterMap_append
theorem told_append (run rest : List (Happening T L A κ)) : told (run ++ rest) = told run ++ told rest := List.filterMap_append

theorem deeds_snoc (run : List (Happening T L A κ)) (h : Happening T L A κ) : deeds (run ++ [h]) = deeds run ++ h.deed?.toList := by
  rw [deeds_append]
  cases h <;> rfl

theorem deeds_map (f : κ → κ') (run : List (Happening T L A κ)) : deeds (run.map (Happening.map f)) = deeds run := by
  unfold deeds
  rw [List.filterMap_map]
  exact List.filterMap_congr fun h _ => by cases h <;> rfl

theorem told_map (f : κ → κ') (run : List (Happening T L A κ)) : told (run.map (Happening.map f)) = (told run).map f := by
  unfold told
  rw [List.filterMap_map,List.map_filterMap]
  exact List.filterMap_congr fun h _ => by cases h <;> rfl

-- For the mutexes and the lives of the threads an access is a step that only its
-- thread takes part in.
def Happening.step : Happening T L A (Event T L A) → Action T L (Event T L A)
  | .does (.acquire t m) => .lock t m
  | .does (.release t m) => .unlock t m
  | .does (.fork t u) => .create t u
  | .does (.join t u) => .join t u
  | .does (.access t _ _) | .does (.skip t) => .callback (.skip t)
  | .tells e => .callback e
  | .ends t => .exit t

def steps (run : List (Happening T L A (Event T L A))) : List (Action T L (Event T L A)) := run.map Happening.step

theorem steps_append (run rest : List (Happening T L A (Event T L A))) : steps (run ++ rest) = steps run ++ steps rest := List.map_append

theorem steps_snoc (run : List (Happening T L A (Event T L A))) (h : Happening T L A (Event T L A)) :
    steps (run ++ [h]) = steps run ++ [h.step] := steps_append run [h]

end Happenings

section Deeds
variable {T L A : Type*} {s : Machine T L} {main : T}

def Life.status : Life → Status
  | .unborn => .unborn
  | .running | .exited => .running
  | .joined => .joined

def Machine.world (s : Machine T L) : World T L := ⟨fun t => (s.life t).status,s.owner⟩

theorem status_running {t : T} (runs : s.life t = .running) : s.world.status t = .running := by
  simp [Machine.world,Life.status,runs]

theorem deed_allowed (sane : Sane s) {e : Event T L A} (allowed : s.Allows (Happening.does e).step) : s.world.Allows e := by
  have acts := status_running (sane.acts allowed)
  cases e with
  | fork t u => exact ⟨acts,by simp [Machine.world,Life.status,allowed.2]⟩
  | join t u =>
    refine ⟨acts,by simp [Machine.world,Life.status,allowed.2],?_⟩
    rintro rfl
    have runs := allowed.1.1
    rw [allowed.2] at runs; cases runs
  | acquire t m => exact ⟨acts,allowed.2⟩
  | release t m => exact ⟨acts,sane.owned t m (.inr allowed)⟩
  | access t kind x => exact acts
  | skip t => exact acts

variable [DecidableEq T] [DecidableEq L]

omit [DecidableEq L] in
theorem world_start (main : T) : (Machine.start main : Machine T L).world = .start main := by
  unfold Machine.start Machine.world World.start
  congr 1
  funext t
  by_cases own : t = main <;> simp [own,Life.status]

omit [DecidableEq L] in
theorem world_life (s : Machine T L) (pc : T → Pc T L) (u : T) (life : Life) :
    (⟨pc,Function.update s.life u life,s.owner⟩ : Machine T L).world =
      {s.world with status := Function.update s.world.status u life.status} := by
  refine congrArg (World.mk · s.owner) (funext fun t => ?_)
  by_cases own : t = u
  · subst own; simp
  · simp [own,Machine.world]

theorem world_step (sane : Sane s) {h : Happening T L A (Event T L A)} (allowed : s.Allows h.step) :
    (s.after h.step).world = h.deed?.toList.foldl World.after s.world := by
  cases h with
  | does e =>
    cases e with
    | fork t u => exact world_life s _ u .running
    | join t u => exact world_life s _ u .joined
    | _ => rfl
  | tells e => cases e <;> rfl
  | ends t =>
    have same : s.world.status t = Life.exited.status := status_running (sane.acts allowed)
    refine (world_life s s.pc t .exited).trans ?_
    rw [← same,Function.update_eq_self]
    rfl

theorem deeds_world {run : List (Happening T L A (Event T L A))} (scheduled : Scheduled main (steps run)) :
    Legal main (deeds run) ∧ (machineAfter main (steps run)).world = worldAfter main (deeds run) := by
  induction run using List.reverseRecOn with
  | nil => exact ⟨trivial,world_start main⟩
  | append_singleton run h ih =>
    rw [steps_snoc] at scheduled ⊢
    obtain ⟨earlier,allowed⟩ := scheduled_snoc.mp scheduled
    obtain ⟨legal,same⟩ := ih earlier
    have sane := sane_after earlier
    rw [machineAfter_snoc,world_step sane allowed,same,deeds_snoc]
    cases h with
    | does e => exact ⟨legal_snoc.mpr ⟨legal,same ▸ deed_allowed sane allowed⟩,worldAfter_snoc.symm⟩
    | _ =>
      change Legal main (deeds run ++ []) ∧ _ = worldAfter main (deeds run ++ [])
      rw [List.append_nil]
      exact ⟨legal,rfl⟩

theorem deeds_legal {run : List (Happening T L A (Event T L A))} (scheduled : Scheduled main (steps run)) : Legal main (deeds run) :=
  (deeds_world scheduled).1

end Deeds

section Moving
variable {T L A : Type*} {s : Machine T L} {w : World T L} {a : Action T L (Event T L A)}

def Pc.after (pc : Pc T L) : Action T L (Event T L A) → Pc T L
  | .lock _ m => .locked m
  | .create _ u => .created u
  | .join _ u => .joined u
  | .callback (.release _ m) => .unlocking m
  | .unlock .. | .callback (.fork ..) | .callback (.join ..) | .callback (.acquire ..) => .idle
  | .exit _ | .callback (.access ..) | .callback (.skip _) => pc

variable [DecidableEq T] [DecidableEq L]

theorem pc_actor (s : Machine T L) (a : Action T L (Event T L A)) : (s.after a).pc a.actor = (s.pc a.actor).after a := by
  cases a with
  | exit t => rfl
  | callback e => cases e with
    | access t kind x => rfl
    | skip t => rfl
    | _ => exact at_self _ _
  | _ => exact at_self _ _

omit [DecidableEq T] [DecidableEq L] in
theorem next_actor {pc : Pc T L} (next : pc.next t = some a) : a.actor = t := by
  cases pc <;> cases next <;> rfl

theorem stands_cases {pc : Pc T L} (allowed : s.Allows a) (busy : pc ≠ .idle) (stands : (s.after a).pc t = pc) :
    (a.actor = t ∧ Pc.after .idle a = pc) ∨ (s.pc t = pc ∧ pc.next t ≠ some a) := by
  by_cases own : t = a.actor
  · subst own
    rw [pc_actor] at stands
    have rests : s.pc a.actor = .idle → s.pc a.actor = pc → False := fun idle same => busy (same.symm.trans idle)
    cases a with
    | exit t => exact (rests allowed.2 stands).elim
    | callback e => cases e with
      | access t kind x => exact (rests allowed.2 stands).elim
      | skip t => exact (rests allowed.2 stands).elim
      | _ => exact .inl ⟨rfl,stands⟩
    | _ => exact .inl ⟨rfl,stands⟩
  · rw [pc_other own] at stands
    exact .inr ⟨stands,fun next => own (next_actor next).symm⟩

theorem created_cases (allowed : s.Allows a) (waits : (s.after a).pc p = .created u) :
    a = .create p u ∨ (s.pc p = .created u ∧ a ≠ .callback (.fork p u)) := by
  rcases stands_cases allowed (by simp) waits with ⟨rfl,entered⟩ | stood
  · cases a with
    | create t v => cases entered; exact .inl rfl
    | callback e => cases e <;> cases entered
    | _ => cases entered
  · exact .inr (by simpa [Pc.next,eq_comm] using stood)

theorem joined_cases (allowed : s.Allows a) (waits : (s.after a).pc p = .joined u) :
    a = .join p u ∨ (s.pc p = .joined u ∧ a ≠ .callback (.join p u)) := by
  rcases stands_cases allowed (by simp) waits with ⟨rfl,entered⟩ | stood
  · cases a with
    | join t v => cases entered; exact .inl rfl
    | callback e => cases e <;> cases entered
    | _ => cases entered
  · exact .inr (by simpa [Pc.next,eq_comm] using stood)

theorem born_kept (born : s.life u ≠ .unborn) (a : Action T L (Event T L A)) : (s.after a).life u ≠ .unborn := by
  have update : ∀ v life, life ≠ Life.unborn → Function.update s.life v life u ≠ .unborn := by
    intro v life lives
    by_cases own : u = v
    · rw [own,Function.update_self]; exact lives
    · rw [Function.update_of_ne own]; exact born
  cases a with
  | create t v => exact update v .running (by simp)
  | join t v => exact update v .joined (by simp)
  | exit t => exact update t .exited (by simp)
  | callback e => cases e <;> exact born
  | _ => exact born

theorem status_kept {e : Event T L A} (forks : ∀ p, e ≠ .fork p u) (joins : ∀ p, e ≠ .join p u) :
    (w.after e).status u = w.status u := by
  cases e with
  | fork p v => exact Function.update_of_ne (fun same => forks p (by rw [same])) _ _
  | join p v => exact Function.update_of_ne (fun same => joins p (by rw [same])) _ _
  | _ => rfl

end Moving

section Tellings
variable {T L A : Type*} [DecidableEq T] [DecidableEq L] {s : Machine T L} {w : World T L} {a : Action T L (Event T L A)} {main : T}

-- What has been told lags behind what has been done: a creation and a join wait for
-- their callbacks, each at one thread.
structure Behind (s : Machine T L) (w : World T L) : Prop where
  holds : w.holder = s.told
  creating : ∀ p u, s.pc p = .created u → s.life u ≠ .unborn ∧ w.status u = .unborn
  creator : ∀ p q u, s.pc p = .created u → s.pc q = .created u → p = q
  joiner : ∀ p q u, s.pc p = .joined u → s.pc q = .joined u → p = q
  unborn : ∀ u, s.life u = .unborn → w.status u = .unborn
  joined : ∀ u, w.status u = .joined → s.life u = .joined ∧ ∀ p, s.pc p ≠ .joined u

omit [DecidableEq T] [DecidableEq L] in
theorem seen_callback {e : Event T L A} (synchronizes : e.Synchronizes = true) (seen : a.seen = e) : a = .callback e := by
  cases a with
  | callback d => exact congrArg _ seen
  | _ => rw [← seen] at synchronizes; cases synchronizes

theorem behind_start (main : T) : Behind (Machine.start main : Machine T L) (.start main) where
  holds := rfl
  creating p u waits := by cases waits
  creator p q u waits := by cases waits
  joiner p q u waits := by cases waits
  unborn u unborn := by by_cases own : u = main <;> simp_all [Machine.start,World.start]
  joined u joined := by by_cases own : u = main <;> simp_all [World.start]

section Step
variable (sane : Sane s) (behind : Behind s w) (allowed : s.Allows a)
  (introduced : ∀ t u, a = .callback (.join t u) → w.status u ≠ .unborn)
include sane behind allowed introduced

omit sane in
theorem creating_step (stands : (s.after a).pc p = .created u) :
    (s.after a).life u ≠ .unborn ∧ (w.after a.seen).status u = .unborn := by
  rcases created_cases allowed stands with rfl | ⟨waits,other⟩
  · exact ⟨by simp [Machine.after],behind.unborn u allowed.2⟩
  · obtain ⟨born,untold⟩ := behind.creating p u waits
    refine ⟨born_kept born a,?_⟩
    rw [status_kept ?_ ?_,untold]
    · intro q seen
      have same := seen_callback rfl seen
      subst same
      exact other (by rw [behind.creator p q u waits allowed])
    · intro q seen
      exact introduced q u (seen_callback rfl seen) untold

theorem unborn_step (unborn : (s.after a).life u = .unborn) : (w.after a.seen).status u = .unborn := by
  have before : s.life u = .unborn := Classical.byContradiction fun born => born_kept born a unborn
  rw [status_kept ?_ ?_,behind.unborn u before]
  · intro q seen
    have same := seen_callback rfl seen
    subst same
    exact (behind.creating q u allowed).1 before
  · intro q seen
    have same := seen_callback rfl seen
    subst same
    rw [sane.ended q u allowed] at before; cases before

theorem joined_step (joined : (w.after a.seen).status u = .joined) :
    (s.after a).life u = .joined ∧ ∀ p, (s.after a).pc p ≠ .joined u := by
  by_cases tells : ∃ q, a = .callback (.join q u)
  · obtain ⟨q,rfl⟩ := tells
    refine ⟨joined_kept sane allowed (sane.ended q u allowed),fun p waits => ?_⟩
    rcases joined_cases allowed waits with same | ⟨waits,other⟩
    · cases same
    · exact other (by rw [behind.joiner p q u waits allowed])
  · have forks : ∀ q, a.seen ≠ .fork q u := by
      intro q seen
      rw [seen] at joined
      simp [World.after] at joined
    rw [status_kept forks fun q seen => tells ⟨q,seen_callback rfl seen⟩] at joined
    obtain ⟨gone,quiet⟩ := behind.joined u joined
    refine ⟨joined_kept sane allowed gone,fun p waits => ?_⟩
    rcases joined_cases allowed waits with rfl | ⟨waits,_⟩
    · rw [allowed.2] at gone; cases gone
    · exact quiet p waits

theorem behind_step : Behind (s.after a) (w.after a.seen) where
  holds := by rw [after_holder,behind.holds,told_step sane allowed]
  creating p u := creating_step behind allowed introduced
  creator p q u one two := by
    rcases created_cases allowed one with rfl | ⟨left,_⟩
    · rcases created_cases allowed two with same | ⟨right,_⟩
      · cases same; rfl
      · exact absurd allowed.2 (behind.creating q u right).1
    · rcases created_cases allowed two with rfl | ⟨right,_⟩
      · exact absurd allowed.2 (behind.creating p u left).1
      · exact behind.creator p q u left right
  joiner p q u one two := by
    have open_ : ∀ t v, s.pc t = .joined v → s.life v ≠ .exited := by
      intro t v waits
      rw [sane.ended t v waits]; simp
    rcases joined_cases allowed one with rfl | ⟨left,_⟩
    · rcases joined_cases allowed two with same | ⟨right,_⟩
      · cases same; rfl
      · exact absurd allowed.2 (open_ q u right)
    · rcases joined_cases allowed two with rfl | ⟨right,_⟩
      · exact absurd allowed.2 (open_ p u left)
      · exact behind.joiner p q u left right
  unborn u := unborn_step sane behind allowed introduced
  joined u := joined_step sane behind allowed introduced

end Step

theorem told_allowed (sane : Sane s) (behind : Behind s w) {e : Event T L A} (allowed : s.Allows (.callback e))
    (known : ∀ t ∈ e.concerns, w.status t ≠ .unborn) : w.Allows e := by
  have runs : ∀ t ∈ e.concerns, w.status t ≠ .joined → w.status t = .running := by
    intro t member open_
    have born := known t member
    cases status : w.status t <;> simp_all
  have acts : w.status e.actor = .running := by
    refine runs e.actor (by cases e <;> simp [Event.concerns,Event.actor]) fun joined => ?_
    have gone := (behind.joined _ joined).1
    rw [show s.life e.actor = .running from sane.acts allowed] at gone; cases gone
  have guarded : Guarded w.holder e := behind.holds ▸ told_guarded sane allowed
  cases e with
  | fork t u => exact ⟨acts,(behind.creating t u allowed).2⟩
  | join t u =>
    refine ⟨acts,runs u (by simp [Event.concerns]) fun joined => (behind.joined u joined).2 t allowed,?_⟩
    rintro rfl
    have ended := sane.ended t t allowed
    rw [show s.life t = .running from sane.acts allowed] at ended; cases ended
  | acquire t m => exact ⟨acts,guarded⟩
  | release t m => exact ⟨acts,guarded⟩
  | access t kind x => exact acts
  | skip t => exact acts

theorem known_after {known : List T} (born : ∀ t ∈ known, w.status t ≠ .unborn) (e : Event T L A) :
    ∀ t ∈ e.introduces ++ known, (w.after e).status t ≠ .unborn := by
  intro t member
  cases e with
  | fork p u =>
    by_cases own : t = u
    · simp [World.after,own]
    · have before : t ∈ known := by simpa [Event.introduces,own] using member
      simpa [World.after,own] using born t before
  | join p u =>
    by_cases own : t = u
    · simp [World.after,own]
    · simpa [World.after,own] using born t member
  | _ => exact born t member

theorem told_legalFrom {run : List (Happening T L A (Event T L A))} {known : List T} (sane : Sane s) (behind : Behind s w)
    (born : ∀ t ∈ known, w.status t ≠ .unborn) (scheduled : ScheduledFrom s (steps run)) (introduced : IntroducedFrom known (told run)) :
    LegalFrom w (told run) := by
  induction run generalizing s w known with
  | nil => trivial
  | cons h rest ih =>
    obtain ⟨allowed,later⟩ := scheduled
    have next := sane_step sane allowed
    cases h with
    | does e =>
      have still := behind_step sane behind allowed (by cases e <;> simp [Happening.step])
      have unseen : w.after (Happening.does e).step.seen = w := by cases e <;> rfl
      exact ih next (unseen ▸ still) born later introduced
    | ends t =>
      exact ih next (behind_step sane behind allowed (by simp [Happening.step])) born later introduced
    | tells e =>
      obtain ⟨concerned,introduced⟩ := introduced
      have known := fun t member => born t (concerned t member)
      refine ⟨told_allowed sane behind allowed known,ih next (behind_step sane behind allowed ?_) (known_after born e) later introduced⟩
      intro t u same
      cases same
      exact known u (by simp [Event.concerns])

theorem told_legal {run : List (Happening T L A (Event T L A))} (scheduled : Scheduled main (steps run))
    (introduced : Introduced main (told run)) : Legal main (told run) :=
  told_legalFrom (sane_start main) (behind_start main) (by simp [World.start]) scheduled introduced

end Tellings

section Agreement
variable {T L A : Type*} [DecidableEq T] [DecidableEq L] {main : T}

def Action.deed? : Action T L (Event T L A) → Option (Event T L A)
  | .lock t m => some (.acquire t m)
  | .unlock t m => some (.release t m)
  | _ => none

omit [DecidableEq T] in
theorem about_deeds (run : List (Happening T L A (Event T L A))) (m : L) :
    (deeds run).filter (Event.about m) = ((steps run).filter (Action.on m)).filterMap Action.deed? := by
  unfold deeds steps
  rw [List.filter_filterMap,List.filterMap_filter,List.filterMap_map]
  refine List.filterMap_congr fun h _ => ?_
  cases h with
  | does e => cases e <;> simp [Happening.deed?,Happening.step,Action.on,Action.deed?,Event.about,Option.filter_some]
  | tells e => cases e <;> simp [Happening.deed?,Happening.step,Action.on,Action.deed?]
  | ends t => rfl

omit [DecidableEq T] in
theorem about_told (run : List (Happening T L A (Event T L A))) (m : L) :
    (told run).filter (Event.about m) = ((steps run).filter (Action.on m)).filterMap Action.callback? := by
  unfold told steps
  rw [List.filter_filterMap,List.filterMap_filter,List.filterMap_map]
  refine List.filterMap_congr fun h _ => ?_
  cases h with
  | does e => cases e <;> simp [Happening.told?,Happening.step,Action.on,Action.callback?]
  | tells e => cases e <;> simp [Happening.told?,Happening.step,Action.on,Action.callback?,Event.about,Option.filter_some]
  | ends t => rfl

-- When no thread stands between an operation and its callback, the callbacks have
-- told all that was done to each mutex, in order.
theorem told_rounds {run : List (Happening T L A (Event T L A))} (scheduled : Scheduled main (steps run))
    (rests : ∀ t, (machineAfter main (steps run)).pc t = .idle) (m : L) :
    (deeds run).filter (Event.about m) = (told run).filter (Event.about m) := by
  obtain ⟨ts,done⟩ := rounds_underway scheduled m
  rw [about_deeds,about_told,done,List.filterMap_append,List.filterMap_append,List.filterMap_flatMap,List.filterMap_flatMap]
  refine congrArg₂ (· ++ ·) rfl ?_
  unfold Machine.underway
  cases (machineAfter main (steps run)).owner m with
  | none => rfl
  | some t => simp only [rests]; rfl

omit [DecidableEq L] in
def Happening.of (t : T) : Happening T L A (Event T L A) → Bool
  | .does e | .tells e => e.actor = t
  | .ends _ => false

omit [DecidableEq T] [DecidableEq L] in
theorem step_actor {e : Event T L A} : (Happening.does e).step.actor = e.actor := by cases e <;> rfl

theorem pc_own (run : List (Happening T L A (Event T L A))) (t : T) :
    (machineAfter main (steps run)).pc t = (steps (run.filter (Happening.of t))).foldl Pc.after .idle := by
  induction run using List.reverseRecOn with
  | nil => rfl
  | append_singleton run h ih =>
    rw [steps_snoc,machineAfter_snoc,List.filter_append,steps_append,List.foldl_append,← ih]
    have moves : ∀ a : Action T L (Event T L A), ((machineAfter main (steps run)).after a).pc t =
        if a.actor = t then ((machineAfter main (steps run)).pc t).after a else (machineAfter main (steps run)).pc t := by
      intro a
      split
      · rename_i own
        rw [← own,pc_actor]
      · rename_i other
        exact pc_other (Ne.symm other)
    cases h with
    | ends u =>
      rw [moves]
      split <;> rfl
    | does e =>
      rw [moves,step_actor]
      by_cases own : e.actor = t <;> simp [Happening.of,own,steps]
    | tells e =>
      rw [moves]
      by_cases own : e.actor = t <;> simp [Happening.of,own,steps,Happening.step,Action.actor]

end Agreement
end Interleaving
