import EmbedSanitizer.Lifetimes
import EmbedSanitizer.Reorderings

namespace ThreadEvents
open HappensBefore

section Classes
variable {T L A : Type*} [DecidableEq T] [DecidableEq L]

def Event.own (u : T) (e : Event T L A) : Bool := e.actor = u

def Event.forks (u : T) : Event T L A → Bool
  | .fork _ v => v = u
  | _ => false

def Event.joins (u : T) : Event T L A → Bool
  | .join _ v => v = u
  | _ => false

def Event.involves (u : T) (e : Event T L A) : Bool := e.own u || e.forks u || e.joins u

def Event.about (m : L) : Event T L A → Bool
  | .acquire _ k | .release _ k => k = m
  | _ => false

def Event.inClass : Channel T L → Event T L A → Bool
  | .thread u => Event.involves u
  | .lock m => Event.about m

theorem feeds_class {e : Event T L A} {c : Channel T L} (feeds : e.Feeds c) : Event.inClass c e = true := by
  cases e with
  | fork t u => rcases feeds with rfl | rfl <;> simp [Event.inClass,Event.involves,Event.own,Event.actor,Event.forks]
  | release t m => rcases feeds with rfl | rfl <;> simp [Event.inClass,Event.involves,Event.own,Event.actor,Event.about]
  | _ => cases feeds; simp [Event.inClass,Event.involves,Event.own,Event.actor]

theorem draws_class {e : Event T L A} {c : Channel T L} (draws : e.Draws c) : Event.inClass c e = true := by
  cases e with
  | join t u => rcases draws with rfl | rfl <;> simp [Event.inClass,Event.involves,Event.own,Event.actor,Event.joins]
  | acquire t m => rcases draws with rfl | rfl <;> simp [Event.inClass,Event.involves,Event.own,Event.actor,Event.about]
  | _ => cases draws; simp [Event.inClass,Event.involves,Event.own,Event.actor]

theorem classes_cover : Covers (Event.inClass (T := T) (L := L) (A := A)) order where
  every e := ⟨.thread e.actor,feeds_class (feeds_actor e)⟩
  linked e d := by
    by_cases apart : Apart order e d
    · exact .inl apart
    · rcases not_and_or.mp apart with passes | passes
      · obtain ⟨c,feeds,draws⟩ := not_not.mp passes
        exact .inr ⟨c,feeds_class feeds,draws_class draws⟩
      · obtain ⟨c,feeds,draws⟩ := not_not.mp passes
        exact .inr ⟨c,draws_class draws,feeds_class feeds⟩

end Classes

section Projections
variable {T L A : Type*} [DecidableEq T] [DecidableEq L] {w : World T L} {tr : List (Event T L A)} {u : T}

theorem unforked (legal : LegalFrom w tr) (born : w.status u ≠ .unborn) : tr.filter (Event.forks u) = [] := by
  induction tr generalizing w with
  | nil => rfl
  | cons e rest ih =>
    obtain ⟨allowed,later⟩ := legal
    cases e with
    | fork p v =>
      have other : v ≠ u := fun same => born (same ▸ allowed.2)
      rw [List.filter_cons_of_neg (by simpa [Event.forks] using other)]
      exact ih later (by simpa [World.after,Function.update_of_ne other.symm] using born)
    | join p v =>
      rw [List.filter_cons_of_neg (by simp [Event.forks])]
      refine ih later ?_
      by_cases same : u = v
      · simp [World.after,same]
      · simpa [World.after,same] using born
    | _ => exact ih later born

theorem joined_silent (legal : LegalFrom w tr) (joined : w.status u = .joined) : tr.filter (Event.involves u) = [] := by
  induction tr generalizing w with
  | nil => rfl
  | cons e rest ih =>
    obtain ⟨allowed,later⟩ := legal
    have away : e.actor ≠ u := by
      rintro rfl
      have running : w.status e.actor = .running := allows_live allowed
      rw [joined] at running; cases running
    have quiet : e.involves u = false ∧ (w.after e).status u = .joined := by
      cases e with
      | fork p v =>
        have other : v ≠ u := by
          rintro rfl
          rw [allowed.2] at joined; cases joined
        exact ⟨by simpa [Event.involves,Event.own,Event.forks,Event.joins,other] using away,by simpa [World.after,Ne.symm other] using joined⟩
      | join p v =>
        have other : v ≠ u := by
          rintro rfl
          rw [allowed.2.1] at joined; cases joined
        exact ⟨by simpa [Event.involves,Event.own,Event.forks,Event.joins,other] using away,by simpa [World.after,Ne.symm other] using joined⟩
      | _ => exact ⟨by simpa [Event.involves,Event.own,Event.forks,Event.joins] using away,joined⟩
    rw [List.filter_cons_of_neg (by simp [quiet.1])]
    exact ih later quiet.2

-- What involves a thread is its fork, then its own events, then its join.
theorem involves_split (legal : LegalFrom w tr) (u : T) : tr.filter (Event.involves u) =
    tr.filter (Event.forks u) ++ tr.filter (Event.own u) ++ tr.filter (Event.joins u) := by
  induction tr generalizing w with
  | nil => rfl
  | cons e rest ih =>
    obtain ⟨allowed,later⟩ := legal
    have tail := ih later
    by_cases own : e.actor = u
    · have born : w.status u ≠ .unborn := by
        rw [← own,show w.status e.actor = .running from allows_live allowed]
        simp
      have fresh : (e :: rest).filter (Event.forks u) = [] := unforked ⟨allowed,later⟩ born
      have unjoined : e.joins u = false := by
        cases e with
        | join p v => simpa [Event.joins] using fun same : v = u => allowed.2.2 (own.trans same.symm)
        | _ => rfl
      have forked : rest.filter (Event.forks u) = [] := by
        rw [List.filter_eq_nil_iff] at fresh ⊢
        exact fun d member => fresh d (List.mem_cons_of_mem _ member)
      rw [fresh,List.filter_cons_of_pos (by simp [Event.involves,Event.own,own]),List.filter_cons_of_pos (by simpa [Event.own] using own),
        List.filter_cons_of_neg (by simp [unjoined]),tail,forked]
      rfl
    · rw [List.filter_cons_of_neg (p := Event.own u) (by simpa [Event.own] using own)]
      cases joins : e.joins u with
      | true =>
        have joined : (w.after e).status u = .joined := by
          cases e with
          | join p v =>
            obtain rfl : v = u := by simpa [Event.joins] using joins
            simp [World.after]
          | _ => cases joins
        have silent := joined_silent later joined
        have unforks : e.forks u = false := by
          cases e with
          | join p v => rfl
          | _ => cases joins
        rw [silent,eq_comm,List.append_eq_nil_iff,List.append_eq_nil_iff] at tail
        rw [List.filter_cons_of_pos (by simp [Event.involves,joins]),List.filter_cons_of_pos (p := Event.joins u) joins,
          List.filter_cons_of_neg (by simp [unforks]),silent,tail.1.1,tail.1.2,tail.2]
        rfl
      | false =>
        rw [List.filter_cons_of_neg (p := Event.joins u) (by simp [joins])]
        cases forks : e.forks u with
        | true =>
          rw [List.filter_cons_of_pos (by simp [Event.involves,forks]),List.filter_cons_of_pos (p := Event.forks u) forks,tail]
          rfl
        | false =>
          rw [List.filter_cons_of_neg (by simpa [Event.involves,Event.own,forks,joins] using own),
            List.filter_cons_of_neg (p := Event.forks u) (by simp [forks]),tail]

theorem forks_once (legal : LegalFrom w tr) (u : T) : (tr.filter (Event.forks u)).length ≤ 1 := by
  induction tr generalizing w with
  | nil => simp
  | cons e rest ih =>
    obtain ⟨allowed,later⟩ := legal
    cases forks : e.forks u with
    | false => rw [List.filter_cons_of_neg (by simp [forks])]; exact ih later
    | true =>
      have born : (w.after e).status u ≠ .unborn := by
        cases e with
        | fork p v =>
          obtain rfl : v = u := by simpa [Event.forks] using forks
          simp [World.after]
        | _ => cases forks
      rw [List.filter_cons_of_pos forks,unforked later born]
      simp

theorem joins_once (legal : LegalFrom w tr) (u : T) : (tr.filter (Event.joins u)).length ≤ 1 := by
  induction tr generalizing w with
  | nil => simp
  | cons e rest ih =>
    obtain ⟨allowed,later⟩ := legal
    cases joins : e.joins u with
    | false => rw [List.filter_cons_of_neg (by simp [joins])]; exact ih later
    | true =>
      have joined : (w.after e).status u = .joined := by
        cases e with
        | join p v =>
          obtain rfl : v = u := by simpa [Event.joins] using joins
          simp [World.after]
        | _ => cases joins
      have silent := joined_silent later joined
      rw [involves_split later,List.append_eq_nil_iff] at silent
      rw [List.filter_cons_of_pos joins,silent.2]
      simp

end Projections

section Schedules
variable {T L A : Type*} [DecidableEq T] [DecidableEq L] {main : T} {tr tr' : List (Event T L A)}

-- Two schedules of the same threads in which every mutex goes round in the same order.
structure SameOrder (tr tr' : List (Event T L A)) : Prop where
  threads : ∀ t, tr.filter (Event.own t) = tr'.filter (Event.own t)
  locks : ∀ m, tr.filter (Event.about m) = tr'.filter (Event.about m)

omit [DecidableEq T] [DecidableEq L] in
theorem filters_same {p : Event T L A → Bool} (known : (∃ e ∈ tr ++ tr', p e = true) → tr.filter p = tr'.filter p) :
    tr.filter p = tr'.filter p := by
  by_cases some : ∃ e ∈ tr ++ tr', p e = true
  · exact known some
  · have none : ∀ l : List (Event T L A), (∀ e ∈ l, e ∈ tr ++ tr') → l.filter p = [] := by
      intro l within
      rw [List.filter_eq_nil_iff]
      exact fun e member holds => some ⟨e,within e member,holds⟩
    rw [none tr (by simp +contextual),none tr' (by simp +contextual)]

def Event.mutex : Event T L A → Option L
  | .acquire _ m | .release _ m => some m
  | _ => none

omit [DecidableEq T] in
theorem about_mutex {e : Event T L A} {m : L} (about : e.about m = true) : e.mutex = some m := by
  cases e with
  | acquire t k => rw [Event.mutex,show k = m by simpa [Event.about] using about]
  | release t k => rw [Event.mutex,show k = m by simpa [Event.about] using about]
  | _ => cases about

instance [DecidableEq A] (tr tr' : List (Event T L A)) : Decidable (SameOrder tr tr') :=
  decidable_of_iff ((∀ t ∈ (tr ++ tr').map Event.actor, tr.filter (Event.own t) = tr'.filter (Event.own t)) ∧
      ∀ m ∈ (tr ++ tr').filterMap Event.mutex, tr.filter (Event.about m) = tr'.filter (Event.about m)) <| by
    constructor
    · rintro ⟨threads,locks⟩
      refine ⟨fun t => filters_same ?_,fun m => filters_same ?_⟩
      · rintro ⟨e,member,own⟩
        exact threads t (List.mem_map.mpr ⟨e,member,by simpa [Event.own] using own⟩)
      · rintro ⟨e,member,about⟩
        exact locks m (List.mem_filterMap.mpr ⟨e,member,about_mutex about⟩)
    · exact fun same => ⟨fun t _ => same.threads t,fun m _ => same.locks m⟩

omit [DecidableEq L] in
theorem same_members (threads : ∀ t, tr.filter (Event.own t) = tr'.filter (Event.own t)) (e : Event T L A) : e ∈ tr ↔ e ∈ tr' := by
  have kept : ∀ l : List (Event T L A), e ∈ l ↔ e ∈ l.filter (Event.own e.actor) := by simp [Event.own]
  rw [kept tr,kept tr',threads]

theorem singles_same {ε : Type*} {l l' : List ε} (one : l.length ≤ 1) (one' : l'.length ≤ 1) (same : ∀ e, e ∈ l ↔ e ∈ l') : l = l' := by
  match l,l' with
  | [],[] => rfl
  | [],e :: _ => exact absurd ((same e).mpr List.mem_cons_self) List.not_mem_nil
  | e :: _,[] => exact absurd ((same e).mp List.mem_cons_self) List.not_mem_nil
  | [e],[d] => rw [List.mem_singleton.mp ((same e).mp List.mem_cons_self)]
  | _ :: _ :: _,_ => simp at one
  | _,_ :: _ :: _ => simp at one'

-- The order of the threads' own events and of the rounds of each mutex fixes the
-- order of everything that is not apart.
theorem sameOrder_equivalent (legal : Legal main tr) (legal' : Legal main tr') (same : SameOrder tr tr') :
    Equivalent order tr tr' := by
  refine equivalent_of_projections classes_cover fun c => ?_
  have members : ∀ p : Event T L A → Bool, ∀ e, e ∈ tr.filter p ↔ e ∈ tr'.filter p := by
    intro p e
    rw [List.mem_filter,List.mem_filter,same_members same.threads]
  cases c with
  | lock m => exact same.locks m
  | thread u =>
    have forks := singles_same (forks_once legal u) (forks_once legal' u) (members _)
    have joins := singles_same (joins_once legal u) (joins_once legal' u) (members _)
    show tr.filter (Event.involves u) = tr'.filter (Event.involves u)
    rw [involves_split legal,involves_split legal',forks,joins,same.threads]

omit [DecidableEq T] [DecidableEq L] in
theorem equivalent_races {a : A} (equal : Equivalent order tr tr') (races : ∃ i j, Races tr a i j) : ∃ i j, Races tr' a i j := by
  obtain ⟨π,renamed⟩ := equivalent_renaming equal
  obtain ⟨i,j,⟨e,d,at_i,at_j,conflict⟩,notBefore,notAfter⟩ := races
  refine ⟨π i,π j,⟨e,d,by rw [renamed.events,at_i],by rw [renamed.events,at_j],conflict⟩,?_,?_⟩
  · rwa [← renamed.before]
  · rwa [← renamed.before]

theorem sameOrder_races {a : A} (legal : Legal main tr) (legal' : Legal main tr') (same : SameOrder tr tr') :
    (∃ i j, Races tr a i j) ↔ ∃ i j, Races tr' a i j := by
  have equal := sameOrder_equivalent legal legal' same
  exact ⟨equivalent_races equal,equivalent_races (equivalent_symm equal)⟩

end Schedules
end ThreadEvents
