import EmbedSanitizer.HappensBefore
import Mathlib.Logic.Function.Basic
import Mathlib.Data.List.Induction

namespace ThreadEvents
open HappensBefore

-- An update is checked as a write, but what it touches is first set up as for a read.
inductive Access where
  | read | write | update
  deriving DecidableEq, Repr

def Access.writes : Access → Bool
  | .read => false
  | .write | .update => true

def Access.opensWriting : Access → Bool
  | .write => true
  | .read | .update => false

-- Threads T synchronize over mutexes L and touch addresses A. A skip is a step
-- of its thread that neither synchronizes nor touches anything.
inductive Event (T L A : Type*) where
  | fork (t u : T)
  | join (t u : T)
  | acquire (t : T) (m : L)
  | release (t : T) (m : L)
  | access (t : T) (kind : Access) (a : A)
  | skip (t : T)
  deriving DecidableEq, Repr

inductive Channel (T L : Type*) where
  | thread (t : T)
  | lock (m : L)
  deriving DecidableEq, Repr

section Causality
variable {T L A : Type*}

def Event.actor : Event T L A → T
  | .fork t _ | .join t _ | .acquire t _ | .release t _ | .access t _ _ | .skip t => t

def Event.Feeds : Event T L A → Channel T L → Prop
  | .fork t u,c => c = .thread t ∨ c = .thread u
  | .release t m,c => c = .thread t ∨ c = .lock m
  | .join t _,c | .acquire t _,c | .access t _ _,c | .skip t,c => c = .thread t

def Event.Draws : Event T L A → Channel T L → Prop
  | .join t u,c => c = .thread t ∨ c = .thread u
  | .acquire t m,c => c = .thread t ∨ c = .lock m
  | .fork t _,c | .release t _,c | .access t _ _,c | .skip t,c => c = .thread t

-- Program order, a release before the later acquires of its mutex, a fork before
-- all that the child does, and all that the child did before its join. A fork
-- also precedes the join of the same child when the child did nothing between.
def order : Flow (Event T L A) (Channel T L) := ⟨Event.Feeds,Event.Draws⟩

@[simp] theorem order_feeds (e : Event T L A) (c : Channel T L) : order.feeds e c = e.Feeds c := rfl
@[simp] theorem order_draws (e : Event T L A) (c : Channel T L) : order.draws e c = e.Draws c := rfl

theorem feeds_actor (e : Event T L A) : e.Feeds (.thread e.actor) := by
  cases e <;> simp [Event.Feeds,Event.actor]
theorem draws_actor (e : Event T L A) : e.Draws (.thread e.actor) := by
  cases e <;> simp [Event.Draws,Event.actor]

def Event.Synchronizes : Event T L A → Bool
  | .fork .. | .join .. | .acquire .. | .release .. => true
  | .access .. | .skip .. => false

def Event.Touches (e : Event T L A) (a : A) : Prop := ∃ t kind, e = .access t kind a

def Conflict (a : A) (e e' : Event T L A) : Prop :=
  ∃ t u k l, e = .access t k a ∧ e' = .access u l a ∧ t ≠ u ∧ (k.writes = true ∨ l.writes = true)

-- Two accesses to one address by different threads, at least one of them a write,
-- that no chain of synchronization orders.
def Races (tr : List (Event T L A)) (a : A) (i j : ℕ) : Prop :=
  (∃ e e', tr[i]? = some e ∧ tr[j]? = some e' ∧ Conflict a e e') ∧
    ¬ Before order tr i j ∧ ¬ Before order tr j i

theorem Conflict.symm {e e' : Event T L A} (conflict : Conflict a e e') : Conflict a e' e := by
  obtain ⟨t,u,k,l,left,right,different,writes⟩ := conflict
  exact ⟨u,t,l,k,right,left,different.symm,writes.symm⟩

theorem Races.symm {tr : List (Event T L A)} (races : Races tr a i j) : Races tr a j i := by
  obtain ⟨⟨e,e',atI,atJ,conflict⟩,notBefore,notAfter⟩ := races
  exact ⟨⟨e',e,atJ,atI,conflict.symm⟩,notAfter,notBefore⟩

theorem Races.ne {tr : List (Event T L A)} (races : Races tr a i j) : i ≠ j := by
  obtain ⟨⟨e,e',atI,atJ,t,u,k,l,left,right,different,_⟩,_⟩ := races
  rintro rfl
  rw [atI,left,Option.some.injEq] at atJ
  rw [right] at atJ
  exact different (Event.access.inj atJ).1

theorem before_access {tr : List (Event T L A)} (found : tr[j]? = some (.access t k a)) :
    Before order tr i j ↔ Reaches order (tr.take j) i (.thread t) := by
  rw [before_reaches found]
  simp [Event.Draws]

theorem reaches_thread {tr : List (Event T L A)} {t : T} :
    Reaches order tr i (.thread t) ↔ Before order (tr ++ [.skip t]) i tr.length := by
  rw [before_last]
  simp [Event.Draws]

end Causality

section Discipline
variable {T L A : Type*} [DecidableEq L]

def Guarded (holder : L → Option T) : Event T L A → Prop
  | .acquire _ m => holder m = none
  | .release t m => holder m = some t
  | _ => True

def holderAfter (holder : L → Option T) : Event T L A → L → Option T
  | .acquire t m => Function.update holder m (some t)
  | .release _ m => Function.update holder m none
  | _ => holder

def DisciplinedFrom (holder : L → Option T) : List (Event T L A) → Prop
  | [] => True
  | e :: rest => Guarded holder e ∧ DisciplinedFrom (holderAfter holder e) rest

def Disciplined (tr : List (Event T L A)) : Prop := DisciplinedFrom (fun _ => none) tr

def holders (tr : List (Event T L A)) : L → Option T := tr.foldl holderAfter (fun _ => none)

theorem disciplinedFrom_snoc {holder : L → Option T} {tr : List (Event T L A)} :
    DisciplinedFrom holder (tr ++ [e]) ↔ DisciplinedFrom holder tr ∧ Guarded (tr.foldl holderAfter holder) e := by
  induction tr generalizing holder with
  | nil => simp [DisciplinedFrom]
  | cons first rest ih => simp [DisciplinedFrom,ih,and_assoc]

theorem disciplined_snoc {tr : List (Event T L A)} :
    Disciplined (tr ++ [e]) ↔ Disciplined tr ∧ Guarded (holders tr) e := disciplinedFrom_snoc

theorem disciplinedFrom_append {holder : L → Option T} {tr rest : List (Event T L A)}
    (disciplined : DisciplinedFrom holder (tr ++ rest)) : DisciplinedFrom holder tr := by
  induction tr generalizing holder with
  | nil => trivial
  | cons e tr ih => exact ⟨disciplined.1,ih disciplined.2⟩

theorem disciplined_take {tr : List (Event T L A)} (disciplined : Disciplined tr) (n : ℕ) :
    Disciplined (tr.take n) := by
  rw [← List.take_append_drop n tr] at disciplined
  exact disciplinedFrom_append disciplined

@[simp] theorem holders_snoc (tr : List (Event T L A)) (e : Event T L A) :
    holders (tr ++ [e]) = holderAfter (holders tr) e := by simp [holders]

theorem holder_cases {tr : List (Event T L A)} (holds : holders (tr ++ [e]) m = some t) :
    e = .acquire t m ∨ (holders tr m = some t ∧ (∀ u, e ≠ .acquire u m) ∧ ∀ u, e ≠ .release u m) := by
  rw [holders_snoc] at holds
  cases e with
  | acquire u k =>
    by_cases same : m = k
    · subst same
      have equal : u = t := by simpa [holderAfter] using holds
      exact .inl (by rw [equal])
    · exact .inr ⟨by simpa [holderAfter,same] using holds,by simp [Ne.symm same],by simp⟩
  | release u k =>
    by_cases same : m = k
    · subst same; simp [holderAfter] at holds
    · exact .inr ⟨by simpa [holderAfter,same] using holds,by simp,by simp [Ne.symm same]⟩
  | _ => exact .inr ⟨holds,by simp,by simp⟩

theorem holder_since {tr : List (Event T L A)} (holds : holders tr m = some t) : ∃ i : ℕ, tr[i]? = some (.acquire t m) ∧
    ∀ (j : ℕ) (e : Event T L A), i < j → tr[j]? = some e → (∀ u, e ≠ .acquire u m) ∧ ∀ u, e ≠ .release u m := by
  induction tr using List.reverseRecOn with
  | nil => cases holds
  | append_singleton tr last ih =>
    rcases holder_cases holds with rfl | ⟨holds,others⟩
    · refine ⟨tr.length,by simp,fun j e later found => ?_⟩
      have bound := (List.getElem?_eq_some_iff.mp found).1
      simp only [List.length_append,List.length_singleton] at bound
      omega
    · obtain ⟨i,acquired,quiet⟩ := ih holds
      have bound := (List.getElem?_eq_some_iff.mp acquired).1
      refine ⟨i,by rw [List.getElem?_append_left bound]; exact acquired,fun j e later found => ?_⟩
      rcases getElem?_snoc.mp found with ⟨_,found⟩ | ⟨_,rfl⟩
      · exact quiet j e later found
      · exact others

end Discipline

section Schedules
variable {T L A : Type*}

inductive Status where
  | unborn | running | joined
  deriving DecidableEq, Repr

structure World (T L : Type*) where
  status : T → Status
  holder : L → Option T

def World.Allows (w : World T L) : Event T L A → Prop
  | .fork t u => w.status t = .running ∧ w.status u = .unborn
  | .join t u => w.status t = .running ∧ w.status u = .running ∧ t ≠ u
  | .acquire t m => w.status t = .running ∧ w.holder m = none
  | .release t m => w.status t = .running ∧ w.holder m = some t
  | .access t _ _ | .skip t => w.status t = .running

theorem allows_guarded {w : World T L} {e : Event T L A} (allowed : w.Allows e) : Guarded w.holder e := by
  cases e with
  | acquire t m => exact allowed.2
  | release t m => exact allowed.2
  | _ => trivial

variable [DecidableEq T] [DecidableEq L]

def World.start (main : T) : World T L := ⟨fun t => if t = main then .running else .unborn,fun _ => none⟩

def World.after (w : World T L) : Event T L A → World T L
  | .fork _ u => {w with status := Function.update w.status u .running}
  | .join _ u => {w with status := Function.update w.status u .joined}
  | e => {w with holder := holderAfter w.holder e}

-- A sequence pthreads allows: every thread but the initial one is forked once
-- before its first event and joined at most once, after its last one.
def LegalFrom (w : World T L) : List (Event T L A) → Prop
  | [] => True
  | e :: rest => w.Allows e ∧ LegalFrom (w.after e) rest

def Legal (main : T) (tr : List (Event T L A)) : Prop := LegalFrom (World.start main) tr

instance World.decidableAllows (w : World T L) : (e : Event T L A) → Decidable (w.Allows e)
  | .fork .. | .join .. => inferInstanceAs (Decidable (_ ∧ _))
  | .acquire .. | .release .. => inferInstanceAs (Decidable (_ ∧ _))
  | .access .. | .skip _ => inferInstanceAs (Decidable (_ = _))

instance decidableLegalFrom (w : World T L) : (tr : List (Event T L A)) → Decidable (LegalFrom w tr)
  | [] => isTrue trivial
  | e :: rest => @instDecidableAnd _ _ (w.decidableAllows e) (decidableLegalFrom (w.after e) rest)

instance decidableLegal (main : T) (tr : List (Event T L A)) : Decidable (Legal main tr) :=
  decidableLegalFrom _ tr

theorem after_holder (w : World T L) (e : Event T L A) : (w.after e).holder = holderAfter w.holder e := by
  cases e <;> rfl

theorem legalFrom_disciplined {w : World T L} {tr : List (Event T L A)} (legal : LegalFrom w tr) :
    DisciplinedFrom w.holder tr := by
  induction tr generalizing w with
  | nil => trivial
  | cons e rest ih => exact ⟨allows_guarded legal.1,after_holder w e ▸ ih legal.2⟩

theorem legal_disciplined {tr : List (Event T L A)} (legal : Legal main tr) : Disciplined tr :=
  legalFrom_disciplined legal

theorem legalFrom_append {w : World T L} {tr rest : List (Event T L A)} :
    LegalFrom w (tr ++ rest) ↔ LegalFrom w tr ∧ LegalFrom (tr.foldl World.after w) rest := by
  induction tr generalizing w with
  | nil => simp [LegalFrom]
  | cons e tr ih => simp [LegalFrom,ih,and_assoc]

end Schedules
end ThreadEvents
