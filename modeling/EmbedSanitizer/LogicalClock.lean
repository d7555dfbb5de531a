import EmbedSanitizer.ThreadEvents
import Mathlib.Order.MinMax
import Mathlib.Data.List.Induction
import Mathlib.Tactic.SplitIfs

namespace LogicalClock
open HappensBefore ThreadEvents

-- Every thread and every mutex carries one count for each thread.
abbrev Clocks (T L : Type*) := Channel T L → T → ℕ

variable {T L A : Type*}

-- Nobody else has seen the count a thread is at now.
def Owned (s : Clocks T L) : Prop := ∀ c t, c ≠ .thread t → s c t < s (.thread t) t

theorem Owned.le {s : Clocks T L} (owned : Owned s) (c : Channel T L) (t : T) : s c t ≤ s (.thread t) t := by
  by_cases own : c = .thread t
  · exact own ▸ Nat.le_refl _
  · exact Nat.le_of_lt (owned c t own)

variable [DecidableEq T]

def OwnedBut (p : T) (s : Clocks T L) : Prop :=
  ∀ c t, c ≠ .thread t → s c t < s (.thread t) t + if t = p then 1 else 0

theorem Owned.drawn {s : Clocks T L} (owned : Owned s) (p t : T) :
    s (.thread p) t < s (.thread t) t + if t = p then 1 else 0 := by
  by_cases own : t = p
  · simp [own]
  · simpa [own] using owned (.thread p) t (by simpa [eq_comm] using own)

variable [DecidableEq L]

def start : Clocks T L := fun c t => if c = .thread t then 1 else 0

def put (s : Clocks T L) (c : Channel T L) (v : T → ℕ) : Clocks T L := Function.update s c v

def merge (s : Clocks T L) (c d : Channel T L) : Clocks T L := put s c (fun t => max (s c t) (s d t))

def tick (s : Clocks T L) (t : T) : Clocks T L :=
  put s (.thread t) (Function.update (s (.thread t)) t (s (.thread t) t + 1))

-- Every event that passes its count on ends it: the next one is a fresh count.
def step (s : Clocks T L) : Event T L A → Clocks T L
  | .fork t u => tick (merge s (.thread u) (.thread t)) t
  | .join t u => tick (merge s (.thread t) (.thread u)) u
  | .acquire t m => merge s (.thread t) (.lock m)
  | .release t m => tick (put s (.lock m) (s (.thread t))) t
  | .access .. | .skip _ => s

def after (tr : List (Event T L A)) : Clocks T L := tr.foldl step start

@[simp] theorem after_nil : after ([] : List (Event T L A)) = start := rfl
@[simp] theorem after_snoc (tr : List (Event T L A)) (e : Event T L A) :
    after (tr ++ [e]) = step (after tr) e := by simp [after]

@[simp] theorem put_apply (s : Clocks T L) (c d : Channel T L) (v : T → ℕ) :
    put s c v d = if d = c then v else s d := by simp [put,Function.update_apply]

@[simp] theorem merge_apply (s : Clocks T L) (c d e : Channel T L) (x : T) :
    merge s c d e x = if e = c then max (s c x) (s d x) else s e x := by
  unfold merge
  rw [put_apply]
  split <;> rfl

@[simp] theorem tick_apply (s : Clocks T L) (t x : T) (c : Channel T L) :
    tick s t c x = if c = .thread t ∧ x = t then s c x + 1 else s c x := by
  unfold tick
  rw [put_apply]
  by_cases at_thread : c = .thread t
  · subst at_thread; by_cases own : x = t <;> simp [own]
  · simp [at_thread]

theorem fork_eq_put (s : Clocks T L) (apart : t ≠ u) : step s (.fork t u : Event T L A) =
    put (put s (.thread t) (Function.update (s (.thread t)) t (s (.thread t) t + 1))) (.thread u)
      (fun x => max (s (.thread u) x) (s (.thread t) x)) := by
  funext c x
  simp only [step,tick_apply,merge_apply,put_apply]
  by_cases atU : c = .thread u
  · subst atU; simp [Ne.symm apart]
  · by_cases atT : c = .thread t
    · subst atT; by_cases own : x = t <;> simp [own,apart]
    · simp [atU,atT]

theorem join_eq_put (s : Clocks T L) (apart : t ≠ u) : step s (.join t u : Event T L A) =
    put (put s (.thread t) (fun x => max (s (.thread t) x) (s (.thread u) x))) (.thread u)
      (Function.update (s (.thread u)) u (s (.thread u) u + 1)) := by
  funext c x
  simp only [step,tick_apply,merge_apply,put_apply]
  by_cases atU : c = .thread u
  · subst atU; by_cases own : x = u <;> simp [own,Ne.symm apart]
  · by_cases atT : c = .thread t
    · subst atT; simp [apart]
    · simp [atU,atT]

theorem fork_self (s : Clocks T L) (t : T) : step s (.fork t t : Event T L A) =
    put s (.thread t) (Function.update (s (.thread t)) t (s (.thread t) t + 1)) := by
  funext c x
  simp only [step,tick_apply,merge_apply,put_apply]
  by_cases atT : c = .thread t
  · subst atT; by_cases own : x = t <;> simp [own]
  · simp [atT]

theorem join_self (s : Clocks T L) (t : T) : step s (.join t t : Event T L A) = step s (.fork t t : Event T L A) := rfl

theorem release_eq_put (s : Clocks T L) (t : T) (m : L) : step s (.release t m : Event T L A) =
    put (put s (.thread t) (Function.update (s (.thread t)) t (s (.thread t) t + 1))) (.lock m) (s (.thread t)) := by
  funext c x
  simp only [step,tick_apply,put_apply]
  by_cases atM : c = .lock m
  · subst atM; simp
  · by_cases atT : c = .thread t
    · subst atT; by_cases own : x = t <;> simp [own]
    · simp [atM,atT]

theorem acquire_eq_put (s : Clocks T L) (t : T) (m : L) : step s (.acquire t m : Event T L A) =
    put (put s (.thread t) (fun x => max (s (.thread t) x) (s (.lock m) x))) (.lock m) (s (.lock m)) := by
  funext c x
  simp only [step,merge_apply,put_apply]
  by_cases atM : c = .lock m
  · subst atM; simp
  · by_cases atT : c = .thread t <;> simp [atM,atT]

theorem owned_start : Owned (start : Clocks T L) := by
  intro c t other; simp [start,other]

theorem owned_tick {s : Clocks T L} (owned : OwnedBut p s) : Owned (tick s p) := by
  intro c t other
  have bound := owned c t other
  simp only [tick_apply]
  by_cases own : t = p
  · subst own; simp [other] at bound ⊢; omega
  · simpa [own] using bound

theorem owned_merge_lock {s : Clocks T L} (owned : Owned s) (c : Channel T L) (m : L) :
    Owned (merge s c (.lock m)) := by
  intro d t other
  have drawn := owned (.lock m) t (by simp)
  have kept := owned d t other
  simp only [merge_apply]
  split_ifs with atD atT atT
  · exact absurd (atD.trans atT.symm) other
  · subst atD; exact Nat.max_lt.mpr ⟨kept,drawn⟩
  · subst atT; exact Nat.lt_of_lt_of_le kept (Nat.le_max_left _ _)
  · exact kept

theorem owned_merge_thread {s : Clocks T L} (owned : Owned s) (c : Channel T L) (p : T) :
    OwnedBut p (merge s c (.thread p)) := by
  intro d t other
  have kept := owned d t other
  have drawn := owned.drawn p t
  generalize (if t = p then 1 else 0) = slack at drawn ⊢
  simp only [merge_apply]
  split_ifs with atD atT atT
  · exact absurd (atD.trans atT.symm) other
  · subst atD; omega
  · subst atT; omega
  · omega

theorem owned_put_lock {s : Clocks T L} (owned : Owned s) (m : L) (p : T) :
    OwnedBut p (put s (.lock m) (s (.thread p))) := by
  intro d t other
  have kept := owned d t other
  have drawn := owned.drawn p t
  generalize (if t = p then 1 else 0) = slack at drawn ⊢
  simp only [put_apply,reduceCtorEq,if_false]
  split_ifs with atD
  · exact drawn
  · exact Nat.lt_of_lt_of_le kept (Nat.le_add_right _ _)

theorem owned_step {s : Clocks T L} (owned : Owned s) (e : Event T L A) : Owned (step s e) := by
  cases e with
  | fork t u => exact owned_tick (owned_merge_thread owned _ _)
  | join t u => exact owned_tick (owned_merge_thread owned _ _)
  | acquire t m => exact owned_merge_lock owned _ _
  | release t m => exact owned_tick (owned_put_lock owned _ _)
  | access t kind a => exact owned
  | skip t => exact owned

theorem owned_after (tr : List (Event T L A)) : Owned (after tr) := by
  induction tr using List.reverseRecOn with
  | nil => exact owned_start
  | append_singleton tr e ih => rw [after_snoc]; exact owned_step ih e

theorem thread_step_le (s : Clocks T L) (e : Event T L A) (t x : T) :
    s (.thread t) x ≤ step s e (.thread t) x := by
  cases e <;> simp [step] <;> split_ifs <;> simp_all

-- What one event does to a count that its own thread has reached: the threads it
-- feeds now hold the count if a channel it draws on did, all others stay.
theorem step_reaches_thread {s : Clocks T L} {e : Event T L A} (reached : n ≤ s (.thread a) a) :
    n ≤ step s e (.thread p) a ↔ n ≤ s (.thread p) a ∨ (e.Feeds (.thread p) ∧ ∃ d, e.Draws d ∧ n ≤ s d a) := by
  cases e with
  | fork t u =>
    simp only [step,tick_apply,merge_apply,Event.Feeds,Event.Draws,exists_eq_left]
    split_ifs with ticked atU atU <;> grind
  | join t u =>
    simp only [step,tick_apply,merge_apply,Event.Feeds,Event.Draws]
    split_ifs with ticked atT atT <;> grind
  | acquire t m =>
    simp only [step,merge_apply,Event.Feeds,Event.Draws]
    split_ifs with atT <;> grind
  | release t m =>
    simp only [step,tick_apply,put_apply,Event.Feeds,Event.Draws,exists_eq_left]
    split_ifs with ticked <;> grind
  | access t kind x => simp only [step,Event.Feeds,Event.Draws,exists_eq_left]; grind
  | skip t => simp only [step,Event.Feeds,Event.Draws,exists_eq_left]; grind

theorem step_reaches {s : Clocks T L} {e : Event T L A} (reached : n ≤ s (.thread a) a)
    (held : ∀ t m, e = .release t m → n ≤ s (.lock m) a → n ≤ s (.thread t) a) :
    n ≤ step s e c a ↔ n ≤ s c a ∨ (e.Feeds c ∧ ∃ d, e.Draws d ∧ n ≤ s d a) := by
  cases c with
  | thread p => exact step_reaches_thread reached
  | lock k =>
    cases e with
    | release t m =>
      have held := held t m rfl
      simp only [step,tick_apply,put_apply,Event.Feeds,Event.Draws,exists_eq_left]
      split_ifs with atM <;> grind
    | _ => simp [step,Event.Feeds]

theorem step_fresh {s : Clocks T L} (owned : Owned s) (e : Event T L A) :
    s (.thread e.actor) e.actor ≤ step s e c e.actor ↔ e.Feeds c := by
  have others : c ≠ .thread e.actor → s c e.actor < s (.thread e.actor) e.actor := owned c e.actor
  cases e with
  | fork t u =>
    simp only [step,tick_apply,merge_apply,Event.Feeds,Event.actor] at others ⊢
    split_ifs with ticked atU atU <;> grind
  | join t u =>
    have drawn := owned.le (.thread u) t
    simp only [step,tick_apply,merge_apply,Event.Feeds,Event.actor] at others ⊢
    split_ifs with ticked atT atT <;> grind
  | acquire t m =>
    simp only [step,merge_apply,Event.Feeds,Event.actor] at others ⊢
    split_ifs with atT <;> grind
  | release t m =>
    simp only [step,tick_apply,put_apply,Event.Feeds,Event.actor] at others ⊢
    split_ifs with ticked atM atM <;> grind
  | access t kind x => simp only [step,Event.Feeds,Event.actor] at others ⊢; grind
  | skip t => simp only [step,Event.Feeds,Event.actor] at others ⊢; grind

-- Whoever has seen a count of a thread has seen what that thread knew at it.
def Closed (v : T → ℕ) (a : T) (s : Clocks T L) : Prop := ∀ c, v a ≤ s c a → ∀ x, v x ≤ s c x

theorem closed_merge {s : Clocks T L} (closed : Closed v a s) (c d : Channel T L) : Closed v a (merge s c d) := by
  intro e known x
  rw [merge_apply] at known ⊢
  split_ifs at known ⊢ with atC
  · rcases le_max_iff.mp known with left | right
    · exact Nat.le_trans (closed c left x) (Nat.le_max_left _ _)
    · exact Nat.le_trans (closed d right x) (Nat.le_max_right _ _)
  · exact closed e known x

theorem closed_copy {s : Clocks T L} (closed : Closed v a s) (c d : Channel T L) : Closed v a (put s c (s d)) := by
  intro e known x
  rw [put_apply] at known ⊢
  split_ifs at known ⊢ with atC
  · exact closed d known x
  · exact closed e known x

theorem closed_tick {s : Clocks T L} (closed : Closed v a s) (reached : v a ≤ s (.thread a) a) (t : T) :
    Closed v a (tick s t) := by
  intro c known x
  have before : v a ≤ s c a := by
    rw [tick_apply] at known
    split_ifs at known with ticked
    · obtain ⟨rfl,rfl⟩ := ticked; exact reached
    · exact known
  refine Nat.le_trans (closed c before x) ?_
  rw [tick_apply]
  split_ifs <;> omega

theorem closed_step {s : Clocks T L} (closed : Closed v a s) (reached : v a ≤ s (.thread a) a) (e : Event T L A) :
    Closed v a (step s e) := by
  cases e with
  | fork t u =>
    refine closed_tick (closed_merge closed _ _) ?_ t
    rw [merge_apply]; split_ifs with own
    · exact own ▸ Nat.le_trans reached (Nat.le_max_left _ _)
    · exact reached
  | join t u =>
    refine closed_tick (closed_merge closed _ _) ?_ u
    rw [merge_apply]; split_ifs with own
    · exact own ▸ Nat.le_trans reached (Nat.le_max_left _ _)
    · exact reached
  | acquire t m => exact closed_merge closed _ _
  | release t m => exact closed_tick (closed_copy closed _ _) (by simpa using reached) t
  | access t kind x => exact closed
  | skip t => exact closed

omit [DecidableEq T] in
theorem held_reaches {tr : List (Event T L A)} (holds : holders tr m = some t)
    (reach : Reaches order tr i (.lock m)) : Reaches order tr i (.thread t) := by
  induction tr using List.reverseRecOn with
  | nil => cases holds
  | append_singleton tr e ih =>
    rcases holder_cases holds with rfl | ⟨holds,_,releases⟩
    · have past := (reaches_unfed (by simp [Event.Feeds])).mp reach
      exact (reaches_snoc (reaches_bound past)).mpr (.inr ⟨rfl,.lock m,.inr rfl,past⟩)
    · have unfed : ¬ order.feeds e (.lock m) := by
        cases e with
        | release u k =>
          rintro (equal | equal)
          · cases equal
          · cases equal; exact releases u rfl
        | _ => simp [Event.Feeds]
      exact reaches_append [e] (ih holds ((reaches_unfed unfed).mp reach))

theorem held_le {tr : List (Event T L A)} (holds : holders tr m = some t) (x : T) :
    after tr (.lock m) x ≤ after tr (.thread t) x := by
  induction tr using List.reverseRecOn with
  | nil => cases holds
  | append_singleton tr e ih =>
    rw [after_snoc]
    rcases holder_cases holds with rfl | ⟨holds,_,releases⟩
    · simp [step]
    · have kept : step (after tr) e (.lock m) x = after tr (.lock m) x := by
        cases e with
        | release u k =>
          have other : m ≠ k := fun same => releases u (by rw [same])
          simp [step,other]
        | _ => simp [step]
      rw [kept]
      exact Nat.le_trans (ih holds) (thread_step_le _ e t x)

def countAt (tr : List (Event T L A)) (i : ℕ) (e : Event T L A) : ℕ := after (tr.take i) (.thread e.actor) e.actor

theorem thread_after_le (tr rest : List (Event T L A)) (t x : T) :
    after tr (.thread t) x ≤ after (tr ++ rest) (.thread t) x := by
  induction rest using List.reverseRecOn with
  | nil => simp
  | append_singleton rest e ih =>
    rw [← List.append_assoc,after_snoc]
    exact Nat.le_trans ih (thread_step_le _ e t x)

theorem countAt_le (tr : List (Event T L A)) (i : ℕ) (e : Event T L A) :
    countAt tr i e ≤ after tr (.thread e.actor) e.actor := by
  have grown := thread_after_le (tr.take i) (tr.drop i) e.actor e.actor
  rwa [List.take_append_drop] at grown

def clockAt (tr : List (Event T L A)) (i : ℕ) (e : Event T L A) : T → ℕ := after (tr.take i) (.thread e.actor)

-- Happens-before into a channel is exactly a comparison of counts there.
theorem reaches_iff_count {tr : List (Event T L A)} (disciplined : Disciplined tr) (found : tr[i]? = some e) :
    Reaches order tr i c ↔ countAt tr i e ≤ after tr c e.actor := by
  induction tr using List.reverseRecOn generalizing c with
  | nil => cases found
  | append_singleton tr last ih =>
    have earlier := (disciplined_snoc.mp disciplined).1
    rw [after_snoc]
    rcases getElem?_snoc.mp found with ⟨old,found⟩ | ⟨rfl,rfl⟩
    · have same : countAt (tr ++ [last]) i e = countAt tr i e := by
        unfold countAt; rw [List.take_append_of_le_length (Nat.le_of_lt old)]
      have past : ∀ {d}, Reaches order tr i d ↔ countAt tr i e ≤ after tr d e.actor := ih earlier found
      have held : ∀ t m, last = .release t m → countAt tr i e ≤ after tr (.lock m) e.actor →
          countAt tr i e ≤ after tr (.thread t) e.actor := by
        rintro t m rfl reached
        have holds : holders tr m = some t := (disciplined_snoc.mp disciplined).2
        exact past.mp (held_reaches holds (past.mpr reached))
      rw [same,step_reaches (countAt_le tr i e) held,reaches_snoc old]
      simp only [past,order_feeds,order_draws]
    · rw [reaches_new]
      simpa [countAt] using (step_fresh (owned_after tr) last).symm

theorem before_iff_count {tr : List (Event T L A)} (disciplined : Disciplined tr) (earlier : i < j) (found : tr[i]? = some e)
    (access : tr[j]? = some (.access t k a)) :
    Before order tr i j ↔ countAt tr i e ≤ clockAt tr j (.access t k a) e.actor := by
  have inner : (tr.take j)[i]? = some e := by rw [List.getElem?_take_of_lt earlier]; exact found
  rw [before_access access,reaches_iff_count (disciplined_take disciplined j) inner]
  unfold countAt clockAt
  rw [List.take_take,Nat.min_eq_left (Nat.le_of_lt earlier)]
  rfl

theorem unordered_of_count {tr : List (Event T L A)} (disciplined : Disciplined tr) (earlier : i < j)
    (found : tr[i]? = some e) (access : tr[j]? = some (.access t k a))
    (late : clockAt tr j (.access t k a) e.actor < countAt tr i e) : ¬ Before order tr i j :=
  fun before => Nat.not_le_of_lt late ((before_iff_count disciplined earlier found access).mp before)

end LogicalClock
