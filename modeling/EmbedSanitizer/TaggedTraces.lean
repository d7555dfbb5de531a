import EmbedSanitizer.ReadRemoval
import EmbedSanitizer.SameOrder

namespace ThreadEvents
open HappensBefore

section Merging
variable {ε τ : Type*} [DecidableEq τ] (owner : ε → τ)

def marksOf (t : τ) (z : List (ε × Bool)) : List (ε × Bool) := z.filter fun x => owner x.1 = t

variable {owner}

theorem marks_merge {tr : List ε} {marks : τ → List (ε × Bool)}
    (owns : ∀ t, tr.filter (fun e => decide (owner e = t)) = (marks t).map Prod.fst) :
    ∃ z : List (ε × Bool), z.map Prod.fst = tr ∧ ∀ t, marksOf owner t z = marks t := by
  induction tr generalizing marks with
  | nil => exact ⟨[],rfl,fun t => (List.map_eq_nil_iff.mp (owns t).symm).symm⟩
  | cons e rest ih =>
    have here := owns (owner e)
    rw [List.filter_cons_of_pos (by simp)] at here
    obtain ⟨x,later,split,rfl,same⟩ := List.map_eq_cons_iff.mp here.symm
    have others : ∀ t, rest.filter (fun d => decide (owner d = t)) = (Function.update marks (owner x.1) later t).map Prod.fst := by
      intro t
      by_cases own : t = owner x.1
      · rw [own,Function.update_self,same]
      · rw [Function.update_of_ne own,← owns t,List.filter_cons_of_neg (by simpa [eq_comm] using own)]
    obtain ⟨z,whole,each⟩ := ih others
    refine ⟨x :: z,by simp [whole],fun t => ?_⟩
    by_cases own : t = owner x.1
    · subst own
      rw [marksOf,List.filter_cons_of_pos (by simp),split]
      have tail := each (owner x.1)
      rw [Function.update_self] at tail
      exact congrArg _ tail
    · have tail := each t
      rw [Function.update_of_ne own] at tail
      rw [marksOf,List.filter_cons_of_neg (by simpa [eq_comm] using own)]
      exact tail

def unmarked (z : List (ε × Bool)) (n : ℕ) : Bool := (z[n]?.map fun x => !x.2).getD false

theorem without_unmarked (z : List (ε × Bool)) : without (unmarked z) (z.map Prod.fst) = (z.filter Prod.snd).map Prod.fst := by
  induction z with
  | nil => rfl
  | cons x rest ih =>
    have tail : (fun n => unmarked (x :: rest) (n+1)) = unmarked rest := rfl
    rw [List.map_cons,without,tail,ih]
    obtain ⟨e,kept⟩ := x
    cases kept <;> simp [unmarked]

theorem filter_split {p : ε → Bool} {xs mid rest : List ε} {x : ε} (same : xs.filter p = mid ++ x :: rest) :
    ∃ before later, xs = before ++ x :: later ∧ before.filter p = mid := by
  obtain ⟨front,back,rfl,left,right⟩ := List.filter_eq_append_iff.mp same
  obtain ⟨skipped,later,rfl,none,_,_⟩ := List.filter_eq_cons_iff.mp right
  refine ⟨front ++ skipped,later,by simp,?_⟩
  have gone : skipped.filter p = [] := List.filter_eq_nil_iff.mpr none
  rw [List.filter_append,left,gone,List.append_nil]

end Merging

section Excuses
variable {T L A : Type*}

-- After a read comes a write to the same address by the same thread, which does not
-- synchronize in between.
def Excuse (e : Event T L A) (rest : List (Event T L A × Bool)) : Prop :=
  ∃ t a kind mid b later, e = .access t .read a ∧ rest = mid ++ (.access t kind a,b) :: later ∧ kind.writes = true ∧
    ∀ x ∈ mid, x.1.Synchronizes = false

def Excused : List (Event T L A × Bool) → Prop
  | [] => True
  | x :: rest => (x.2 = false → Excuse x.1 rest) ∧ Excused rest

theorem excuse_append {e : Event T L A} {rest : List (Event T L A × Bool)} (excuse : Excuse e rest) (later : List (Event T L A × Bool)) :
    Excuse e (rest ++ later) := by
  obtain ⟨t,a,kind,mid,b,tail,rfl,rfl,writes,quiet⟩ := excuse
  exact ⟨t,a,kind,mid,b,tail ++ later,rfl,by simp,writes,quiet⟩

theorem excused_append {xs ys : List (Event T L A × Bool)} (left : Excused xs) (right : Excused ys) : Excused (xs ++ ys) := by
  induction xs with
  | nil => exact right
  | cons x xs ih => exact ⟨fun unmarked => excuse_append (left.1 unmarked) ys,ih left.2⟩

theorem excused_suffix {xs ys : List (Event T L A × Bool)} (excused : Excused (xs ++ ys)) : Excused ys := by
  induction xs with
  | nil => exact excused
  | cons x xs ih => exact ih excused.2

variable [DecidableEq T]

-- Excused in its own thread, an unmarked read is overwritten in the whole sequence.
theorem excused_removable {z : List (Event T L A × Bool)} (excused : ∀ t, Excused (marksOf Event.actor t z)) :
    Removable (z.map Prod.fst) (unmarked z) := by
  intro i bound drop
  obtain ⟨pre,x,post,rfl,rfl⟩ : ∃ pre x post, z = pre ++ x :: post ∧ pre.length = i := by
    rw [List.length_map] at bound
    exact ⟨z.take i,z[i],z.drop (i+1),by rw [← List.drop_eq_getElem_cons bound,List.take_append_drop],by simp; omega⟩
  have mark : x.2 = false := by simpa [unmarked] using drop
  have owned := excused x.1.actor
  rw [marksOf,List.filter_append,List.filter_cons_of_pos (by simp)] at owned
  obtain ⟨t,a,kind,mid,b,later,read,follows,writes,quiet⟩ := (excused_suffix owned).1 mark
  obtain ⟨between,after,rfl,own⟩ := filter_split follows
  have actor : x.1.actor = t := by rw [read]; rfl
  refine ⟨t,a,pre.length + 1 + between.length,kind,by simp [read],by omega,?_,writes,?_⟩
  · rw [show pre.length + 1 + between.length = pre.length + (between.length + 1) by omega]
    simp
  · intro n e above below found mine
    obtain ⟨k,rfl⟩ : ∃ k, n = pre.length + (k + 1) := ⟨n - pre.length - 1,by omega⟩
    have inside : k < between.length := by omega
    rw [List.map_append,List.getElem?_append_right (by simp)] at found
    simp only [List.length_map,Nat.add_sub_cancel_left,List.map_cons,List.getElem?_cons_succ,List.map_append] at found
    rw [List.getElem?_append_left (by simpa using inside),List.getElem?_map] at found
    obtain ⟨y,at_k,rfl⟩ := Option.map_eq_some_iff.mp found
    refine quiet y (own ▸ List.mem_filter.mpr ⟨List.mem_of_getElem? at_k,?_⟩)
    simp [mine,actor]

end Excuses

section Legality
variable {T L A : Type*} [DecidableEq T] [DecidableEq L]

theorem legal_without {w : World T L} {tr : List (Event T L A)} {dropped : ℕ → Bool} (only : AccessesOnly tr dropped)
    (legal : LegalFrom w tr) : LegalFrom w (without dropped tr) := by
  induction tr generalizing w dropped with
  | nil => trivial
  | cons e rest ih =>
    unfold without
    cases drop : dropped 0 with
    | true =>
      obtain ⟨t,kind,a,rfl⟩ := only 0 e rfl drop
      exact ih (accesses_tail only) legal.2
    | false => exact ⟨legal.1,ih (accesses_tail only) legal.2⟩

omit [DecidableEq T] in
theorem about_without {tr : List (Event T L A)} {dropped : ℕ → Bool} (only : AccessesOnly tr dropped) (m : L) :
    (without dropped tr).filter (Event.about m) = tr.filter (Event.about m) := by
  induction tr generalizing dropped with
  | nil => rfl
  | cons e rest ih =>
    unfold without
    cases drop : dropped 0 with
    | true =>
      obtain ⟨t,kind,a,rfl⟩ := only 0 e rfl drop
      exact ih (accesses_tail only)
    | false =>
      rw [if_neg Bool.false_ne_true,List.filter_cons,List.filter_cons,ih (accesses_tail only)]

omit [DecidableEq L] in
theorem own_kept (z : List (Event T L A × Bool)) (t : T) :
    ((z.filter Prod.snd).map Prod.fst).filter (Event.own t) = ((marksOf Event.actor t z).filter Prod.snd).map Prod.fst := by
  unfold marksOf
  rw [List.filter_map,List.filter_filter,List.filter_filter]
  refine congrArg _ (List.filter_congr fun x _ => ?_)
  simp [Event.own,Bool.and_comm]

end Legality
end ThreadEvents
