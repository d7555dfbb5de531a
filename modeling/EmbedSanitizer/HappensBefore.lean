import Mathlib.Logic.Relation
import Mathlib.Data.List.Forall2
import Mathlib.Tactic.Common

namespace HappensBefore

theorem getElem?_snoc {ε : Type*} {tr : List ε} {e d : ε} :
    (tr ++ [e])[i]? = some d ↔ (i < tr.length ∧ tr[i]? = some d) ∨ (i = tr.length ∧ e = d) := by
  rcases Nat.lt_trichotomy i tr.length with old | rfl | beyond
  · simp [List.getElem?_append_left old,old,Nat.ne_of_lt old]
  · simp
  · have none : (tr ++ [e])[i]? = none := by simp; omega
    simp [none,Nat.not_lt_of_lt beyond,Nat.ne_of_gt beyond]

theorem take_at {ε : Type*} {tr : List ε} {k : ℕ} {e : ε} (found : tr[k]? = some e) : tr.take (k+1) = tr.take k ++ [e] := by
  rw [List.take_add_one,found]; rfl

theorem take_split {ε : Type*} (tr : List ε) {i k : ℕ} (within : i ≤ k) : tr.take k = tr.take i ++ (tr.take k).drop i := by
  have cut := List.take_append_drop i (tr.take k)
  rw [List.take_take,Nat.min_eq_left within] at cut
  exact cut.symm

-- What an event of a trace passes on: it feeds some channels and draws on some.
-- An event is linked to every later event that draws on a channel it feeds.
structure Flow (ε κ : Type*) where
  feeds : ε → κ → Prop
  draws : ε → κ → Prop

section Order
variable {ε κ : Type*} (flow : Flow ε κ)

def Linked (tr : List ε) (i j : ℕ) : Prop :=
  i < j ∧ ∃ e e' c, tr[i]? = some e ∧ tr[j]? = some e' ∧ flow.feeds e c ∧ flow.draws e' c

def Before (tr : List ε) : ℕ → ℕ → Prop := Relation.TransGen (Linked flow tr)

def Reaches (tr : List ε) (i : ℕ) (c : κ) : Prop :=
  ∃ j e, tr[j]? = some e ∧ flow.feeds e c ∧ (i = j ∨ Before flow tr i j)

variable {flow} {tr : List ε}

theorem before_lt (before : Before flow tr i j) : i < j := by
  induction before with
  | single link => exact link.1
  | tail _ link ih => exact Nat.lt_trans ih link.1

theorem linked_bound (link : Linked flow tr i j) : j < tr.length := by
  obtain ⟨_,_,_,_,_,found,_⟩ := link
  exact (List.getElem?_eq_some_iff.mp found).1

theorem before_bound (before : Before flow tr i j) : j < tr.length := by
  cases before with
  | single link => exact linked_bound link
  | tail _ link => exact linked_bound link

theorem linked_append (rest : List ε) (bound : j < tr.length) :
    Linked flow (tr ++ rest) i j ↔ Linked flow tr i j := by
  unfold Linked
  refine and_congr_right fun order => ?_
  rw [List.getElem?_append_left bound,List.getElem?_append_left (Nat.lt_trans order bound)]

theorem before_append (rest : List ε) (bound : j < tr.length) :
    Before flow (tr ++ rest) i j ↔ Before flow tr i j := by
  constructor
  · intro before
    induction before with
    | single link => exact .single ((linked_append rest bound).mp link)
    | tail _ link ih =>
      have link := (linked_append rest bound).mp link
      exact .tail (ih (Nat.lt_trans link.1 bound)) link
  · intro before
    induction before with
    | single link => exact .single ((linked_append rest bound).mpr link)
    | tail path link ih => exact .tail (ih (before_bound path)) ((linked_append rest bound).mpr link)

theorem reaches_bound (reach : Reaches flow tr i c) : i < tr.length := by
  obtain ⟨j,e,found,_,equal | before⟩ := reach
  · subst equal; exact (List.getElem?_eq_some_iff.mp found).1
  · exact Nat.lt_trans (before_lt before) (before_bound before)

theorem reaches_self (found : tr[i]? = some e) (feeds : flow.feeds e c) : Reaches flow tr i c :=
  ⟨i,e,found,feeds,.inl rfl⟩

theorem reaches_append (rest : List ε) (reach : Reaches flow tr i c) : Reaches flow (tr ++ rest) i c := by
  obtain ⟨j,e,found,feeds,path⟩ := reach
  have bound := (List.getElem?_eq_some_iff.mp found).1
  refine ⟨j,e,by rw [List.getElem?_append_left bound]; exact found,feeds,?_⟩
  exact path.imp_right (before_append rest bound).mpr

theorem before_last : Before flow (tr ++ [e]) i tr.length ↔ ∃ c, flow.draws e c ∧ Reaches flow tr i c := by
  have lastAt : (tr ++ [e])[tr.length]? = some e := by simp
  constructor
  · intro before
    obtain ⟨j,path,order,d,d',c,atJ,atLast,feeds,draws⟩ := Relation.TransGen.tail'_iff.mp before
    rw [lastAt] at atLast
    cases atLast
    rw [List.getElem?_append_left order] at atJ
    refine ⟨c,draws,j,d,atJ,feeds,?_⟩
    rcases Relation.reflTransGen_iff_eq_or_transGen.mp path with equal | path
    · exact .inl equal.symm
    · exact .inr ((before_append [e] order).mp path)
  · rintro ⟨c,draws,j,d,atJ,feeds,path⟩
    have bound := (List.getElem?_eq_some_iff.mp atJ).1
    have link : Linked flow (tr ++ [e]) j tr.length :=
      ⟨bound,d,e,c,by rw [List.getElem?_append_left bound]; exact atJ,lastAt,feeds,draws⟩
    rcases path with rfl | path
    · exact .single link
    · exact .tail ((before_append [e] bound).mpr path) link

theorem reaches_snoc (old : i < tr.length) : Reaches flow (tr ++ [e]) i c ↔
    Reaches flow tr i c ∨ (flow.feeds e c ∧ ∃ d, flow.draws e d ∧ Reaches flow tr i d) := by
  constructor
  · rintro ⟨j,d,atJ,feeds,path⟩
    rcases getElem?_snoc.mp atJ with ⟨bound,atJ⟩ | ⟨rfl,rfl⟩
    · exact .inl ⟨j,d,atJ,feeds,path.imp_right (before_append [e] bound).mp⟩
    · rcases path with equal | path
      · omega
      · exact .inr ⟨feeds,before_last.mp path⟩
  · rintro (reach | ⟨feeds,past⟩)
    · exact reaches_append [e] reach
    · exact ⟨tr.length,e,by simp,feeds,.inr (before_last.mpr past)⟩

theorem reaches_new : Reaches flow (tr ++ [e]) tr.length c ↔ flow.feeds e c := by
  constructor
  · rintro ⟨j,d,atJ,feeds,path⟩
    rcases getElem?_snoc.mp atJ with ⟨bound,_⟩ | ⟨_,rfl⟩
    · rcases path with equal | path
      · omega
      · have := before_lt path; omega
    · exact feeds
  · intro feeds
    exact reaches_self (by simp) feeds

theorem reaches_unfed (unfed : ¬ flow.feeds e c) : Reaches flow (tr ++ [e]) i c ↔ Reaches flow tr i c := by
  refine ⟨fun reach => ?_,reaches_append [e]⟩
  have bound := reaches_bound reach
  simp only [List.length_append,List.length_singleton] at bound
  rcases Nat.lt_or_ge i tr.length with old | new
  · exact ((reaches_snoc old).mp reach).resolve_right fun fed => unfed fed.1
  · have last : i = tr.length := by omega
    subst last
    exact absurd (reaches_new.mp reach) unfed

-- Order between two events of a trace, read off the prefix before the later one.
theorem before_reaches (found : tr[j]? = some e) : Before flow tr i j ↔
    ∃ c, flow.draws e c ∧ Reaches flow (tr.take j) i c := by
  have bound := (List.getElem?_eq_some_iff.mp found).1
  have split : tr = (tr.take j ++ [e]) ++ tr.drop (j+1) := by
    rw [List.append_assoc,List.singleton_append]
    have cut := List.drop_eq_getElem_cons bound
    rw [(List.getElem?_eq_some_iff.mp found).2] at cut
    rw [← cut,List.take_append_drop]
  have length : (tr.take j).length = j := by simp [Nat.le_of_lt bound]
  have inner : j < (tr.take j ++ [e]).length := by simp [length]
  rw [← before_last,length]
  conv_lhs => rw [split]
  exact before_append _ inner

theorem linked_forall₂ {ε' : Type*} {flow' : Flow ε' κ} {tr' : List ε'}
    (same : List.Forall₂ (fun e e' => flow.feeds e = flow'.feeds e' ∧ flow.draws e = flow'.draws e') tr tr')
    (link : Linked flow tr i j) : Linked flow' tr' i j := by
  obtain ⟨order,d,e,c,at_i,at_j,feeds,draws⟩ := link
  have matched : ∀ {n : ℕ} {x : ε}, tr[n]? = some x → ∃ y, tr'[n]? = some y ∧ flow.feeds x = flow'.feeds y ∧ flow.draws x = flow'.draws y := by
    intro n x found
    obtain ⟨bound,rfl⟩ := List.getElem?_eq_some_iff.mp found
    have bound' : n < tr'.length := same.length_eq ▸ bound
    exact ⟨tr'[n],List.getElem?_eq_getElem bound',same.get bound bound'⟩
  obtain ⟨d',at_i',feeds',_⟩ := matched at_i
  obtain ⟨e',at_j',_,draws'⟩ := matched at_j
  exact ⟨order,d',e',c,at_i',at_j',feeds' ▸ feeds,draws' ▸ draws⟩

theorem before_forall₂ {ε' : Type*} {flow' : Flow ε' κ} {tr' : List ε'}
    (same : List.Forall₂ (fun e e' => flow.feeds e = flow'.feeds e' ∧ flow.draws e = flow'.draws e') tr tr')
    (before : Before flow tr i j) : Before flow' tr' i j :=
  Relation.TransGen.mono (fun _ _ => linked_forall₂ same) _ _ before

end Order
end HappensBefore
