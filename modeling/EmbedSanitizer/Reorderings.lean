import EmbedSanitizer.HappensBefore
import Mathlib.Logic.Equiv.Basic
import Mathlib.Data.List.Perm.Basic

namespace HappensBefore

section Exchanges
variable {ε κ : Type*} (flow : Flow ε κ)

def Passes (e d : ε) : Prop := ∃ c, flow.feeds e c ∧ flow.draws d c

def Apart (e d : ε) : Prop := ¬ Passes flow e d ∧ ¬ Passes flow d e

inductive Exchange : List ε → List ε → Prop
  | mk (front e d rest) : Apart flow e d → Exchange (front ++ e :: d :: rest) (front ++ d :: e :: rest)

def Equivalent : List ε → List ε → Prop := Relation.ReflTransGen (Exchange flow)

variable {flow} {tr tr' : List ε}

theorem Apart.symm (apart : Apart flow e d) : Apart flow d e := And.symm apart

theorem equivalent_symm (equal : Equivalent flow tr tr') : Equivalent flow tr' tr := by
  induction equal with
  | refl => exact .refl
  | tail _ exchange ih =>
    obtain ⟨front,e,d,rest,apart⟩ := exchange
    exact .head (.mk front d e rest apart.symm) ih

theorem equivalent_perm (equal : Equivalent flow tr tr') : tr.Perm tr' := by
  induction equal with
  | refl => exact .refl _
  | tail _ exchange ih =>
    obtain ⟨front,e,d,rest,_⟩ := exchange
    exact ih.trans ((List.Perm.swap d e rest).append_left front)

theorem equivalent_append (front : List ε) (equal : Equivalent flow tr tr') : Equivalent flow (front ++ tr) (front ++ tr') := by
  refine Relation.ReflTransGen.lift (front ++ ·) ?_ _ _ equal
  rintro _ _ ⟨head,e,d,rest,apart⟩
  show Exchange flow (front ++ (head ++ e :: d :: rest)) (front ++ (head ++ d :: e :: rest))
  rw [← List.append_assoc,← List.append_assoc]
  exact .mk (front ++ head) e d rest apart

theorem equivalent_front {front : List ε} (apart : ∀ d ∈ front, Apart flow d e) (rest : List ε) :
    Equivalent flow (front ++ e :: rest) (e :: (front ++ rest)) := by
  induction front with
  | nil => exact .refl
  | cons d front ih =>
    have later := ih fun x member => apart x (List.mem_cons_of_mem _ member)
    have moved : Equivalent flow (d :: (front ++ e :: rest)) (d :: e :: (front ++ rest)) := equivalent_append [d] later
    exact moved.tail (.mk [] d e (front ++ rest) (apart d List.mem_cons_self))

-- Positions of two traces that hold the same events with the same links.
structure Renaming (flow : Flow ε κ) (tr tr' : List ε) (π : Equiv.Perm ℕ) : Prop where
  events : ∀ i, tr'[π i]? = tr[i]?
  links : ∀ i j, Linked flow tr i j ↔ Linked flow tr' (π i) (π j)

theorem Renaming.trans {tr'' : List ε} {π ρ : Equiv.Perm ℕ} (first : Renaming flow tr tr' π) (second : Renaming flow tr' tr'' ρ) :
    Renaming flow tr tr'' (π.trans ρ) :=
  ⟨fun i => (second.events (π i)).trans (first.events i),fun i j => (first.links i j).trans (second.links (π i) (π j))⟩

theorem Renaming.before {π : Equiv.Perm ℕ} (renamed : Renaming flow tr tr' π) (i j : ℕ) :
    Before flow tr i j ↔ Before flow tr' (π i) (π j) := by
  constructor
  · exact fun before => Relation.TransGen.lift π (fun i j => (renamed.links i j).mp) _ _ before
  · intro before
    have back : Before flow tr (π.symm (π i)) (π.symm (π j)) := by
      refine Relation.TransGen.lift π.symm (fun i j link => ?_) _ _ before
      exact (renamed.links _ _).mpr (by simpa using link)
    simpa using back

theorem exchanged_at (front rest : List ε) (e d : ε) (i : ℕ) :
    (front ++ d :: e :: rest)[Equiv.swap front.length (front.length + 1) i]? = (front ++ e :: d :: rest)[i]? := by
  rcases Nat.lt_trichotomy i front.length with old | rfl | new
  · rw [Equiv.swap_apply_of_ne_of_ne (by omega) (by omega),List.getElem?_append_left old,List.getElem?_append_left old]
  · rw [Equiv.swap_apply_left]
    simp
  · rcases Nat.lt_or_ge (front.length + 1) i with beyond | next
    · rw [Equiv.swap_apply_of_ne_of_ne (by omega) (by omega)]
      obtain ⟨k,rfl⟩ : ∃ k, i = front.length + (k + 2) := ⟨i - front.length - 2,by omega⟩
      simp [List.getElem?_append_right]
    · obtain rfl : i = front.length + 1 := by omega
      rw [Equiv.swap_apply_right]
      simp

theorem linked_exchange {front rest : List ε} {e d : ε} (apart : Apart flow e d)
    (link : Linked flow (front ++ e :: d :: rest) i j) :
    Linked flow (front ++ d :: e :: rest) (Equiv.swap front.length (front.length + 1) i)
      (Equiv.swap front.length (front.length + 1) j) := by
  obtain ⟨order,x,y,c,at_i,at_j,feeds,draws⟩ := link
  refine ⟨?_,x,y,c,by rw [exchanged_at]; exact at_i,by rw [exchanged_at]; exact at_j,feeds,draws⟩
  have kept : ¬ (i = front.length ∧ j = front.length + 1) := by
    rintro ⟨rfl,rfl⟩
    obtain rfl : e = x := by simpa using at_i
    obtain rfl : d = y := by simpa using at_j
    exact apart.1 ⟨c,feeds,draws⟩
  simp only [Equiv.swap_apply_def]
  split_ifs <;> omega

theorem exchange_renaming (exchange : Exchange flow tr tr') : ∃ π, Renaming flow tr tr' π := by
  obtain ⟨front,e,d,rest,apart⟩ := exchange
  refine ⟨Equiv.swap front.length (front.length + 1),exchanged_at front rest e d,fun i j => ⟨linked_exchange apart,fun link => ?_⟩⟩
  simpa using linked_exchange apart.symm link

theorem equivalent_renaming (equal : Equivalent flow tr tr') : ∃ π, Renaming flow tr tr' π := by
  induction equal with
  | refl => exact ⟨Equiv.refl ℕ,fun _ => rfl,fun _ _ => Iff.rfl⟩
  | tail _ exchange ih =>
    obtain ⟨π,first⟩ := ih
    obtain ⟨ρ,second⟩ := exchange_renaming exchange
    exact ⟨_,first.trans second⟩

end Exchanges

section Projections
variable {ε κ ι : Type*} {flow : Flow ε κ} (member : ι → ε → Bool)

structure Covers (flow : Flow ε κ) : Prop where
  every : ∀ e, ∃ k, member k e = true
  linked : ∀ e d, Apart flow e d ∨ ∃ k, member k e = true ∧ member k d = true

variable {member}

theorem class_front {rest front back : List ε} (fresh : e ∉ front) {k : ι} (inside : member k e = true)
    (same : (e :: rest).filter (member k) = (front ++ e :: back).filter (member k)) :
    front.filter (member k) = [] ∧ rest.filter (member k) = back.filter (member k) := by
  rw [List.filter_append,List.filter_cons_of_pos inside,List.filter_cons_of_pos inside] at same
  cases kept : front.filter (member k) with
  | nil =>
    rw [kept] at same
    exact ⟨rfl,(List.cons.inj same).2⟩
  | cons d others =>
    rw [kept] at same
    have early : d ∈ front := (List.mem_filter.mp (kept ▸ List.mem_cons_self)).1
    exact absurd ((List.cons.inj same).1 ▸ early) fresh

-- Traces with the same sequence of events in every class are equivalent.
theorem equivalent_of_projections (covers : Covers member flow) {tr tr' : List ε}
    (same : ∀ k, tr.filter (member k) = tr'.filter (member k)) : Equivalent flow tr tr' := by
  induction tr generalizing tr' with
  | nil =>
    cases tr' with
    | nil => exact .refl
    | cons e rest =>
      obtain ⟨k,inside⟩ := covers.every e
      have gone := same k
      simp [inside] at gone
  | cons e rest ih =>
    have found : e ∈ tr' := by
      obtain ⟨k,inside⟩ := covers.every e
      have kept : e ∈ (e :: rest).filter (member k) := List.mem_filter.mpr ⟨List.mem_cons_self,inside⟩
      rw [same k] at kept
      exact (List.mem_filter.mp kept).1
    obtain ⟨front,back,rfl,fresh⟩ := List.eq_append_cons_of_mem found
    have apart : ∀ d ∈ front, Apart flow d e := by
      intro d early
      rcases covers.linked d e with apart | ⟨k,shared,inside⟩
      · exact apart
      · have none := (class_front fresh inside (same k)).1
        rw [List.filter_eq_nil_iff] at none
        exact absurd shared (none d early)
    have others : ∀ k, rest.filter (member k) = (front ++ back).filter (member k) := by
      intro k
      rw [List.filter_append]
      cases inside : member k e with
      | true =>
        obtain ⟨none,equal⟩ := class_front fresh inside (same k)
        rw [none,equal,List.nil_append]
      | false =>
        have equal := same k
        rwa [List.filter_append,List.filter_cons_of_neg (by simp [inside]),List.filter_cons_of_neg (by simp [inside])] at equal
    have tails : Equivalent flow (e :: rest) (e :: (front ++ back)) := equivalent_append [e] (ih others)
    exact tails.trans (equivalent_symm (equivalent_front apart back))

end Projections
end HappensBefore
