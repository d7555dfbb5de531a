import EmbedSanitizer.DetectorRuns
import EmbedSanitizer.Lifetimes

namespace ThreadEvents
open HappensBefore

section Deletions
variable {T L A : Type*}

def without {ε : Type*} (dropped : ℕ → Bool) : List ε → List ε
  | [] => []
  | e :: rest => if dropped 0 then without (fun n => dropped (n+1)) rest else e :: without (fun n => dropped (n+1)) rest

def masked (dropped : ℕ → Bool) : List (Event T L A) → List (Event T L A)
  | [] => []
  | e :: rest => (if dropped 0 then .skip e.actor else e) :: masked (fun n => dropped (n+1)) rest

-- The read at i is followed by a write of its thread to the same address, and the
-- thread does not synchronize in between.
def Overwritten (tr : List (Event T L A)) (i : ℕ) : Prop :=
  ∃ t a w kind, tr[i]? = some (.access t .read a) ∧ i < w ∧ tr[w]? = some (.access t kind a) ∧ kind.writes = true ∧
    ∀ n e, i < n → n < w → tr[n]? = some e → e.actor = t → e.Synchronizes = false

def Removable (tr : List (Event T L A)) (dropped : ℕ → Bool) : Prop :=
  ∀ i, i < tr.length → dropped i = true → Overwritten tr i

variable {tr : List (Event T L A)} {dropped : ℕ → Bool}

theorem masked_at (i : ℕ) : (masked dropped tr)[i]? = tr[i]?.map fun e => if dropped i then .skip e.actor else e := by
  induction tr generalizing dropped i with
  | nil => rfl
  | cons e rest ih =>
    cases i with
    | zero => rfl
    | succ i => exact ih i

theorem masked_access {i : ℕ} (found : (masked dropped tr)[i]? = some (.access t kind a)) :
    tr[i]? = some (.access t kind a) ∧ dropped i = false := by
  rw [masked_at] at found
  obtain ⟨e,at_i,same⟩ := Option.map_eq_some_iff.mp found
  split at same
  · cases same
  · rename_i kept
    exact ⟨by rw [at_i,same],by simpa using kept⟩

def AccessesOnly (tr : List (Event T L A)) (dropped : ℕ → Bool) : Prop :=
  ∀ i e, tr[i]? = some e → dropped i = true → ∃ t kind a, e = .access t kind a

theorem removable_accesses (removable : Removable tr dropped) : AccessesOnly tr dropped := by
  intro i e found drop
  obtain ⟨t,a,_,_,read,_⟩ := removable i (List.getElem?_eq_some_iff.mp found).1 drop
  rw [found] at read
  exact ⟨t,.read,a,Option.some.inj read⟩

theorem accesses_tail {e : Event T L A} (only : AccessesOnly (e :: tr) dropped) : AccessesOnly tr fun n => dropped (n+1) :=
  fun i d found drop => only (i+1) d (by simpa using found) drop

theorem masked_flow (only : AccessesOnly tr dropped) :
    List.Forall₂ (fun e e' => order.feeds e = order.feeds e' ∧ order.draws e = order.draws e') tr (masked dropped tr) := by
  induction tr generalizing dropped with
  | nil => exact .nil
  | cons e rest ih =>
    refine .cons ?_ (ih (accesses_tail only))
    split
    · rename_i drop
      obtain ⟨t,kind,a,rfl⟩ := only 0 e rfl drop
      exact ⟨rfl,rfl⟩
    · exact ⟨rfl,rfl⟩

theorem masked_before (only : AccessesOnly tr dropped) : Before order (masked dropped tr) i j ↔ Before order tr i j := by
  constructor
  · intro before
    apply before_forall₂ _ before
    exact (List.Forall₂.flip (masked_flow only)).imp fun _ _ same => ⟨same.1.symm,same.2.symm⟩
  · exact before_forall₂ (masked_flow only)

theorem masked_disciplined [DecidableEq L] (only : AccessesOnly tr dropped) {holder : L → Option T} :
    DisciplinedFrom holder (masked dropped tr) ↔ DisciplinedFrom holder tr := by
  induction tr generalizing dropped holder with
  | nil => exact Iff.rfl
  | cons e rest ih =>
    have tail : ∀ h : L → Option T, DisciplinedFrom h (masked (fun n => dropped (n+1)) rest) ↔ DisciplinedFrom h rest :=
      fun h => ih (accesses_tail only)
    simp only [masked,DisciplinedFrom]
    split
    · rename_i drop
      obtain ⟨t,kind,a,rfl⟩ := only 0 e rfl drop
      exact and_congr Iff.rfl (tail _)
    · exact and_congr Iff.rfl (tail _)

theorem quiet_draws {e : Event T L A} (quiet : e.Synchronizes = false) {c : Channel T L} (draws : e.Draws c) : c = .thread e.actor := by
  cases e with
  | access t kind a => exact draws
  | skip t => exact draws
  | _ => cases quiet

end Deletions

section Order
variable {T L A : Type*} [DecidableEq T] [DecidableEq L] {main : T} {tr : List (Event T L A)}

theorem born_append {rest : List (Event T L A)} (born : (worldAfter main tr).status t ≠ .unborn) :
    (worldAfter main (tr ++ rest)).status t ≠ .unborn := by
  induction rest using List.reverseRecOn with
  | nil => simpa using born
  | append_singleton rest e ih =>
    rw [← List.append_assoc,worldAfter_snoc]
    cases e with
    | fork p u => by_cases own : t = u <;> simp_all [World.after]
    | join p u => by_cases own : t = u <;> simp_all [World.after]
    | _ => exact ih

theorem feeder_actor (legal : Legal main tr) {i n : ℕ} {d e : Event T L A} (at_i : tr[i]? = some d) (later : i < n)
    (at_n : tr[n]? = some e) (feeds : e.Feeds (.thread d.actor)) : e.actor = d.actor := by
  have born : (worldAfter main (tr.take n)).status d.actor ≠ .unborn := by
    rw [take_split tr (Nat.le_of_lt later)]
    apply born_append
    rw [allows_live (legal_at legal at_i)]
    simp
  have allowed := legal_at legal at_n
  cases e with
  | fork p u =>
    rcases feeds with own | child
    · exact (Channel.thread.inj own).symm
    · rw [Channel.thread.inj child] at born
      exact absurd allowed.2 born
  | release p m =>
    rcases feeds with own | lock
    · exact (Channel.thread.inj own).symm
    · cases lock
  | _ => exact (Channel.thread.inj feeds).symm

theorem reaches_stretch (legal : Legal main tr) {i w : ℕ} {d : Event T L A} (at_i : tr[i]? = some d) (order_w : i < w)
    (bound : w ≤ tr.length) (quiet : ∀ n e, i ≤ n → n < w → tr[n]? = some e → e.actor = d.actor → e.Synchronizes = false)
    {n : ℕ} {c : Event T L A} (at_n : tr[n]? = some c) (other : c.actor ≠ d.actor)
    (reach : Reaches order (tr.take w) n (.thread d.actor)) : Reaches order (tr.take i) n (.thread d.actor) := by
  induction w with
  | zero => cases order_w
  | succ w ih =>
    obtain ⟨e,at_w⟩ : ∃ e, tr[w]? = some e := ⟨tr[w],List.getElem?_eq_getElem bound⟩
    have before : Reaches order (tr.take w) n (.thread d.actor) := by
      rw [take_at at_w] at reach
      by_cases feeds : e.Feeds (.thread d.actor)
      · have own : e.actor = d.actor := by
          rcases Nat.lt_or_ge i w with later | now
          · exact feeder_actor legal at_i later at_w feeds
          · have same : i = w := by omega
            rw [same,at_w] at at_i
            rw [Option.some.inj at_i]
        have length : (tr.take w).length = w := by simp; omega
        have within := reaches_bound reach
        simp only [List.length_append,List.length_singleton,length] at within
        rcases Nat.lt_or_ge n w with old | last
        · rcases (reaches_snoc (by rw [length]; exact old)).mp reach with past | ⟨_,channel,draws,past⟩
          · exact past
          · have silent := quiet w e (by omega) (Nat.lt_succ_self w) at_w own
            rwa [quiet_draws silent draws,own] at past
        · have same : n = w := by omega
          rw [same,at_w] at at_n
          exact absurd own (Option.some.inj at_n ▸ other)
      · exact (reaches_unfed feeds).mp reach
    rcases Nat.lt_or_ge i w with later | now
    · exact ih later (by omega) (fun m e first last => quiet m e first (by omega)) before
    · have same : i = w := by omega
      rwa [same]

-- The write that covers a read is ordered with the events of other threads as the
-- read is.
theorem overwritten_order (legal : Legal main tr) (covered : Overwritten tr i) : ∃ t a w kind,
    tr[i]? = some (.access t .read a) ∧ tr[w]? = some (.access t kind a) ∧ kind.writes = true ∧
    ∀ n e, tr[n]? = some e → e.actor ≠ t → (Before order tr n w → Before order tr n i) ∧ (Before order tr w n → Before order tr i n) := by
  obtain ⟨t,a,w,kind,at_i,later,at_w,writes,quiet⟩ := covered
  refine ⟨t,a,w,kind,at_i,at_w,writes,?_⟩
  intro n e at_n other
  have bound := (List.getElem?_eq_some_iff.mp at_w).1
  constructor
  · intro before
    rw [before_access at_w] at before
    rw [before_access at_i]
    apply reaches_stretch legal at_i later (Nat.le_of_lt bound) ?_ at_n other before
    intro m d first last found own
    rcases Nat.lt_or_ge i m with inner | now
    · exact quiet m d inner last found own
    · have same : i = m := by omega
      rw [← same,at_i] at found
      rw [← Option.some.inj found]
      rfl
  · intro before
    have link : Linked order tr i w := ⟨later,_,_,.thread t,at_i,at_w,rfl,rfl⟩
    exact .trans (.single link) before

variable {dropped : ℕ → Bool}

theorem moved (legal : Legal main tr) (removable : Removable tr dropped) (at_i : tr[i]? = some (.access t kind a)) :
    ∃ j kind', (masked dropped tr)[j]? = some (.access t kind' a) ∧ (kind.writes = true → kind'.writes = true) ∧
      ∀ n e, tr[n]? = some e → e.actor ≠ t → (Before order tr n j → Before order tr n i) ∧ (Before order tr j n → Before order tr i n) := by
  cases drop : dropped i with
  | false =>
    refine ⟨i,kind,?_,id,fun _ _ _ _ => ⟨id,id⟩⟩
    rw [masked_at,at_i,Option.map_some,drop]
    rfl
  | true =>
    have bound := (List.getElem?_eq_some_iff.mp at_i).1
    obtain ⟨t',a',w,kind',read,at_w,writes,shared⟩ := overwritten_order legal (removable i bound drop)
    rw [at_i] at read
    cases read
    refine ⟨w,kind',?_,fun _ => writes,shared⟩
    have kept : dropped w = false := by
      cases drop_w : dropped w with
      | false => rfl
      | true =>
        obtain ⟨_,_,_,_,read,_⟩ := removable w (List.getElem?_eq_some_iff.mp at_w).1 drop_w
        rw [at_w] at read
        cases read
        cases writes
    rw [masked_at,at_w,Option.map_some,kept]
    rfl

theorem masked_races (legal : Legal main tr) (removable : Removable tr dropped) :
    (∃ i j, Races (masked dropped tr) a i j) ↔ ∃ i j, Races tr a i j := by
  have only := removable_accesses removable
  constructor
  · rintro ⟨i,j,⟨_,_,at_i,at_j,t,u,k,l,rfl,rfl,different,writes⟩,notBefore,notAfter⟩
    rw [masked_before only] at notBefore notAfter
    exact ⟨i,j,⟨_,_,(masked_access at_i).1,(masked_access at_j).1,t,u,k,l,rfl,rfl,different,writes⟩,notBefore,notAfter⟩
  · rintro ⟨i,j,⟨_,_,at_i,at_j,t,u,k,l,rfl,rfl,different,writes⟩,notBefore,notAfter⟩
    obtain ⟨i',k',left,writesL,orderL⟩ := moved legal removable at_i
    obtain ⟨j',l',right,writesR,orderR⟩ := moved legal removable at_j
    have away := orderR i _ at_i different
    have back := orderL j' _ (masked_access right).1 different.symm
    refine ⟨i',j',⟨_,_,left,right,t,u,k',l',rfl,rfl,different,writes.imp writesL writesR⟩,?_,?_⟩
    · rw [masked_before only]
      exact fun before => notBefore (away.1 (back.2 before))
    · rw [masked_before only]
      exact fun before => notAfter (away.2 (back.1 before))

end Order
end ThreadEvents

namespace EpochDetector
open HappensBefore ThreadEvents

section Deletions
variable {T L A : Type*} [DecidableEq T] [DecidableEq L] [DecidableEq A]

def ReportedFrom (σ : Detector T L A) (tr : List (Event T L A)) (a : A) : Prop :=
  ∃ k e, tr[k]? = some e ∧ e.Touches a ∧ ((tr.take k).foldl Detector.step σ).Reports e

theorem reportedFrom_cons {σ : Detector T L A} {e : Event T L A} {tr : List (Event T L A)} :
    ReportedFrom σ (e :: tr) a ↔ (e.Touches a ∧ σ.Reports e) ∨ ReportedFrom (σ.step e) tr a := by
  constructor
  · rintro ⟨k,d,found,touches,reports⟩
    cases k with
    | zero => cases found; exact .inl ⟨touches,reports⟩
    | succ k => exact .inr ⟨k,d,found,touches,reports⟩
  · rintro (⟨touches,reports⟩ | ⟨k,d,found,touches,reports⟩)
    · exact ⟨0,e,rfl,touches,reports⟩
    · exact ⟨k+1,d,found,touches,reports⟩

theorem reportedFrom_masked (σ : Detector T L A) (tr : List (Event T L A)) (dropped : ℕ → Bool) :
    ReportedFrom σ (masked dropped tr) a ↔ ReportedFrom σ (without dropped tr) a := by
  induction tr generalizing σ dropped with
  | nil => exact Iff.rfl
  | cons e rest ih =>
    cases drop : dropped 0 with
    | true =>
      have skips : σ.step (.skip e.actor) = σ := rfl
      simp only [masked,without,drop,if_true,reportedFrom_cons,skips,ih]
      simp [Event.Touches]
    | false =>
      simp only [masked,without,drop,Bool.false_eq_true,if_false,reportedFrom_cons,ih]

theorem reported_without {main : T} {tr : List (Event T L A)} {dropped : ℕ → Bool} (legal : Legal main tr)
    (removable : Removable tr dropped) (a : A) : Reported (without dropped tr) a ↔ Reported tr a := by
  have disciplined := legal_disciplined legal
  have masks : Disciplined (masked dropped tr) := (masked_disciplined (removable_accesses removable)).mpr disciplined
  have whole : Reported (masked dropped tr) a ↔ Reported (without dropped tr) a := reportedFrom_masked .start tr dropped
  rw [← whole,reported_iff_races masks,reported_iff_races disciplined]
  exact masked_races legal removable

end Deletions
end EpochDetector
