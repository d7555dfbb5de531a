import EmbedSanitizer.Exactness
import EmbedSanitizer.GatedDetection

namespace EmbedSanitizer
open HappensBefore ThreadEvents LogicalClock

section Prefixes
variable {cpp : Cpp} {s : Runtime} {calls : List Call}

theorem invokeAll_take (ran : invokeAll cpp s calls = some (s',reports)) (n : ℕ) :
    ∃ s₁, invokeAll cpp s (calls.take n) = some (s₁,reports.take n) := by
  induction calls generalizing s reports n with
  | nil =>
    cases ran
    exact ⟨s',by simp [invokeAll]⟩
  | cons c rest ih =>
    obtain ⟨⟨s₁,report⟩,first,ran⟩ := bind_some ran
    obtain ⟨⟨s₂,later⟩,others,same⟩ := bind_some ran
    cases same
    cases n with
    | zero => exact ⟨s,rfl⟩
    | succ n =>
      obtain ⟨s₃,early⟩ := ih others n
      exact ⟨s₃,by simp [invokeAll,first,early]⟩

theorem races_take {tr : List Event} {n : ℕ} : Races (tr.take n) a i j ↔ i < n ∧ j < n ∧ Races tr a i j := by
  have inside : ∀ {k : ℕ} {e : Event}, (tr.take n)[k]? = some e ↔ k < n ∧ tr[k]? = some e := by
    intro k e
    rw [List.getElem?_take]
    split <;> simp_all
  have orders : ∀ {k l : ℕ} {e : Event}, (tr.take n)[l]? = some e → (Before order (tr.take n) k l ↔ Before order tr k l) := by
    intro k l e found
    conv_rhs => rw [← List.take_append_drop n tr]
    exact (before_append _ (List.getElem?_eq_some_iff.mp found).1).symm
  constructor
  · rintro ⟨⟨e,d,at_i,at_j,conflict⟩,notBefore,notAfter⟩
    rw [orders at_j] at notBefore
    rw [orders at_i] at notAfter
    obtain ⟨below,at_i⟩ := inside.mp at_i
    obtain ⟨within,at_j⟩ := inside.mp at_j
    exact ⟨below,within,⟨e,d,at_i,at_j,conflict⟩,notBefore,notAfter⟩
  · rintro ⟨below,within,⟨e,d,at_i,at_j,conflict⟩,notBefore,notAfter⟩
    have inI := inside.mpr ⟨below,at_i⟩
    have inJ := inside.mpr ⟨within,at_j⟩
    refine ⟨⟨e,d,inI,inJ,conflict⟩,?_,?_⟩
    · rwa [orders inJ]
    · rwa [orders inI]

end Prefixes

section Firsts

def First (p : ℕ → Prop) (k : ℕ) : Prop := p k ∧ ∀ j, j < k → ¬ p j

theorem first_congr {p q : ℕ → Prop} (same : ∀ n, (∃ k, k < n ∧ p k) ↔ ∃ k, k < n ∧ q k) (k : ℕ) : First p k ↔ First q k := by
  have one : ∀ {p q : ℕ → Prop}, (∀ n, (∃ k, k < n ∧ p k) ↔ ∃ k, k < n ∧ q k) → First p k → First q k := by
    rintro p q same ⟨now,before⟩
    have none : ∀ j, j < k → ¬ q j := by
      intro j less holds
      obtain ⟨i,earlier,found⟩ := (same k).mpr ⟨j,less,holds⟩
      exact before i earlier found
    obtain ⟨j,within,holds⟩ := (same (k+1)).mp ⟨k,Nat.lt_succ_self k,now⟩
    rcases Nat.lt_succ_iff_lt_or_eq.mp within with less | rfl
    · exact absurd holds (none j less)
    · exact ⟨holds,none⟩
  exact ⟨one same,one fun n => (same n).symm⟩

def CallReports (calls : List Call) (reports : List (Option Report)) (a : Address) (k : ℕ) : Prop :=
  ∃ (c : Call) (r : Report), calls[k]? = some c ∧ c.addr = some a ∧ reports[k]? = some (some r)

def CompletesRace (tr : List Event) (a : Address) (k : ℕ) : Prop := ∃ i, i < k ∧ Races tr a i k

theorem callReported_take {calls : List Call} {reports : List (Option Report)} {a : Address} {n : ℕ} :
    CallReported (calls.take n) (reports.take n) a ↔ ∃ k, k < n ∧ CallReports calls reports a k := by
  constructor
  · rintro ⟨k,c,r,at_k,addr,report⟩
    have within := Nat.lt_of_lt_of_le (List.getElem?_eq_some_iff.mp at_k).1 (List.length_take_le n calls)
    rw [List.getElem?_take_of_lt within] at at_k report
    exact ⟨k,within,c,r,at_k,addr,report⟩
  · rintro ⟨k,within,c,r,at_k,addr,report⟩
    exact ⟨k,c,r,by rw [List.getElem?_take_of_lt within]; exact at_k,addr,by rw [List.getElem?_take_of_lt within]; exact report⟩

theorem completes_take {tr : List Event} {a : Address} {n : ℕ} :
    (∃ i j, Races (tr.take n) a i j) ↔ ∃ k, k < n ∧ CompletesRace tr a k := by
  constructor
  · rintro ⟨i,j,races⟩
    obtain ⟨below,within,races⟩ := races_take.mp races
    rcases Nat.lt_or_gt_of_ne races.ne with order | order
    · exact ⟨j,within,i,order,races⟩
    · exact ⟨i,below,j,order,races.symm⟩
  · rintro ⟨k,within,i,order,races⟩
    exact ⟨i,k,races_take.mpr ⟨Nat.lt_trans order within,within,races⟩⟩

end Firsts

section Reports
variable {cpp : Cpp} {s : Runtime} {main : ThreadID} {calls : List Call}

-- The first report on an address is made by the callback that first completes a race
-- on it, neither later nor earlier.
theorem first_report_first_race (prepared : s.Prepared) (quiet : s.isConcurrent = 0) (named : Named s (calls.map Call.attempt))
    (legal : Legal main (calls.map Call.attempt)) (spare : Spare cpp s (calls.map Call.attempt)) (a : Address) :
    ∃ s' reports, invokeAll cpp s calls = some (s',reports) ∧
      ∀ k, First (CallReports calls reports a) k ↔ First (CompletesRace (calls.map Call.attempt) a) k := by
  obtain ⟨s',reports,ran,_⟩ := callbacks_reported prepared named (gated_spare prepared named _ spare)
  refine ⟨s',reports,ran,first_congr fun n => ?_⟩
  obtain ⟨s₁,early⟩ := invokeAll_take ran n
  have cut : (calls.take n).map Call.attempt = (calls.map Call.attempt).take n := List.map_take
  have known : Named s ((calls.take n).map Call.attempt) := by rw [cut]; exact named_take named n
  have lasting : Spare cpp s ((calls.take n).map Call.attempt) := by rw [cut]; exact spare_take spare n
  obtain ⟨s₂,reports₂,again,reported⟩ := callbacks_reported prepared known (gated_spare prepared known _ lasting)
  rw [early] at again
  cases again
  rw [← callReported_take,reported,quiet,events_reported (by rw [cut]; exact legal_take legal n),cut,completes_take]

theorem first_report_first_race_late : ∃ s' reports,
    invokeAll (.checked .leftFirst) (.ofThreads [1,2] (by decide)) forkBetweenWrites = some (s',reports) ∧
    ∀ k, First (CallReports forkBetweenWrites reports 100) k ↔ First (CompletesRace (forkBetweenWrites.map Call.attempt) 100) k :=
  first_report_first_race (ofThreads_prepared (by decide)) rfl (by decide) (show Legal 1 _ by decide) (by decide) 100

end Reports
end EmbedSanitizer
