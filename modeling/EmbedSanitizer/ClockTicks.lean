import EmbedSanitizer.DetectorRefinement

namespace LogicalClock
open HappensBefore ThreadEvents

section Ticks
variable {T L A : Type*} [DecidableEq T] [DecidableEq L]

def ticks (u : T) : Event T L A → Bool
  | .fork t _ | .release t _ => t = u
  | .join _ v => v = u
  | .acquire .. | .access .. | .skip _ => false

theorem own_merge {s : Clocks T L} (owned : Owned s) (c d : Channel T L) (u : T) :
    merge s c d (.thread u) u = s (.thread u) u := by
  rw [merge_apply]
  split_ifs with same
  · cases same; exact Nat.max_eq_left (owned.le d u)
  · rfl

theorem own_step {s : Clocks T L} (owned : Owned s) (e : Event T L A) (u : T) :
    step s e (.thread u) u = s (.thread u) u + if ticks u e then 1 else 0 := by
  cases e with
  | fork t v => simp only [step,tick_apply,own_merge owned,ticks]; grind
  | join t v => simp only [step,tick_apply,own_merge owned,ticks]; grind
  | acquire t m => exact own_merge owned _ _ u
  | release t m => simp only [step,tick_apply,put_apply,reduceCtorEq,if_false,ticks]; grind
  | access t kind a => rfl
  | skip t => rfl

end Ticks
end LogicalClock

namespace EmbedSanitizer
open ThreadEvents EpochDetector LogicalClock

section Spares
variable {cpp : Cpp} {s : Runtime} {σ : Detector ThreadID Address Address}

theorem CLOCK_lt (x : CInt) : CLOCK x < 0x1000000 := by
  rw [CLOCK_eq]
  exact Nat.mod_lt _ (by decide)

theorem unspent_iff_counts (sim : ClockSim s σ.clocks) : s.Unspent ↔ ∀ id, s.Registered id → σ.clocks (.thread id) id < 0xFFFFFF := by
  constructor
  · rintro unspent id ⟨t,found⟩
    have count := (sim.threads id t found).epoch_clock (slot_of found)
    have spare := unspent id t found
    have bound := CLOCK_lt t.epoch
    omega
  · intro counts id t found
    have count := (sim.threads id t found).epoch_clock (slot_of found)
    have bound := counts id ⟨t,found⟩
    omega

-- The clocks last for a run exactly when no thread ends more counts in it than are left.
theorem spare_iff_ticks (sim : DetectorSim s σ) (owned : Owned σ.clocks) {tr : List Event} (named : Named s tr) :
    Spare cpp s tr ↔ ∀ id, s.Registered id → σ.clocks (.thread id) id + tr.countP (ticks id) < 0xFFFFFF := by
  induction tr generalizing s σ with
  | nil => exact unspent_iff_counts sim.clocks
  | cons e rest ih =>
    have counted : ∀ id, σ.clocks (.thread id) id + (e :: rest).countP (ticks id) =
        (σ.step e).clocks (.thread id) id + rest.countP (ticks id) := by
      intro id
      show _ = LogicalClock.step σ.clocks e (.thread id) id + _
      rw [own_step owned,List.countP_cons]
      omega
    have next : s.Unspent → (Spare cpp s (e :: rest) ↔
        ∀ id, s.Registered id → σ.clocks (.thread id) id + (e :: rest).countP (ticks id) < 0xFFFFFF) := by
      intro unspent
      obtain ⟨s₁,b,ran,sim₁,slots,_⟩ := detector_step cpp sim unspent (named e List.mem_cons_self)
      have later := ih sim₁ (owned_step owned e) (named_slots slots fun d member => named d (List.mem_cons_of_mem _ member))
      have same : ∀ id, s₁.Registered id ↔ s.Registered id := fun id => by rw [registered_iff,slots,← registered_iff]
      simp only [counted]
      simp only [same] at later
      rw [← later]
      constructor
      · exact fun spare => spare.2 s₁ b ran
      · intro spare
        refine ⟨unspent,fun s' b' ran' => ?_⟩
        rw [ran] at ran'
        cases ran'
        exact spare
    constructor
    · exact fun spare => (next spare.unspent).mp spare
    · intro counts
      refine (next ((unspent_iff_counts sim.clocks).mpr fun id known => ?_)).mpr counts
      exact Nat.lt_of_le_of_lt (Nat.le_add_right _ _) (counts id known)

theorem spare_of_ticks (sim : DetectorSim s σ) (owned : Owned σ.clocks) {tr tr' : List Event} (named : Named s tr)
    (named' : Named s tr') (same : ∀ id, tr'.countP (ticks id) = tr.countP (ticks id)) (spare : Spare cpp s tr) :
    Spare cpp s tr' := by
  rw [spare_iff_ticks sim owned named] at spare
  rw [spare_iff_ticks sim owned named']
  simpa only [same] using spare

end Spares
end EmbedSanitizer
