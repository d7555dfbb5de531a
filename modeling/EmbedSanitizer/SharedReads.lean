import EmbedSanitizer.AccessSteps

namespace EmbedSanitizer

section Writes
variable {x : VarState} {t : ThreadState}

theorem reader_ahead_iff (lanes : Lanes x.Rvc) (lanesC : Lanes t.C) (u : ℕ) :
    ReaderAhead x t u ↔ u < t.C.length ∧ count t.C u < count x.Rvc u := by
  have compare : (meaning t.C u).slt (meaning x.Rvc u) = true ↔ count t.C u < count x.Rvc u :=
    slt_lane ((lanesC u).trans (lanes u).symm)
  unfold ReaderAhead
  rw [compare]
  constructor
  · exact fun ⟨bound,ahead⟩ => ⟨Nat.lt_of_lt_of_le bound (Nat.min_le_right _ _),ahead⟩
  · rintro ⟨bound,ahead⟩
    refine ⟨Nat.lt_min.mpr ⟨?_,bound⟩,ahead⟩
    by_contra outside
    have absent : count x.Rvc u = 0 := by rw [count,meaning_out (Nat.le_of_not_lt outside),CLOCK_lane]
    omega

end Writes

-- The check of a write to a shared address is the one over all readers exactly when
-- it reports anyway or no read is recorded past the end of the writer's vector.
theorem shared_write_covers (cpp : Cpp) {x : VarState} {t : ThreadState} (shared : x.R = READ_SHARED) (quiet : x.Racy = false)
    (fresh : x.W ≠ t.epoch) (lanes : Lanes x.Rvc) (lanesC : Lanes t.C) (room : TID x.W < t.C.length) :
    ∃ x' verdict, ftWrite cpp x t = some (x',verdict) ∧
      ((verdict = true ↔ Late x.W t ∨ ∃ u, count t.C u < count x.Rvc u) ↔
        Late x.W t ∨ (∃ u, u < t.C.length ∧ count t.C u < count x.Rvc u) ∨ ∀ u, t.C.length ≤ u → count x.Rvc u = 0) := by
  obtain ⟨x',verdict,ran,_,reports⟩ := write_step cpp (x := x) (t := t) ⟨room,fun unshared => absurd shared unshared⟩
  have found : verdict = true ↔ Late x.W t ∨ ∃ u, u < t.C.length ∧ count t.C u < count x.Rvc u := by
    rw [reports,WriteRaces,if_pos shared,and_iff_right quiet,and_iff_right fresh]
    simp only [reader_ahead_iff lanes lanesC]
  refine ⟨x',verdict,ran,?_⟩
  rw [found]
  have beyond : ∀ u, t.C.length ≤ u → count t.C u = 0 := fun u outside => by rw [count,meaning_out outside,CLOCK_lane]
  constructor
  · intro covers
    by_cases late : Late x.W t
    · exact .inl late
    refine .inr (Classical.or_iff_not_imp_left.mpr fun none u outside => ?_)
    by_contra recorded
    have ahead : count t.C u < count x.Rvc u := by rw [beyond u outside]; exact Nat.pos_of_ne_zero recorded
    exact (covers.mpr (.inr ⟨u,ahead⟩)).elim late none
  · rintro (late | inside | clear)
    · exact ⟨fun _ => .inl late,fun _ => .inl late⟩
    · obtain ⟨u,bound,ahead⟩ := inside
      exact ⟨fun _ => .inr ⟨u,ahead⟩,fun _ => .inr ⟨u,bound,ahead⟩⟩
    · refine or_congr_right ⟨fun ⟨u,_,ahead⟩ => ⟨u,ahead⟩,fun ⟨u,ahead⟩ => ⟨u,?_,ahead⟩⟩
      by_contra outside
      have none := clear u (Nat.le_of_not_lt outside)
      omega

theorem shared_write_covers_sibling : ∃ x' verdict,
    ftWrite (.checked .leftFirst) ⟨lane 1,READ_SHARED,[lane 0,lane 1 + 1,lane 2 + 3],false⟩ ⟨1,[lane 0,lane 1 + 2,lane 2 + 2],lane 1 + 2⟩ =
      some (x',verdict) ∧ (verdict = true ↔ Late (lane 1) ⟨1,[lane 0,lane 1 + 2,lane 2 + 2],lane 1 + 2⟩ ∨
        ∃ u, count [lane 0,lane 1 + 2,lane 2 + 2] u < count [lane 0,lane 1 + 1,lane 2 + 3] u) := by
  obtain ⟨x',verdict,ran,covers⟩ := shared_write_covers (.checked .leftFirst)
    (x := ⟨lane 1,READ_SHARED,[lane 0,lane 1 + 1,lane 2 + 3],false⟩) (t := ⟨1,[lane 0,lane 1 + 2,lane 2 + 2],lane 1 + 2⟩)
    rfl rfl (by decide) (by decide) (by decide) (by decide)
  exact ⟨x',verdict,ran,covers.mpr (.inr (.inl ⟨2,by decide⟩))⟩

-- The main thread, whose vector ends before its child's slot, writes what the child has read.
theorem shared_reader_missed :
    (ftWrite (.checked .leftFirst) ⟨lane 1,READ_SHARED,[lane 0,lane 1 + 1,lane 2 + 1],false⟩ ⟨1,[lane 0,lane 1 + 2],lane 1 + 2⟩).map (·.2) =
      some false ∧
    lane 1 ≠ lane 1 + 2 ∧ Lanes [lane 0,lane 1 + 1,lane 2 + 1] ∧ Lanes [lane 0,lane 1 + 2] ∧ TID (lane 1) < [lane 0,lane 1 + 2].length ∧
    count [lane 0,lane 1 + 2] 2 < count [lane 0,lane 1 + 1,lane 2 + 1] 2 := by decide

end EmbedSanitizer
