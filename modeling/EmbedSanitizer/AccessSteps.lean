import EmbedSanitizer.VectorClocks

namespace EmbedSanitizer

-- e is an access of another thread that t has not seen.
def Late (e : CInt) (t : ThreadState) : Prop := TID e ≠ t.tid ∧ CLOCK (meaning t.C (TID e)) < CLOCK e

def VarState.slots (x : VarState) (n : ℕ) : ℕ := if x.Rvc.length = 0 then n else x.Rvc.length

def VarState.Unseen (x : VarState) (t : ThreadState) : Prop :=
  x.R ≠ READ_SHARED ∧ ¬ x.R.sle (meaning t.C (TID x.R)) = true

def VarState.Passes (x : VarState) (t : ThreadState) : Prop := x.Racy = false ∧ x.R ≠ t.epoch

-- Every subscript that the check evaluates is in range.
structure ReadRoom (n : ℕ) (x : VarState) (t : ThreadState) : Prop where
  write : TID x.W < t.C.length
  read : x.R ≠ READ_SHARED → TID x.R < t.C.length
  shared : x.Passes t → x.R = READ_SHARED → t.tid < x.Rvc.length
  share : x.Passes t → x.Unseen t → t.tid < x.slots n ∧ TID x.R < x.slots n

structure WriteRoom (x : VarState) (t : ThreadState) : Prop where
  write : TID x.W < t.C.length
  read : x.R ≠ READ_SHARED → TID x.R < t.C.length

inductive ReadStep (n : ℕ) (x : VarState) (t : ThreadState) : VarState → Prop
  | racy (racy : x.Racy = true) : ReadStep n x t x
  | same (same : x.R = t.epoch) : ReadStep n x t x
  | shared (shared : x.R = READ_SHARED) (room : t.tid < x.Rvc.length) :
      ReadStep n x t {x with Rvc := x.Rvc.set t.tid t.epoch}
  | exclusive (unshared : x.R ≠ READ_SHARED) (seen : x.R.sle (meaning t.C (TID x.R)) = true) : ReadStep n x t {x with R := t.epoch}
  | share (unseen : x.Unseen t) (length : V.length = x.slots n) (entries : ∀ i, meaning V i = meaning x.Rvc i)
      (room : t.tid < V.length) (earlier : TID x.R < V.length) :
      ReadStep n x t {x with Rvc := (V.set (TID x.R) x.R).set t.tid t.epoch, R := READ_SHARED}

inductive WriteStep (x : VarState) (t : ThreadState) : VarState → Prop
  | racy (racy : x.Racy = true) : WriteStep x t x
  | same (same : x.W = t.epoch) : WriteStep x t x
  | exclusive (unshared : x.R ≠ READ_SHARED) : WriteStep x t {x with W := t.epoch}
  | shared (shared : x.R = READ_SHARED) : WriteStep x t {x with R := lane (TID t.epoch), W := t.epoch}

def ReadRaces (x : VarState) (t : ThreadState) : Prop := x.Passes t ∧ Late x.W t

def ReaderAhead (x : VarState) (t : ThreadState) (u : ℕ) : Prop :=
  u < min x.Rvc.length t.C.length ∧ (meaning t.C u).slt (meaning x.Rvc u) = true

def WriteRaces (x : VarState) (t : ThreadState) : Prop :=
  x.Racy = false ∧ x.W ≠ t.epoch ∧ (Late x.W t ∨ if x.R = READ_SHARED then ∃ u, ReaderAhead x t u else Late x.R t)

section Checks
variable (cpp : Cpp) {n : ℕ} {x : VarState} {t : ThreadState}

theorem aheadOf_late (room : TID e < t.C.length) : ∃ b, aheadOf cpp e t = some b ∧ (b = true ↔ Late e t) := by
  unfold aheadOf Late
  by_cases own : TID e = t.tid
  · exact ⟨false,by simp [own],by simp [own]⟩
  · exact ⟨_,by rw [if_pos own,get_in cpp room]; rfl,by simp [own]⟩

theorem slots_opened (x : VarState) (n : ℕ) : ∃ V,
    (if x.Rvc.length = 0 then newVectorClock cpp x.Rvc n else some x.Rvc) = some V ∧ V.length = x.slots n ∧
      ∀ i, meaning V i = meaning x.Rvc i := by
  unfold VarState.slots
  by_cases empty : x.Rvc.length = 0
  · obtain ⟨V,made,length,entries⟩ := newVectorClock_spec cpp x.Rvc n
    refine ⟨V,by rw [if_pos empty,made],by rw [if_pos empty,length],fun i => ?_⟩
    rw [entries,meaning_out (by omega)]
  · exact ⟨x.Rvc,by rw [if_neg empty],by rw [if_neg empty],fun _ => rfl⟩

theorem ftWrite_same (same : x.W = t.epoch) : ftWrite cpp x t = some (x,false) := by simp [ftWrite,same]

theorem readersAhead_spec (x : VarState) (t : ThreadState) (start : Bool) : ∃ b, readersAhead cpp x t start = some b ∧
    (b = true ↔ start = true ∨ ∃ u, ReaderAhead x t u) := by
  unfold readersAhead ReaderAhead
  have inRvc := Nat.min_le_left x.Rvc.length t.C.length
  have inC := Nat.min_le_right x.Rvc.length t.C.length
  generalize min x.Rvc.length t.C.length = n at inRvc inC ⊢
  induction n with
  | zero => exact ⟨start,rfl,by simp⟩
  | succ n ih =>
    obtain ⟨b,ran,verdict⟩ := ih (Nat.le_of_succ_le inRvc) (Nat.le_of_succ_le inC)
    refine ⟨if (meaning t.C n).slt (meaning x.Rvc n) then true else b,?_,?_⟩
    · rw [List.range_succ,List.foldlM_append,ran]
      simp [get_in cpp (show n < x.Rvc.length by omega),get_in cpp (show n < t.C.length by omega)]
    · constructor
      · intro set
        split at set
        · rename_i ahead; exact .inr ⟨n,Nat.lt_succ_self n,ahead⟩
        · exact (verdict.mp set).imp_right fun ⟨u,bound,ahead⟩ => ⟨u,Nat.lt_succ_of_lt bound,ahead⟩
      · intro cause
        split
        · rfl
        · rename_i behind
          refine verdict.mpr (cause.imp_right fun ⟨u,bound,ahead⟩ => ⟨u,?_,ahead⟩)
          have other : u ≠ n := by rintro rfl; exact behind ahead
          omega

theorem read_step (room : ReadRoom n x t) : ∃ x' b, ftRead cpp n x t = some (x',b) ∧ ReadStep n x t x' ∧
    (b = true ↔ ReadRaces x t) := by
  unfold ftRead ReadRaces
  by_cases racy : x.Racy = true
  · exact ⟨x,false,by rw [if_pos racy],.racy racy,by simp [VarState.Passes,racy]⟩
  rw [if_neg racy]
  by_cases same : x.R = t.epoch
  · exact ⟨x,false,by rw [if_pos same],.same same,by simp [VarState.Passes,same]⟩
  obtain ⟨b,ahead,verdict⟩ := aheadOf_late cpp room.write
  have passes : x.Passes t := ⟨by simpa using racy,same⟩
  have reports : b = true ↔ x.Passes t ∧ Late x.W t := by rw [verdict,and_iff_right passes]
  rw [if_neg same,ahead,Option.bind_eq_bind,Option.bind_some]
  by_cases shared : x.R = READ_SHARED
  · have inside := room.shared passes shared
    refine ⟨_,b,?_,.shared shared inside,reports⟩
    rw [if_pos shared,set_in cpp inside]
    rfl
  rw [if_neg shared,get_in cpp (room.read shared),Option.bind_eq_bind,Option.bind_some]
  by_cases seen : x.R.sle (meaning t.C (TID x.R)) = true
  · exact ⟨_,b,by rw [if_pos seen],.exclusive shared seen,reports⟩
  have unseen : x.Unseen t := ⟨shared,seen⟩
  obtain ⟨V,opened,length,entries⟩ := slots_opened cpp x n
  obtain ⟨inside,earlier⟩ := room.share passes unseen
  rw [← length] at inside earlier
  refine ⟨_,b,?_,.share unseen length entries inside earlier,reports⟩
  rw [if_neg seen,opened,Option.bind_eq_bind,Option.bind_some,set_in cpp earlier,Option.bind_some,
    set_in cpp (show t.tid < (V.set (TID x.R) x.R).length by simpa using inside)]
  rfl

theorem write_step (room : WriteRoom x t) : ∃ x' b, ftWrite cpp x t = some (x',b) ∧ WriteStep x t x' ∧
    (b = true ↔ WriteRaces x t) := by
  unfold ftWrite WriteRaces
  by_cases racy : x.Racy = true
  · exact ⟨x,false,by rw [if_pos racy],.racy racy,by simp [racy]⟩
  rw [if_neg racy]
  by_cases same : x.W = t.epoch
  · exact ⟨x,false,by rw [if_pos same],.same same,by simp [same]⟩
  obtain ⟨b,ahead,verdict⟩ := aheadOf_late cpp room.write
  have quiet : x.Racy = false := by simpa using racy
  rw [if_neg same,ahead,Option.bind_eq_bind,Option.bind_some]
  by_cases shared : x.R = READ_SHARED
  · obtain ⟨b',ran,verdict'⟩ := readersAhead_spec cpp x t b
    refine ⟨_,b',by rw [if_neg (not_not.mpr shared),ran]; rfl,.shared shared,?_⟩
    rw [verdict',verdict,if_pos shared]
    simp [quiet,same]
  · obtain ⟨b',aheadR,verdict'⟩ := aheadOf_late cpp (room.read shared)
    refine ⟨_,b || b',by rw [if_pos shared,aheadR]; rfl,.exclusive shared,?_⟩
    rw [Bool.or_eq_true,verdict,verdict',if_neg shared]
    simp [quiet,same]

end Checks
end EmbedSanitizer
