import Mathlib.Data.List.Basic

namespace PartialRuns
variable {σ ε β : Type*} (step : σ → ε → Option (σ × β))

-- A sequence of steps, each of which may stop the program, with one answer for each.
def runAll (s : σ) : List ε → Option (σ × List β)
  | [] => some (s,[])
  | e :: rest => (step s e).bind fun r => (runAll r.1 rest).map fun q => (q.1,r.2 :: q.2)

def Always (P : σ → Prop) (s : σ) (tr : List ε) : Prop :=
  ∀ k s' answers, runAll step s (tr.take k) = some (s',answers) → P s'

def EachStep (Q : σ → ε → Prop) (s : σ) (tr : List ε) : Prop :=
  ∀ k e s' answers, tr[k]? = some e → runAll step s (tr.take k) = some (s',answers) → Q s' e

variable {step} {s s' : σ} {e : ε} {rest tr : List ε}

theorem runAll_cons : runAll step s (e :: rest) = some (s',answers) ↔
    ∃ s₁ b bs, step s e = some (s₁,b) ∧ runAll step s₁ rest = some (s',bs) ∧ answers = b :: bs := by
  constructor
  · intro ran
    obtain ⟨⟨s₁,b⟩,first,ran⟩ := Option.bind_eq_some_iff.mp ran
    obtain ⟨⟨s₂,bs⟩,later,same⟩ := Option.map_eq_some_iff.mp ran
    cases same
    exact ⟨s₁,b,bs,first,later,rfl⟩
  · rintro ⟨s₁,b,bs,first,later,rfl⟩
    simp [runAll,first,later]

theorem always_nil {P : σ → Prop} : Always step P s [] ↔ P s := by
  constructor
  · exact fun always => always 0 s [] rfl
  · intro now k s' answers ran
    rw [List.take_nil] at ran
    cases ran
    exact now

theorem eachStep_nil (Q : σ → ε → Prop) : EachStep step Q s [] := fun _ _ _ _ found => by cases found

theorem always_cons {P : σ → Prop} :
    Always step P s (e :: rest) ↔ P s ∧ ∀ s₁ b, step s e = some (s₁,b) → Always step P s₁ rest := by
  constructor
  · intro always
    refine ⟨always 0 s [] rfl,fun s₁ b first k s' bs later => always (k+1) s' (b :: bs) ?_⟩
    exact runAll_cons.mpr ⟨s₁,b,bs,first,later,rfl⟩
  · rintro ⟨now,later⟩ k s' answers ran
    cases k with
    | zero => cases ran; exact now
    | succ k =>
      obtain ⟨s₁,b,bs,first,ran,_⟩ := runAll_cons.mp ran
      exact later s₁ b first k s' bs ran

theorem eachStep_cons {Q : σ → ε → Prop} :
    EachStep step Q s (e :: rest) ↔ Q s e ∧ ∀ s₁ b, step s e = some (s₁,b) → EachStep step Q s₁ rest := by
  constructor
  · intro each
    refine ⟨each 0 e s [] rfl rfl,fun s₁ b first k d s' bs found later => each (k+1) d s' (b :: bs) found ?_⟩
    exact runAll_cons.mpr ⟨s₁,b,bs,first,later,rfl⟩
  · rintro ⟨now,later⟩ k d s' answers found ran
    cases k with
    | zero => cases found; cases ran; exact now
    | succ k =>
      obtain ⟨s₁,b,bs,first,ran,_⟩ := runAll_cons.mp ran
      exact later s₁ b first k d s' bs found ran

theorem runAll_at {k : ℕ} (ran : runAll step s tr = some (s',answers)) (found : tr[k]? = some e) :
    ∃ s₁ bs s₂ b, runAll step s (tr.take k) = some (s₁,bs) ∧ step s₁ e = some (s₂,b) ∧ answers[k]? = some b := by
  induction tr generalizing s k answers with
  | nil => cases found
  | cons d rest ih =>
    obtain ⟨s₁,b,bs,first,later,rfl⟩ := runAll_cons.mp ran
    cases k with
    | zero => cases found; exact ⟨s,[],s₁,b,rfl,first,rfl⟩
    | succ k =>
      obtain ⟨s₂,cs,s₃,c,before,now,answer⟩ := ih later found
      exact ⟨s₂,b :: cs,s₃,c,runAll_cons.mpr ⟨s₁,b,cs,first,before,rfl⟩,now,answer⟩

theorem runAll_keeps {P : σ → Prop} (kept : ∀ s e s' b, P s → step s e = some (s',b) → P s') (start : P s)
    (ran : runAll step s tr = some (s',answers)) : P s' := by
  induction tr generalizing s answers with
  | nil => cases ran; exact start
  | cons e rest ih =>
    obtain ⟨s₁,b,bs,first,later,_⟩ := runAll_cons.mp ran
    exact ih (kept s e s₁ b start first) later

end PartialRuns
