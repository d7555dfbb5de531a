import Mathlib.Data.List.Basic

namespace Parentheses
variable {α : Type*} [DecidableEq α]

-- The brackets that are open after a symbol, where n are before it; none where it
-- closes one that is not open.
def step (l r : α) (n : ℕ) (c : α) : Option ℕ :=
  if c = l then some (n+1)
  else if c = r then match n with
    | 0 => none
    | n+1 => some n
  else some n

def depth (l r : α) (n : ℕ) (s : List α) : Option ℕ := s.foldlM (step l r) n

def Balanced (l r : α) (s : List α) : Prop := depth l r 0 s = some 0

instance (l r : α) (s : List α) : Decidable (Balanced l r s) := inferInstanceAs (Decidable (depth l r 0 s = some 0))

variable {l r c : α} {s t p q : List α} {n m : ℕ}

theorem depth_cons : depth l r n (c :: s) = (step l r n c).bind (depth l r · s) := List.foldlM_cons

theorem depth_append : depth l r n (s ++ t) = (depth l r n s).bind (depth l r · t) := List.foldlM_append

theorem step_under (k : ℕ) (stepped : step l r n c = some m) : step l r (n+k) c = some (m+k) := by
  unfold step at stepped ⊢
  split at stepped
  · rename_i opens
    cases stepped
    rw [if_pos opens,Nat.add_right_comm]
  rename_i other
  rw [if_neg other]
  split at stepped
  · rename_i closes
    rw [if_pos closes]
    cases n with
    | zero => cases stepped
    | succ n => cases stepped; rw [Nat.add_right_comm]
  · rename_i plain
    cases stepped
    rw [if_neg plain]

theorem depth_under (k : ℕ) (found : depth l r n s = some m) : depth l r (n+k) s = some (m+k) := by
  induction s generalizing n with
  | nil => cases found; rfl
  | cons c rest ih =>
    rw [depth_cons] at found ⊢
    obtain ⟨i,first,later⟩ := Option.bind_eq_some_iff.mp found
    rw [step_under k first]
    exact ih later

theorem open_unbalanced (balanced : Balanced l r p) (q : List α) : ¬ Balanced l r (q ++ l :: p) := by
  intro whole
  unfold Balanced at balanced whole
  rw [depth_append] at whole
  obtain ⟨n,_,rest⟩ := Option.bind_eq_some_iff.mp whole
  have opened : step l r n l = some (n+1) := if_pos rfl
  have under := depth_under (n+1) balanced
  rw [depth_cons,opened,Option.bind_some,← Nat.zero_add (n+1),under] at rest
  cases rest

omit [DecidableEq α] in
-- One symbol is met at one place where neither rest is met again inside the other.
theorem place_unique (left : ∀ x, p ≠ x ++ c :: q) (right : ∀ x, q ≠ x ++ c :: p) (same : s ++ c :: p = t ++ c :: q) : s = t := by
  rcases List.append_eq_append_iff.mp same with ⟨x,rfl,later⟩ | ⟨x,rfl,later⟩
  · cases x with
    | nil => simp
    | cons d x =>
      cases later
      exact absurd rfl (left x)
  · cases x with
    | nil => simp
    | cons d x =>
      cases later
      exact absurd rfl (right x)

theorem opening_unique (balanced : Balanced l r p) (balanced' : Balanced l r q) (same : s ++ l :: p = t ++ l :: q) : s = t := by
  apply place_unique _ _ same
  · rintro x rfl
    exact open_unbalanced balanced' x balanced
  · rintro x rfl
    exact open_unbalanced balanced x balanced'

omit [DecidableEq α] in
theorem last_unique (absent : c ∉ p) (absent' : c ∉ q) (same : s ++ c :: p = t ++ c :: q) : s = t := by
  apply place_unique _ _ same
  · rintro x rfl
    simp at absent
  · rintro x rfl
    simp at absent'

end Parentheses
