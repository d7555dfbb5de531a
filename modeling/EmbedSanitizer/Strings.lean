import Mathlib.Data.List.Infix

namespace Strings
variable {α : Type*} [DecidableEq α]

-- Where the pattern first begins; std::string::npos is none.
def find (pattern : List α) : List α → Option ℕ
  | [] => if pattern = [] then some 0 else none
  | c :: rest => if pattern <+: c :: rest then some 0 else (find pattern rest).map (· + 1)

variable {pattern s t : List α} {c : α}

theorem find_isSome : (find pattern s).isSome ↔ pattern <:+: s := by
  induction s with
  | nil =>
    unfold find
    split <;> simp_all
  | cons d rest ih =>
    unfold find
    rw [List.infix_cons_iff]
    split
    · rename_i now; simp [now]
    · rename_i later; simp [later,ih]

theorem find_first (absent : c ∉ s) : find [c] (s ++ c :: t) = some s.length := by
  induction s with
  | nil => simp [find]
  | cons d rest ih =>
    have other : c ≠ d := fun same => absent (same ▸ List.mem_cons_self)
    have later : c ∉ rest := fun member => absent (List.mem_cons_of_mem _ member)
    rw [List.cons_append,find,if_neg (by simpa using other),ih later]
    rfl

theorem find_within (present : c ∈ s) : ∃ i, find [c] (s ++ t) = some i ∧ i < s.length := by
  obtain ⟨before,after,rfl,absent⟩ := List.eq_append_cons_of_mem present
  refine ⟨before.length,?_,by simp⟩
  rw [List.append_assoc,List.cons_append]
  exact find_first absent

theorem take_find {i : ℕ} (found : find [c] (s ++ c :: t) = some i) : (s ++ c :: t).take i = s ↔ c ∉ s := by
  by_cases present : c ∈ s
  · obtain ⟨j,first,short⟩ := find_within (t := c :: t) present
    cases found.symm.trans first
    have other : (s ++ c :: t).take i ≠ s := by
      intro same
      have lengths := congrArg List.length same
      rw [List.length_take,List.length_append] at lengths
      omega
    simp [other,present]
  · cases found.symm.trans (find_first present)
    simp [present]

end Strings
