import Mathlib.Data.List.Induction

namespace NestedCalls

inductive Crossing (F : Type*) where
  | enter (f : F)
  | leave (f : F)
  deriving DecidableEq, Repr

variable {F : Type*}

-- What runs inside the function o, none where no function is open, and leaves it open:
-- calls that return under their name, and exits under a name that is not o.
inductive Inside : Option F → List (Crossing F) → Prop where
  | start {o : Option F} : Inside o []
  | unmatched {o : Option F} {past : List (Crossing F)} {f : F} (before : Inside o past) (other : o ≠ some f) : Inside o (past ++ [.leave f])
  | returned {o : Option F} {past body : List (Crossing F)} {f : F} (before : Inside o past) (inner : Inside (some f) body) :
      Inside o (past ++ .enter f :: (body ++ [.leave f]))

-- The functions that have been entered and not left by a matching exit, oldest first.
inductive Open : List (Crossing F) → List F → Prop where
  | outermost {past : List (Crossing F)} (outside : Inside none past) : Open past []
  | entered {past body : List (Crossing F)} {fs : List F} {f : F} (before : Open past fs) (inner : Inside (some f) body) :
      Open (past ++ .enter f :: body) (fs ++ [f])

section Rules
variable {o : Option F} {past rest body : List (Crossing F)} {fs : List F} {f : F}

theorem Inside.append (first : Inside o past) (second : Inside o rest) : Inside o (past ++ rest) := by
  induction second with
  | start => simpa using first
  | unmatched before other ih =>
    rw [← List.append_assoc]
    exact .unmatched (ih first) other
  | returned before inner ih _ =>
    rw [← List.append_assoc]
    exact .returned (ih first) inner

theorem Open.append (opened : Open past fs) (inner : Inside fs.getLast? rest) : Open (past ++ rest) fs := by
  cases opened with
  | outermost outside => exact .outermost (outside.append inner)
  | entered before body =>
    rw [List.getLast?_concat] at inner
    rw [List.append_assoc,List.cons_append]
    exact .entered before (body.append inner)

theorem Open.leave (opened : Open past (fs ++ [f])) : Open (past ++ [.leave f]) fs := by
  generalize whole : fs ++ [f] = gs at opened
  cases opened with
  | outermost outside => simp at whole
  | entered before inner =>
    obtain ⟨rfl,same⟩ := List.append_inj' whole rfl
    cases same
    rw [List.append_assoc]
    exact before.append (.returned .start inner)

end Rules

variable [DecidableEq F]

def cross (fs : List F) : Crossing F → List F
  | .enter f => fs ++ [f]
  | .leave f => if fs.getLast? = some f then fs.dropLast else fs

def crossAll (fs : List F) (past : List (Crossing F)) : List F := past.foldl cross fs

section Exact
variable {o : Option F} {past rest : List (Crossing F)} {fs : List F} {f : F}

@[simp] theorem crossAll_append : crossAll fs (past ++ rest) = crossAll (crossAll fs past) rest := List.foldl_append

theorem cross_matched (fs : List F) (f : F) : cross (fs ++ [f]) (.leave f) = fs := by
  have top : (fs ++ [f]).getLast? = some f := List.getLast?_concat ..
  exact (if_pos top).trans List.dropLast_concat

theorem cross_unmatched (other : fs.getLast? ≠ some f) : cross fs (.leave f) = fs := if_neg other

theorem inside_keeps (inner : Inside o past) (top : fs.getLast? = o) : crossAll fs past = fs := by
  induction inner generalizing fs with
  | start => rfl
  | unmatched before other ih =>
    rw [crossAll_append,ih top]
    exact cross_unmatched (top ▸ other)
  | @returned o past body f before inner ih innerIh =>
    have kept : crossAll (fs ++ [f]) body = fs ++ [f] := innerIh (List.getLast?_concat ..)
    rw [crossAll_append,ih top]
    change crossAll (fs ++ [f]) (body ++ [.leave f]) = fs
    rw [crossAll_append,kept]
    exact cross_matched fs f

theorem open_cross (opened : Open past fs) (c : Crossing F) : Open (past ++ [c]) (cross fs c) := by
  cases c with
  | enter f => exact .entered opened .start
  | leave f =>
    by_cases matched : fs.getLast? = some f
    · obtain ⟨gs,rfl⟩ := List.getLast?_eq_some_iff.mp matched
      rw [cross_matched]
      exact opened.leave
    · rw [cross_unmatched matched]
      have left : Inside fs.getLast? ([] ++ [.leave f]) := .unmatched .start matched
      exact opened.append left

theorem open_exact : Open past fs ↔ crossAll [] past = fs := by
  constructor
  · intro opened
    induction opened with
    | outermost outside => exact inside_keeps outside rfl
    | entered before inner ih =>
      rw [crossAll_append,ih]
      exact inside_keeps inner (List.getLast?_concat ..)
  · rintro rfl
    induction past using List.reverseRecOn with
    | nil => exact .outermost .start
    | append_singleton past c ih =>
      rw [crossAll_append]
      exact open_cross ih c

end Exact

end NestedCalls
