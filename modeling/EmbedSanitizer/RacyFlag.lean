import EmbedSanitizer.AccessSteps
import EmbedSanitizer.CallbackRuns
import EmbedSanitizer.Preparation

namespace EmbedSanitizer
open ThreadEvents PartialRuns

def RacyRead (cpp : Cpp) (x : VarState) (t : ThreadState) : Prop :=
  x.Racy = false ∧ x.R ≠ t.epoch ∧ aheadOf cpp x.W t = some true

def RacyWrite (cpp : Cpp) (x : VarState) (t : ThreadState) : Prop :=
  x.Racy = false ∧ x.W ≠ t.epoch ∧
    (aheadOf cpp x.W t = some true ∨ if x.R = READ_SHARED then ∃ u, ReaderAhead x t u else aheadOf cpp x.R t = some true)

def racyCheck (cpp : Cpp) : Access → VarState → ThreadState → Prop
  | .read => RacyRead cpp
  | .write | .update => RacyWrite cpp

section Checks
variable {cpp : Cpp} {x x' : VarState} {t : ThreadState}

theorem ftRead_flag (ran : ftRead cpp n x t = some (x',b)) : x'.Racy = x.Racy ∧ (b = true ↔ RacyRead cpp x t) := by
  unfold ftRead at ran
  unfold RacyRead
  by_cases racy : x.Racy = true
  · rw [if_pos racy] at ran
    cases ran
    simp [racy]
  rw [if_neg racy] at ran
  by_cases same : x.R = t.epoch
  · rw [if_pos same] at ran
    cases ran
    simp [same]
  rw [if_neg same] at ran
  obtain ⟨ahead,found,ran⟩ := bind_some ran
  have reports : ahead = true ↔ x.Racy = false ∧ x.R ≠ t.epoch ∧ aheadOf cpp x.W t = some true := by
    rw [found]
    simp [racy,same]
  split at ran
  · obtain ⟨Rvc,_,ran⟩ := bind_some ran
    cases ran
    exact ⟨rfl,reports⟩
  · obtain ⟨c,_,ran⟩ := bind_some ran
    split at ran
    · cases ran
      exact ⟨rfl,reports⟩
    · obtain ⟨V,_,ran⟩ := bind_some ran
      obtain ⟨V',_,ran⟩ := bind_some ran
      obtain ⟨Rvc,_,ran⟩ := bind_some ran
      cases ran
      exact ⟨rfl,reports⟩

theorem ftWrite_flag (ran : ftWrite cpp x t = some (x',b)) : x'.Racy = x.Racy ∧ (b = true ↔ RacyWrite cpp x t) := by
  unfold ftWrite at ran
  unfold RacyWrite
  by_cases racy : x.Racy = true
  · rw [if_pos racy] at ran
    cases ran
    simp [racy]
  rw [if_neg racy] at ran
  by_cases same : x.W = t.epoch
  · rw [if_pos same] at ran
    cases ran
    simp [same]
  rw [if_neg same] at ran
  obtain ⟨ahead,found,ran⟩ := bind_some ran
  rw [found]
  by_cases shared : x.R = READ_SHARED
  · rw [if_neg (not_not.mpr shared)] at ran
    obtain ⟨b',readers,ran⟩ := bind_some ran
    cases ran
    obtain ⟨b₂,ran₂,verdict⟩ := readersAhead_spec cpp x t ahead
    cases readers.symm.trans ran₂
    rw [if_pos shared]
    refine ⟨rfl,verdict.trans ?_⟩
    simp [racy,same]
  · rw [if_pos shared] at ran
    obtain ⟨read,foundR,ran⟩ := bind_some ran
    cases ran
    rw [if_neg shared,foundR]
    simp [racy,same]

end Checks

section Frames
variable {cpp : Cpp} {s s' : Runtime} {id : ThreadID}

theorem getState_vars (ran : getState cpp s id = some s') : s'.Vstates = s.Vstates := by
  obtain ⟨TS,n,rfl⟩ := getState_frame ran
  rfl

theorem getLockState_vars (ran : getLockState cpp s lock = some s') : s'.Vstates = s.Vstates := by
  obtain ⟨LS,rfl,_⟩ := getLockState_frame ran
  rfl

theorem evaluate_vars (ran : cpp.evaluate (getState cpp · t) (getState cpp · u) s = some s') : s'.Vstates = s.Vstates :=
  evaluate_keeps Runtime.Vstates (fun _ _ => getState_vars) (fun _ _ => getState_vars) ran

theorem mutex_vars (ran : tsanThreadLock cpp s t m = some s' ∨ tsanThreadUnlock cpp s t m = some s') : s'.Vstates = s.Vstates := by
  obtain ⟨s₁,TS,l,evaluated,rfl⟩ := mutex_frame ran
  have start : s₁.Vstates = s.Vstates := evaluate_keeps Runtime.Vstates (fun _ _ => getState_vars) (fun _ _ => getLockState_vars) evaluated
  exact start

theorem silent_vars {e : Event} (silent : ¬ IsAccess e) (ran : perform cpp s e = some (s',b)) : s'.Vstates = s.Vstates := by
  cases e with
  | fork t u =>
    obtain ⟨_,called,same⟩ := Option.map_eq_some_iff.mp ran
    cases same
    obtain ⟨s₁,TS,evaluated,rfl⟩ := create_frame called
    have start := evaluate_vars evaluated
    exact start
  | join t u =>
    obtain ⟨_,called,same⟩ := Option.map_eq_some_iff.mp ran
    cases same
    obtain ⟨s₁,TS,evaluated,rfl⟩ := join_frame called
    have start := evaluate_vars evaluated
    exact start
  | acquire t m =>
    obtain ⟨_,called,same⟩ := Option.map_eq_some_iff.mp ran
    cases same
    exact mutex_vars (.inl called)
  | release t m =>
    obtain ⟨_,called,same⟩ := Option.map_eq_some_iff.mp ran
    cases same
    exact mutex_vars (.inr called)
  | access t kind a => exact absurd ⟨t,kind,a,rfl⟩ silent
  | skip t => cases ran; rfl

end Frames

def opensAs : Access → Bool
  | .write => true
  | .read | .update => false

def enterAccess (cpp : Cpp) (s : Runtime) (self : ThreadID) (kind : Access) (a : Address) : Option Runtime :=
  cpp.evaluate (getVarState cpp · self a (opensAs kind)) (getState cpp · self) s

-- On entering its check the event takes one of the branches that report.
def RacyBranch (cpp : Cpp) (s : Runtime) : Event → Prop
  | .access self kind a => ∃ s₁ x t, enterAccess cpp s self kind a = some s₁ ∧ s₁.Vstates.find a = some x ∧
      s₁.TS.find self = some t ∧ racyCheck cpp kind x t
  | _ => False

def Runtime.Unflagged (s : Runtime) : Prop := ∀ a x, s.Vstates.find a = some x → x.Racy = false

section Accesses
variable {cpp : Cpp} {s s' : Runtime} {self : ThreadID} {kind : Access}

theorem callWrite_flag (ran : callWrite cpp s self a isWrite = some (s',b)) : ∃ s₁ x t x',
    cpp.evaluate (getVarState cpp · self a isWrite) (getState cpp · self) s = some s₁ ∧ s₁.Vstates.find a = some x ∧
    s₁.TS.find self = some t ∧ s'.Vstates = s₁.Vstates.insert a x' ∧ x'.Racy = x.Racy ∧ (b = true ↔ RacyWrite cpp x t) := by
  obtain ⟨s₁,entered,ran⟩ := bind_some ran
  obtain ⟨x,found,ran⟩ := bind_some ran
  obtain ⟨t,foundT,ran⟩ := bind_some ran
  obtain ⟨⟨x',b'⟩,checked,ran⟩ := bind_some ran
  cases ran
  obtain ⟨flag,verdict⟩ := ftWrite_flag checked
  exact ⟨s₁,x,t,x',entered,found,foundT,rfl,flag,verdict⟩

theorem perform_access (ran : perform cpp s (.access self kind a) = some (s',b)) : ∃ s₁ x t x', enterAccess cpp s self kind a = some s₁ ∧
    s₁.Vstates.find a = some x ∧ s₁.TS.find self = some t ∧ s'.Vstates = s₁.Vstates.insert a x' ∧ x'.Racy = x.Racy ∧
    (b = true ↔ racyCheck cpp kind x t) := by
  cases kind with
  | read =>
    obtain ⟨s₁,entered,ran⟩ := bind_some ran
    obtain ⟨x,found,ran⟩ := bind_some ran
    obtain ⟨t,foundT,ran⟩ := bind_some ran
    obtain ⟨⟨x',b'⟩,checked,ran⟩ := bind_some ran
    cases ran
    obtain ⟨flag,verdict⟩ := ftRead_flag checked
    exact ⟨s₁,x,t,x',entered,found,foundT,rfl,flag,verdict⟩
  | write => exact callWrite_flag ran
  | update => exact callWrite_flag ran

theorem getVarState_unflagged (clear : s.Unflagged) (ran : getVarState cpp s self a isWrite = some s') : s'.Unflagged := by
  unfold getVarState at ran
  split at ran
  · cases ran
    exact clear
  · obtain ⟨s₁,registered,ran⟩ := bind_some ran
    obtain ⟨t,_,ran⟩ := bind_some ran
    cases ran
    have clear₁ : s₁.Unflagged := by
      unfold Runtime.Unflagged
      rw [getState_vars registered]
      exact clear
    refine UnorderedMap.insert_all clear₁ ?_ a
    split <;> rfl

theorem enterAccess_unflagged (clear : s.Unflagged) (ran : enterAccess cpp s self kind a = some s') : s'.Unflagged := by
  have registers : ∀ s s' : Runtime, s.Unflagged → getState cpp s self = some s' → s'.Unflagged := by
    intro s s' clear ran
    unfold Runtime.Unflagged
    rw [getState_vars ran]
    exact clear
  unfold enterAccess Cpp.evaluate at ran
  split at ran
  · obtain ⟨s₁,first,second⟩ := bind_some ran
    exact registers _ _ (getVarState_unflagged clear first) second
  · obtain ⟨s₁,first,second⟩ := bind_some ran
    exact getVarState_unflagged (registers _ _ clear first) second

theorem perform_unflagged {e : Event} (clear : s.Unflagged) (ran : perform cpp s e = some (s',b)) : s'.Unflagged := by
  by_cases access : IsAccess e
  · obtain ⟨self,kind,a,rfl⟩ := access
    obtain ⟨s₁,x,t,x',entered,found,_,vars,flag,_⟩ := perform_access ran
    have clear₁ := enterAccess_unflagged clear entered
    unfold Runtime.Unflagged
    rw [vars]
    exact UnorderedMap.insert_all clear₁ (flag.trans (clear₁ a x found)) a
  · unfold Runtime.Unflagged
    rw [silent_vars access ran]
    exact clear

theorem silent_verdict {e : Event} (silent : ¬ IsAccess e) (ran : perform cpp s e = some (s',b)) : b = false := by
  cases e with
  | access t kind a => exact absurd ⟨t,kind,a,rfl⟩ silent
  | skip t => cases ran; rfl
  | _ =>
    obtain ⟨_,_,same⟩ := Option.map_eq_some_iff.mp ran
    cases same
    rfl

theorem verdict_iff {e : Event} (ran : perform cpp s e = some (s',b)) : b = true ↔ RacyBranch cpp s e := by
  by_cases access : IsAccess e
  · obtain ⟨self,kind,a,rfl⟩ := access
    obtain ⟨s₁,x,t,x',entered,found,foundT,_,_,verdict⟩ := perform_access ran
    rw [verdict]
    constructor
    · exact fun races => ⟨s₁,x,t,entered,found,foundT,races⟩
    · rintro ⟨s₂,y,u,entered₂,foundY,foundU,races⟩
      cases entered.symm.trans entered₂
      cases found.symm.trans foundY
      cases foundT.symm.trans foundU
      exact races
  · have none : ¬ RacyBranch cpp s e := by
      cases e with
      | access t kind a => exact absurd ⟨t,kind,a,rfl⟩ access
      | _ => exact not_false
    simp [silent_verdict access ran,none]

end Accesses

def Runtime.races (s : Runtime) : ℕ := s.Vstates.keys.countP fun a => (s.Vstates.find a).any (·.Racy)

section Reports
variable (tr : List Event) (verdicts : List Bool)

def ReportsAt (a : Address) (k : ℕ) : Prop := ∃ e, tr[k]? = some e ∧ e.Touches a ∧ verdicts[k]? = some true

def addressOf : Event → Option Address
  | .access _ _ a => some a
  | _ => none

def reportedAddresses : List Address := ((tr.zip verdicts).filterMap fun p => if p.2 then addressOf p.1 else none).dedup

end Reports

-- Each address is reported once, flagged from then on, and counted.
structure ReportsOnce (cpp : Cpp) (s : Runtime) (tr : List Event) (s' : Runtime) (verdicts : List Bool) : Prop where
  once : ∀ a i j, ReportsAt tr verdicts a i → ReportsAt tr verdicts a j → i = j
  flagged : ∀ a i k s₁ bs, ReportsAt tr verdicts a i → i < k → performAll cpp s (tr.take k) = some (s₁,bs) →
    ∃ x, s₁.Vstates.find a = some x ∧ x.Racy = true
  counted : s'.races = (reportedAddresses tr verdicts).length

section Runs
variable {cpp : Cpp} {s s' : Runtime} {tr : List Event}

theorem unflagged_races (clear : s.Unflagged) : s.races = 0 := by
  refine List.countP_eq_zero.mpr fun a _ => ?_
  cases found : s.Vstates.find a with
  | none => simp
  | some x => simp [clear a x found]

theorem nothing_reported (none : ∀ a k, ¬ ReportsAt tr verdicts a k) : reportedAddresses tr verdicts = [] := by
  unfold reportedAddresses
  have empty : ((tr.zip verdicts).filterMap fun p => if p.2 then addressOf p.1 else Option.none) = [] := by
    rw [List.filterMap_eq_nil_iff]
    rintro ⟨e,b⟩ member
    obtain ⟨k,found⟩ := List.mem_iff_getElem?.mp member
    obtain ⟨at_e,at_b⟩ := List.getElem?_zip_eq_some.mp found
    cases b with
    | false => rfl
    | true =>
      cases e with
      | access t kind a => exact absurd ⟨_,at_e,⟨t,kind,rfl⟩,at_b⟩ (none a k)
      | _ => rfl
  rw [empty]
  rfl

end Runs

-- The racy flag of an address is never set, so a completed run keeps to this exactly
-- when none of its accesses takes a branch that reports.
theorem reports_once {cpp : Cpp} {s s' : Runtime} (clear : s.Unflagged) {tr : List Event} {verdicts : List Bool}
    (ran : performAll cpp s tr = some (s',verdicts)) : ReportsOnce cpp s tr s' verdicts ↔
      ∀ k e s₁ bs, tr[k]? = some e → performAll cpp s (tr.take k) = some (s₁,bs) → ¬ RacyBranch cpp s₁ e := by
  have whole := ran
  rw [performAll_runAll] at whole
  constructor
  · intro law k e s₁ bs found before branch
    rw [performAll_runAll] at before
    obtain ⟨s₂,bs₂,s₃,b,before₂,performed,answer⟩ := runAll_at whole found
    cases before.symm.trans before₂
    have verdict := (verdict_iff performed).mpr branch
    subst verdict
    obtain ⟨a,touches⟩ : ∃ a, e.Touches a := by
      cases e with
      | access t kind a => exact ⟨a,t,kind,rfl⟩
      | _ => exact branch.elim
    have bound := (List.getElem?_eq_some_iff.mp found).1
    obtain ⟨x,at_a,racy⟩ := law.flagged a k tr.length s' verdicts ⟨e,found,touches,answer⟩ bound (by rwa [List.take_length])
    have unflagged : s'.Unflagged := runAll_keeps (fun _ _ _ _ clear ran => perform_unflagged clear ran) clear whole
    cases racy.symm.trans (unflagged a x at_a)
  · intro quiet
    have none : ∀ a k, ¬ ReportsAt tr verdicts a k := by
      rintro a k ⟨e,found,_,reported⟩
      obtain ⟨s₁,bs,s₂,b,before,performed,answer⟩ := runAll_at whole found
      cases reported.symm.trans answer
      exact quiet k e s₁ bs found (by rw [performAll_runAll]; exact before) ((verdict_iff performed).mp rfl)
    have unflagged : s'.Unflagged := runAll_keeps (fun _ _ _ _ clear ran => perform_unflagged clear ran) clear whole
    refine ⟨fun a i _ reports => absurd reports (none a i),fun a i _ _ _ reports => absurd reports (none a i),?_⟩
    rw [unflagged_races unflagged,nothing_reported none]
    rfl

theorem reports_once_quiet : ∃ s', performAll (.checked .leftFirst) (.ofThreads [1,2] (by decide)) [.fork 1 2,.access 1 .write 100] =
    some (s',[false,false]) ∧
    ReportsOnce (.checked .leftFirst) (.ofThreads [1,2] (by decide)) [.fork 1 2,.access 1 .write 100] s' [false,false] := by
  have answers : (performAll (.checked .leftFirst) (.ofThreads [1,2] (by decide)) [.fork 1 2,.access 1 .write 100]).map (·.2) =
      some [false,false] := by decide
  obtain ⟨⟨s',verdicts⟩,ran,rfl⟩ := Option.map_eq_some_iff.mp answers
  refine ⟨s',ran,(reports_once (fun _ _ found => by cases found) ran).mpr fun k e s₁ bs found before branch => ?_⟩
  have bound := (List.getElem?_eq_some_iff.mp found).1
  have first : k = 0 ∨ k = 1 := by simp at bound; omega
  rcases first with rfl | rfl
  · cases found
    exact branch
  · cases found
    have answer : ((performAll (.checked .leftFirst) (.ofThreads [1,2] (by decide)) ([.fork 1 2,.access 1 .write 100].take 1)).bind
        fun r => (perform (.checked .leftFirst) r.1 (.access 1 .write 100)).map (·.2)) = some false := by decide
    rw [before] at answer
    obtain ⟨⟨s₂,b⟩,performed,same⟩ := Option.map_eq_some_iff.mp answer
    have reported := (verdict_iff performed).mpr branch
    cases same.symm.trans reported

def racyAccesses : List Event := [.fork 1 2,.access 2 .write 100,.access 1 .read 100,.access 1 .write 100]

theorem reported_twice : (Runtime.ofThreads [1,2] (by decide)).Unflagged ∧
    ∃ s', performAll (.checked .leftFirst) (.ofThreads [1,2] (by decide)) racyAccesses = some (s',[false,false,true,true]) ∧
      s'.races = 0 ∧ reportedAddresses racyAccesses [false,false,true,true] = [100] ∧
      ¬ ReportsOnce (.checked .leftFirst) (.ofThreads [1,2] (by decide)) racyAccesses s' [false,false,true,true] := by
  have answers : (performAll (.checked .leftFirst) (.ofThreads [1,2] (by decide)) racyAccesses).map (fun r => (r.2,r.1.races)) =
      some ([false,false,true,true],0) := by decide
  obtain ⟨⟨s',verdicts⟩,ran,same⟩ := Option.map_eq_some_iff.mp answers
  cases congrArg Prod.fst same
  refine ⟨fun _ _ found => (by cases found),s',ran,congrArg Prod.snd same,by decide,fun law => ?_⟩
  have twice := law.once 100 2 3 ⟨_,rfl,⟨1,.read,rfl⟩,rfl⟩ ⟨_,rfl,⟨1,.write,rfl⟩,rfl⟩
  exact absurd twice (by decide)

end EmbedSanitizer
