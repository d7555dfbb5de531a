import EmbedSanitizer.CellRefinement
import EmbedSanitizer.DetectorRuns

namespace EmbedSanitizer
open ThreadEvents EpochDetector

structure DetectorSim (s : Runtime) (σ : Detector ThreadID Address Address) : Prop where
  clocks : ClockSim s σ.clocks
  bounded : s.slot.Bounded
  counted : ∀ id k, s.slot id = some k → k < s.NumThreads
  opened : ∀ a x, s.Vstates.find a = some x → ∃ c, σ.cells a = some c ∧ CellSim s.slot x c
  unopened : ∀ a, s.Vstates.find a = none → σ.cells a = none

section Accesses
variable (cpp : Cpp) {s : Runtime} {σ : Detector ThreadID Address Address} {id : ThreadID} {t : ThreadState}

theorem DetectorSim.stands (sim : DetectorSim s σ) (unspent : s.Unspent) (found : s.TS.find id = some t) :
    Stands s.slot id t (σ.clocks (.thread id)) :=
  ⟨sim.clocks.apart,sim.bounded,slot_of found,sim.clocks.threads id t found,unspent id t found⟩

theorem getVarState_sim (sim : DetectorSim s σ) (unspent : s.Unspent) (found : s.TS.find id = some t) (kind : Access)
    (a : Address) : ∃ x Vstates, getVarState cpp s id a kind.opensWriting = some {s with Vstates} ∧
      Vstates.find a = some x ∧ CellSim s.slot x (σ.cell id kind a) ∧ ∀ b, b ≠ a → Vstates.find b = s.Vstates.find b := by
  unfold getVarState
  cases held : s.Vstates.find a with
  | some x =>
    obtain ⟨c,cell,related⟩ := sim.opened a x held
    exact ⟨x,s.Vstates,rfl,held,by simpa [Detector.cell,cell] using related,fun _ _ => rfl⟩
  | none =>
    have fresh := fresh_sim (sim.stands unspent found) kind
    have cell : σ.cell id kind a = .fresh id (σ.clocks (.thread id)) kind := by
      simp [Detector.cell,sim.unopened a held]
    refine ⟨_,s.Vstates.insert a _,?_,UnorderedMap.find_insert_self ..,cell ▸ fresh,?_⟩
    · simp [getState_registered cpp ⟨t,found⟩,found]
    · intro b other; simp [other]

theorem evaluate_access (known : s.Registered id) (kind : Access) (a : Address)
    {Vstates : UnorderedMap Address VarState} (opened : getVarState cpp s id a kind.opensWriting = some {s with Vstates}) :
    cpp.evaluate (getVarState cpp · id a kind.opensWriting) (getState cpp · id) s = some {s with Vstates} := by
  have still : ({s with Vstates} : Runtime).Registered id := known
  unfold Cpp.evaluate
  split <;> simp [opened,getState_registered cpp known,getState_registered cpp still]

theorem detectorSim_store (sim : DetectorSim s σ) {Vstates : UnorderedMap Address VarState} {a : Address} {x : VarState}
    {kind : Access} (others : ∀ b, b ≠ a → Vstates.find b = s.Vstates.find b)
    (related : CellSim s.slot x ((σ.cell id kind a).after kind id (σ.clocks (.thread id)))) (reads writes : CInt) :
    DetectorSim {s with Vstates := Vstates.insert a x, reads, writes} (σ.step (.access id kind a)) where
  clocks := ⟨sim.clocks.apart,sim.clocks.threads,sim.clocks.locks⟩
  bounded := sim.bounded
  counted := sim.counted
  opened := by
    intro b y at_b
    by_cases same : b = a
    · subst same
      have equal : x = y := by simpa using at_b
      subst equal
      exact ⟨_,by simp [Detector.step],related⟩
    · have kept : s.Vstates.find b = some y := by simpa [same,others b same] using at_b
      obtain ⟨c,cell,related⟩ := sim.opened b y kept
      exact ⟨c,by simpa [Detector.step,same] using cell,related⟩
  unopened := by
    intro b at_b
    by_cases same : b = a
    · subst same; simp at at_b
    · have kept : s.Vstates.find b = none := by simpa [same,others b same] using at_b
      simpa [Detector.step,same] using sim.unopened b kept

theorem access_step (sim : DetectorSim s σ) (unspent : s.Unspent) (known : s.Registered id) (kind : Access) (a : Address) :
    ∃ s' b, perform cpp s (.access id kind a) = some (s',b) ∧ DetectorSim s' (σ.step (.access id kind a)) ∧
      s'.slot = s.slot ∧ s'.isConcurrent = s.isConcurrent ∧ (b = true ↔ σ.Reports (.access id kind a)) := by
  obtain ⟨t,found⟩ := known
  obtain ⟨x,Vstates,opened,held,related,others⟩ := getVarState_sim cpp sim unspent found kind a
  have evaluated := evaluate_access cpp ⟨t,found⟩ kind a opened
  have stands := sim.stands unspent found
  cases kind with
  | read =>
    obtain ⟨x',b,ran,related',verdict⟩ := ftRead_sim cpp stands related sim.counted
    refine ⟨{s with Vstates := Vstates.insert a x', reads := s.reads + 1},b,?_,
      detectorSim_store sim others related' _ _,rfl,rfl,verdict⟩
    unfold Access.opensWriting at evaluated
    simp [perform,callRead,evaluated,held,found,ran]
  | write =>
    obtain ⟨x',b,ran,related',verdict⟩ := ftWrite_sim cpp stands related
    refine ⟨{s with Vstates := Vstates.insert a x', writes := s.writes + 1},b,?_,
      detectorSim_store sim others related' _ _,rfl,rfl,verdict⟩
    unfold Access.opensWriting at evaluated
    simp [perform,callWrite,evaluated,held,found,ran]
  | update =>
    obtain ⟨x',b,ran,related',verdict⟩ := ftWrite_sim cpp stands related
    refine ⟨{s with Vstates := Vstates.insert a x', writes := s.writes + 1},b,?_,
      detectorSim_store sim others related' _ _,rfl,rfl,verdict⟩
    unfold Access.opensWriting at evaluated
    simp [perform,callWrite,evaluated,held,found,ran]

theorem detector_step (sim : DetectorSim s σ) (unspent : s.Unspent) {e : Event} (named : ∀ t ∈ threadsOf e, s.Registered t) :
    ∃ s' b, perform cpp s e = some (s',b) ∧ DetectorSim s' (σ.step e) ∧ s'.slot = s.slot ∧
      s'.isConcurrent = concurrentAfter s.isConcurrent e ∧ (b = true ↔ σ.Reports e) := by
  by_cases access : IsAccess e
  · obtain ⟨id,kind,a,rfl⟩ := access
    obtain ⟨s',b,ran,sim',slots,counter,verdict⟩ := access_step cpp sim unspent (named id (by simp [threadsOf])) kind a
    exact ⟨s',b,ran,sim',slots,counter,verdict⟩
  · obtain ⟨s',ran,clocks,frame,counter⟩ := clock_step cpp sim.clocks unspent named access
    have kept : (σ.step e).cells = σ.cells ∧ ¬ σ.Reports e := by
      cases e with
      | access t kind a => exact absurd ⟨t,kind,a,rfl⟩ access
      | _ => exact ⟨rfl,id⟩
    refine ⟨s',false,ran,⟨clocks,?_,?_,?_,?_⟩,frame.slots,counter,by simp [kept.2]⟩
    · rw [frame.slots]; exact sim.bounded
    · rw [frame.slots,frame.NumThreads]; exact sim.counted
    · rw [frame.slots,frame.Vstates,kept.1]; exact sim.opened
    · rw [frame.Vstates,kept.1]; exact sim.unopened

end Accesses

section Runs
variable (cpp : Cpp)

-- No clock reaches 0xFFFFFF in any state that the run passes through.
def Spare (s : Runtime) : List Event → Prop
  | [] => s.Unspent
  | e :: rest => s.Unspent ∧ ∀ s' verdict, perform cpp s e = some (s',verdict) → Spare s' rest

def Named (s : Runtime) (tr : List Event) : Prop := ∀ e ∈ tr, ∀ t ∈ threadsOf e, s.Registered t

variable {cpp} {s s' : Runtime}

theorem registered_iff {id : ThreadID} : s.Registered id ↔ ∃ k, s.slot id = some k := by
  unfold Runtime.Registered Runtime.slot
  cases s.TS.find id <;> simp

theorem named_slots (same : s'.slot = s.slot) {tr : List Event} (named : Named s tr) : Named s' tr := by
  intro e member t mem
  rw [registered_iff,same,← registered_iff]
  exact named e member t mem

theorem Spare.unspent {tr : List Event} (spare : Spare cpp s tr) : s.Unspent := by
  cases tr with
  | nil => exact spare
  | cons e rest => exact spare.1

-- A run is defined and stands for the abstract run, verdict by verdict.
theorem run_sim {σ : Detector ThreadID Address Address} (sim : DetectorSim s σ) (tr : List Event) (named : Named s tr)
    (spare : Spare cpp s tr) : ∃ s' verdicts, performAll cpp s tr = some (s',verdicts) ∧
      DetectorSim s' (tr.foldl Detector.step σ) ∧ s'.slot = s.slot ∧
      ∀ k e, tr[k]? = some e → (verdicts[k]? = some true ↔ ((tr.take k).foldl Detector.step σ).Reports e) := by
  induction tr generalizing s σ with
  | nil => exact ⟨s,[],rfl,sim,rfl,by simp⟩
  | cons e rest ih =>
    obtain ⟨s₁,b,ran,sim₁,slots₁,_,verdict⟩ := detector_step cpp sim spare.1 (named e List.mem_cons_self)
    have named₁ : Named s₁ rest := named_slots slots₁ fun d member => named d (List.mem_cons_of_mem _ member)
    obtain ⟨s',verdicts,rest_ran,sim',slots',rest_verdicts⟩ := ih sim₁ named₁ (spare.2 s₁ b ran)
    refine ⟨s',b :: verdicts,by simp [performAll,ran,rest_ran],sim',slots'.trans slots₁,fun k d found => ?_⟩
    cases k with
    | zero =>
      have same : e = d := by simpa using found
      subst same
      simpa using verdict
    | succ k => simpa using rest_verdicts k d (by simpa using found)

end Runs

def RaceReported (tr : List Event) (verdicts : List Bool) (a : Address) : Prop :=
  ∃ (k : ℕ) (e : Event), tr[k]? = some e ∧ e.Touches a ∧ verdicts[k]? = some true

end EmbedSanitizer
