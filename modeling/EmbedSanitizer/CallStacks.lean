import EmbedSanitizer.NestedCalls
import EmbedSanitizer.RaceReport

namespace EmbedSanitizer
open NestedCalls

abbrev CallStack := UnorderedMap ThreadID (List Address)

def CallStack.stackFrame (callStack : CallStack) (tid : ThreadID) : List Address := (callStack.find tid).getD []

def CallStack.lookUp (callStack : CallStack) (tid : ThreadID) : CallStack := callStack.insert tid (callStack.stackFrame tid)

def pushFunction (callStack : CallStack) (tid : ThreadID) (funcName : Address) : CallStack :=
  callStack.insert tid (callStack.stackFrame tid ++ [funcName])

-- What popFunction does to its reference after the critical section, and what it
-- writes to std::cout.
def popBack (text : Address → String) (callStack : CallStack) (tid : ThreadID) (funcName : Address) : CallStack × String :=
  let stackFrame := callStack.stackFrame tid
  if stackFrame.length ≠ 0 ∧ stackFrame.getLast? = some funcName then (callStack.insert tid stackFrame.dropLast,"")
  else (callStack,"Something wrong with Function Stack: " ++ text funcName ++ "\n")

-- popFunction, getStack and the reports leave the lock in between: a thread holds the
-- reference to its entry, or the race that it has built and not inserted yet.
inductive Midway where
  | popFunction (funcName : Address)
  | getStack (report : Report)
  | built (report : Report) (trace : List Address)
  deriving DecidableEq, Repr

structure Tracing where
  callStack : CallStack
  midway : ThreadID → Option Midway
  reports : Reporting

def Tracing.start : Tracing := ⟨.empty,fun _ => none,.start⟩

-- The callbacks are cut where a thread may be overtaken by another: an exit is
-- funcExit and popBack, a report is getStack, build, insert and print.
inductive TraceAction where
  | funcEntry (self : ThreadID) (funcName : Address)
  | funcExit (self : ThreadID) (funcName : Address)
  | popBack (self : ThreadID) (funcName : Address)
  | getStack (self : ThreadID) (report : Report)
  | build (self : ThreadID) (report : Report)
  | insert (self : ThreadID) (report : Report) (trace : List Address) (place : Option ℕ)
  | print (self : ThreadID)
  | mainFuncExit
  deriving DecidableEq, Repr

section Actions
variable (text : Address → String) (s : Tracing)

def Tracing.Idle (self : ThreadID) : Prop := s.midway self = none ∧ self ∉ s.reports.reporting

instance (self : ThreadID) : Decidable (s.Idle self) := inferInstanceAs (Decidable (_ ∧ _))

def Tracing.Allows : TraceAction → Prop
  | .funcEntry self _ | .funcExit self _ | .getStack self _ => s.Idle self
  | .popBack self funcName => s.midway self = some (.popFunction funcName)
  | .build self report => s.midway self = some (.getStack report)
  | .insert self report trace place => s.midway self = some (.built report trace) ∧ ∀ i ∈ place, i ≤ s.reports.races.length
  | .print self => s.midway self = none ∧ self ∈ s.reports.reporting
  | .mainFuncExit => True

instance : (a : TraceAction) → Decidable (s.Allows a)
  | .funcEntry self _ | .funcExit self _ | .getStack self _ => inferInstanceAs (Decidable (s.Idle self))
  | .popBack self funcName => inferInstanceAs (Decidable (s.midway self = some (.popFunction funcName)))
  | .build self report => inferInstanceAs (Decidable (s.midway self = some (.getStack report)))
  | .insert self report trace place =>
    inferInstanceAs (Decidable (s.midway self = some (.built report trace) ∧ ∀ i ∈ place, i ≤ s.reports.races.length))
  | .print self => inferInstanceAs (Decidable (s.midway self = none ∧ self ∈ s.reports.reporting))
  | .mainFuncExit => inferInstanceAs (Decidable True)

def Tracing.after : TraceAction → Tracing
  | .funcEntry self funcName => {s with callStack := pushFunction s.callStack self funcName}
  | .funcExit self funcName =>
    {s with callStack := s.callStack.lookUp self, midway := Function.update s.midway self (some (.popFunction funcName))}
  | .popBack self funcName =>
    let popped := popBack text s.callStack self funcName
    {callStack := popped.1
     midway := Function.update s.midway self none
     reports := {s.reports with cout := s.reports.cout ++ popped.2}}
  | .getStack self report =>
    {s with callStack := s.callStack.lookUp self, midway := Function.update s.midway self (some (.getStack report))}
  | .build self report => {s with midway := Function.update s.midway self (some (.built report (s.callStack.stackFrame self)))}
  | .insert self report trace place =>
    {s with midway := Function.update s.midway self none, reports := s.reports.after text (.insert self report trace place)}
  | .print self => {s with reports := s.reports.after text (.print self)}
  | .mainFuncExit => {s with reports := s.reports.after text .mainFuncExit}

end Actions

inductive Tracing.Run (text : Address → String) : List TraceAction → Tracing → Prop where
  | start : Run text [] .start
  | step {past : List TraceAction} {s : Tracing} {a : TraceAction} (before : Run text past s) (allowed : s.Allows a) :
      Run text (past ++ [a]) (s.after text a)

section Runs
variable (text : Address → String)

def Tracing.afterAll (s : Tracing) (actions : List TraceAction) : Tracing := actions.foldl (Tracing.after text) s

def Tracing.AllowsAll (s : Tracing) : List TraceAction → Prop
  | [] => True
  | a :: rest => s.Allows a ∧ Tracing.AllowsAll (s.after text a) rest

instance decidableTracingAllowsAll (s : Tracing) : (actions : List TraceAction) → Decidable (s.AllowsAll text actions)
  | [] => inferInstanceAs (Decidable True)
  | a :: rest =>
    have := decidableTracingAllowsAll (s.after text a) rest
    inferInstanceAs (Decidable (s.Allows a ∧ (s.after text a).AllowsAll text rest))

variable {text} {past : List TraceAction} {s : Tracing} {a : TraceAction}

theorem allowsAll_concat : s.AllowsAll text (past ++ [a]) ↔ s.AllowsAll text past ∧ (s.afterAll text past).Allows a := by
  induction past generalizing s with
  | nil => exact and_comm
  | cons first rest ih => exact (and_congr_right fun _ => ih).trans and_assoc.symm

theorem run_exact : Tracing.Run text past s ↔ Tracing.start.AllowsAll text past ∧ Tracing.start.afterAll text past = s := by
  constructor
  · intro run
    induction run with
    | start => exact ⟨trivial,rfl⟩
    | step before allowed ih =>
      obtain ⟨each,rfl⟩ := ih
      refine ⟨allowsAll_concat.mpr ⟨each,allowed⟩,?_⟩
      exact List.foldl_append
  · rintro ⟨each,rfl⟩
    induction past using List.reverseRecOn with
    | nil => exact .start
    | append_singleton past a ih =>
      obtain ⟨each,allowed⟩ := allowsAll_concat.mp each
      have last : Tracing.start.afterAll text (past ++ [a]) = (Tracing.start.afterAll text past).after text a := List.foldl_append
      rw [last]
      exact .step (ih each) allowed

end Runs

def TraceAction.crossing (t : ThreadID) : TraceAction → Option (Crossing Address)
  | .funcEntry self funcName => if self = t then some (.enter funcName) else none
  | .popBack self funcName => if self = t then some (.leave funcName) else none
  | _ => none

def crossings (t : ThreadID) (past : List TraceAction) : List (Crossing Address) := past.filterMap (TraceAction.crossing t)

section Frames
variable {text : Address → String} {callStack : CallStack} {s : Tracing} {past : List TraceAction} {a : TraceAction} {self t : ThreadID} {funcName : Address}

theorem lookUp_frame (callStack : CallStack) (self t : ThreadID) : (callStack.lookUp self).stackFrame t = callStack.stackFrame t := by
  unfold CallStack.lookUp CallStack.stackFrame
  rw [UnorderedMap.find_insert]
  split
  · rename_i same; rw [same]; rfl
  · rfl

theorem push_frame (callStack : CallStack) (self t : ThreadID) (funcName : Address) : (pushFunction callStack self funcName).stackFrame t =
    if self = t then cross (callStack.stackFrame t) (.enter funcName) else callStack.stackFrame t := by
  unfold pushFunction
  by_cases same : self = t
  · subst same
    simp [CallStack.stackFrame,cross]
  · simp [CallStack.stackFrame,same,Ne.symm same]

theorem popBack_unmatched (other : (callStack.stackFrame self).getLast? ≠ some funcName) :
    (popBack text callStack self funcName).1 = callStack := by
  unfold popBack
  rw [if_neg fun matched => other matched.2]

theorem popBack_frame (text : Address → String) (callStack : CallStack) (self t : ThreadID) (funcName : Address) :
    (popBack text callStack self funcName).1.stackFrame t =
      if self = t then cross (callStack.stackFrame t) (.leave funcName) else callStack.stackFrame t := by
  by_cases matched : (callStack.stackFrame self).getLast? = some funcName
  · have nonempty : (callStack.stackFrame self).length ≠ 0 := by
      intro empty
      rw [List.length_eq_zero_iff.mp empty] at matched
      cases matched
    unfold popBack
    rw [if_pos ⟨nonempty,matched⟩]
    by_cases same : self = t
    · subst same
      have popped : cross (callStack.stackFrame self) (.leave funcName) = (callStack.stackFrame self).dropLast := if_pos matched
      rw [if_pos rfl,popped]
      simp [CallStack.stackFrame]
    · simp [CallStack.stackFrame,same,Ne.symm same]
  · rw [popBack_unmatched matched]
    split
    · rename_i same
      subst same
      exact (cross_unmatched matched).symm
    · rfl

theorem after_frame (s : Tracing) (a : TraceAction) (t : ThreadID) :
    (s.after text a).callStack.stackFrame t = crossAll (s.callStack.stackFrame t) (a.crossing t).toList := by
  cases a with
  | funcEntry self funcName =>
    have crossed : (TraceAction.funcEntry self funcName).crossing t = if self = t then some (.enter funcName) else none := rfl
    refine (push_frame s.callStack self t funcName).trans ?_
    rw [crossed]
    split <;> rfl
  | popBack self funcName =>
    have crossed : (TraceAction.popBack self funcName).crossing t = if self = t then some (.leave funcName) else none := rfl
    refine (popBack_frame text s.callStack self t funcName).trans ?_
    rw [crossed]
    split <;> rfl
  | funcExit self funcName => exact lookUp_frame s.callStack self t
  | getStack self report => exact lookUp_frame s.callStack self t
  | _ => rfl

theorem run_frame (run : Tracing.Run text past s) (t : ThreadID) : s.callStack.stackFrame t = crossAll [] (crossings t past) := by
  induction run with
  | start => rfl
  | @step past s a before allowed ih =>
    have later : crossings t (past ++ [a]) = crossings t past ++ (a.crossing t).toList := by
      unfold crossings
      rw [List.filterMap_append]
      cases crossed : a.crossing t <;> simp [crossed]
    rw [after_frame,ih,later,crossAll_append]

end Frames

def Tracing.Traced (s : Tracing) : Prop :=
  ∀ self report trace, s.midway self = some (.built report trace) → trace = s.callStack.stackFrame self

section Traces
variable {text : Address → String} {s : Tracing} {past : List TraceAction} {a : TraceAction} {self t : ThreadID} {report : Report} {trace : List Address}

theorem update_built {midway : ThreadID → Option Midway} {next : Option Midway}
    (found : Function.update midway self next t = some (.built report trace)) :
    self = t ∧ next = some (.built report trace) ∨ self ≠ t ∧ midway t = some (.built report trace) := by
  by_cases same : self = t
  · subst same
    rw [Function.update_self] at found
    exact .inl ⟨rfl,found⟩
  · rw [Function.update_of_ne (Ne.symm same)] at found
    exact .inr ⟨same,found⟩

theorem update_elsewhere {midway : ThreadID → Option Midway} {next : Option Midway} (unbuilt : ∀ report trace, next ≠ some (.built report trace))
    (found : Function.update midway self next t = some (.built report trace)) : self ≠ t ∧ midway t = some (.built report trace) := by
  rcases update_built found with ⟨_,now⟩ | other
  · exact absurd now (unbuilt report trace)
  · exact other

theorem built_before (allowed : s.Allows a) (found : (s.after text a).midway t = some (.built report trace)) :
    (a = .build t report ∧ trace = s.callStack.stackFrame t) ∨
      (s.midway t = some (.built report trace) ∧ a.crossing t = none) := by
  cases a with
  | funcEntry self funcName =>
    have other : self ≠ t := by
      rintro rfl
      have before : s.midway self = some (.built report trace) := found
      cases before.symm.trans allowed.1
    exact .inr ⟨found,if_neg other⟩
  | popBack self funcName =>
    obtain ⟨other,before⟩ := update_elsewhere (by simp) found
    exact .inr ⟨before,if_neg other⟩
  | build self report' =>
    rcases update_built found with ⟨rfl,now⟩ | ⟨_,before⟩
    · cases now
      exact .inl ⟨rfl,rfl⟩
    · exact .inr ⟨before,rfl⟩
  | funcExit self funcName => exact .inr ⟨(update_elsewhere (by simp) found).2,rfl⟩
  | getStack self report' => exact .inr ⟨(update_elsewhere (by simp) found).2,rfl⟩
  | insert self report' trace' place => exact .inr ⟨(update_elsewhere (by simp) found).2,rfl⟩
  | print self => exact .inr ⟨found,rfl⟩
  | mainFuncExit => exact .inr ⟨found,rfl⟩

theorem traced_step (traced : s.Traced) (allowed : s.Allows a) : (s.after text a).Traced := by
  intro t report trace found
  rw [after_frame]
  rcases built_before allowed found with ⟨rfl,now⟩ | ⟨before,uncrossed⟩
  · exact now
  · rw [uncrossed]
    exact traced t report trace before

theorem traced_run (run : Tracing.Run text past s) : s.Traced := by
  induction run with
  | start => rintro self report trace ⟨⟩
  | step before allowed ih => exact traced_step ih allowed

theorem printed_origin {reports : Reporting} {race : Race} (member : race ∈ (printRaces text reports).races) :
    ∃ old ∈ reports.races, old.tid = race.tid ∧ old.trace = race.trace := by
  unfold printRaces at member
  rw [printRacesFrom_spec] at member
  obtain ⟨old,kept,rfl⟩ := List.mem_map.mp member
  exact ⟨old,kept,rfl,rfl⟩

theorem race_origin {race : Race} (member : race ∈ (s.after text a).reports.races) :
    (∃ old ∈ s.reports.races, old.tid = race.tid ∧ old.trace = race.trace) ∨
      ∃ self report trace place, a = .insert self report trace place ∧ race.tid = self ∧ race.trace = trace := by
  cases a with
  | insert self report trace place =>
    cases place with
    | none => exact .inl ⟨race,member,rfl,rfl⟩
    | some i =>
      rcases List.eq_or_mem_of_mem_insertIdx member with rfl | old
      · refine .inr ⟨self,report,trace,some i,rfl,?_⟩
        cases report <;> exact ⟨rfl,rfl⟩
      · exact .inl ⟨race,old,rfl,rfl⟩
  | print self => exact .inl (printed_origin member)
  | mainFuncExit => exact .inl (printed_origin member)
  | _ => exact .inl ⟨race,member,rfl,rfl⟩

theorem race_inserted (run : Tracing.Run text past s) {race : Race} (member : race ∈ s.reports.races) :
    ∃ (before : List TraceAction) (s' : Tracing) (report : Report) (place : Option ℕ), Tracing.Run text before s' ∧
      s'.Allows (.insert race.tid report race.trace place) ∧ before ++ [.insert race.tid report race.trace place] <+: past := by
  induction run generalizing race with
  | start => cases member
  | @step past s a run allowed ih =>
    rcases race_origin member with ⟨old,member,tid,trace⟩ | ⟨self,report,trace,place,rfl,rfl,rfl⟩
    · obtain ⟨before,s',report,place,run',allowed',within⟩ := ih member
      rw [tid,trace] at allowed' within
      exact ⟨before,s',report,place,run',allowed',within.trans (List.prefix_append past [a])⟩
    · exact ⟨past,s,report,place,run,allowed,List.prefix_rfl⟩

end Traces

-- In any interleaving, every thread's stack has the functions that are open in the
-- thread's own entries and exits, and every race was inserted with the stack of its
-- thread.
theorem call_stacks_real {text : Address → String} {past : List TraceAction} {s : Tracing} (run : Tracing.Run text past s) :
    (∀ t, Open (crossings t past) (s.callStack.stackFrame t)) ∧
    (∀ self funcName t, (s.after text (.funcExit self funcName)).callStack.stackFrame t = s.callStack.stackFrame t) ∧
    (∀ self funcName, s.Allows (.popBack self funcName) → (s.callStack.stackFrame self).getLast? ≠ some funcName →
      ∀ t, (s.after text (.popBack self funcName)).callStack.stackFrame t = s.callStack.stackFrame t) ∧
    (∀ self report trace place, s.Allows (.insert self report trace place) →
      Open (crossings self past) trace ∧ (report.race text self trace).trace = trace ∧
      ∀ i ∈ place, (s.after text (.insert self report trace place)).reports.races[i]? = some (report.race text self trace)) ∧
    ∀ race ∈ s.reports.races, ∃ before report place, Open (crossings race.tid before) race.trace ∧
      before ++ [.insert race.tid report race.trace place] <+: past := by
  have opened {past : List TraceAction} {s : Tracing} (run : Tracing.Run text past s) (t : ThreadID) :
      Open (crossings t past) (s.callStack.stackFrame t) := open_exact.mpr (run_frame run t).symm
  have inserted {past : List TraceAction} {s : Tracing} (run : Tracing.Run text past s) {self : ThreadID} {report : Report}
      {trace : List Address} {place : Option ℕ} (allowed : s.Allows (.insert self report trace place)) : Open (crossings self past) trace := by
    rw [traced_run run self report trace allowed.1]
    exact opened run self
  refine ⟨opened run,fun self funcName t => lookUp_frame s.callStack self t,?_,?_,?_⟩
  · intro self funcName _ other t
    have same : (s.after text (.popBack self funcName)).callStack = s.callStack := popBack_unmatched other
    rw [same]
  · intro self report trace place allowed
    refine ⟨inserted run allowed,by cases report <;> rfl,?_⟩
    rintro i rfl
    exact List.getElem?_insertIdx_self.trans (if_pos (allowed.2 i rfl))
  · intro race member
    obtain ⟨before,s',report,place,run',allowed,within⟩ := race_inserted run member
    exact ⟨before,report,place,inserted run' allowed,within⟩

-- Two calls of one function by thread 1, an exit under another name, and a report
-- after the inner call has returned, among the steps of thread 2.
def recursiveCalls : List TraceAction :=
  [.funcEntry 1 10,.funcEntry 2 20,.funcEntry 1 10,.funcExit 1 20,.funcExit 2 20,.popBack 1 20,.funcExit 1 10,.popBack 2 20,.popBack 1 10,
    .getStack 1 (.reportRaceOnRead ⟨7,30,40⟩),.funcEntry 2 10,.build 1 (.reportRaceOnRead ⟨7,30,40⟩),
    .insert 1 (.reportRaceOnRead ⟨7,30,40⟩) [10] (some 0),.print 1]

theorem call_stacks_real_recursive :
    Open (crossings 1 recursiveCalls) ((Tracing.start.afterAll (fun _ => "f") recursiveCalls).callStack.stackFrame 1) ∧
    (Tracing.start.afterAll (fun _ => "f") recursiveCalls).callStack.stackFrame 1 = [10] ∧
    (Tracing.start.afterAll (fun _ => "f") recursiveCalls).reports.races.map Race.trace = [[10]] := by
  have run : Tracing.Run (fun _ => "f") recursiveCalls (Tracing.start.afterAll (fun _ => "f") recursiveCalls) :=
    run_exact.mpr ⟨by decide,rfl⟩
  exact ⟨(call_stacks_real run).1 1,by decide,by decide⟩

end EmbedSanitizer
