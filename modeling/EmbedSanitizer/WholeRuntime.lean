import EmbedSanitizer.CallStacks
import EmbedSanitizer.GatedDetection

namespace EmbedSanitizer
open HappensBefore ThreadEvents NestedCalls

-- The detector, the reports that its threads have been told to make and have not
-- begun, and what they report with.
structure WholeRuntime where
  detector : Runtime
  found : ThreadID → Option Report
  tracing : Tracing

def WholeRuntime.start (detector : Runtime) : WholeRuntime := ⟨detector,fun _ => none,.start⟩

-- An access callback is cut where it calls its report; the report is cut as in
-- TraceAction. A call stands with what the detector answers.
inductive RuntimeAction where
  | call (c : Call) (answer : Option Report)
  | tracing (a : TraceAction)
  deriving DecidableEq, Repr

section Steps
variable (cpp : Cpp) (text : Address → String) (w : WholeRuntime)

def WholeRuntime.Idle (self : ThreadID) : Prop := w.found self = none ∧ w.tracing.Idle self

instance (self : ThreadID) : Decidable (w.Idle self) := inferInstanceAs (Decidable (_ ∧ _))

def WholeRuntime.Follows : TraceAction → Prop
  | .funcEntry self _ | .funcExit self _ => w.found self = none
  | .getStack self report => w.found self = some report
  | .popBack _ _ | .build _ _ | .insert _ _ _ _ | .print _ | .mainFuncExit => True

instance : (a : TraceAction) → Decidable (w.Follows a)
  | .funcEntry self _ | .funcExit self _ => inferInstanceAs (Decidable (w.found self = none))
  | .getStack self report => inferInstanceAs (Decidable (w.found self = some report))
  | .popBack _ _ | .build _ _ | .insert _ _ _ _ | .print _ | .mainFuncExit => inferInstanceAs (Decidable True)

def WholeRuntime.foundAfter : TraceAction → ThreadID → Option Report
  | .getStack self _ => Function.update w.found self none
  | _ => w.found

def WholeRuntime.step : RuntimeAction → Option WholeRuntime
  | .call c answer => do
    let (detector,report) ← c.invoke cpp w.detector
    if w.Idle c.self ∧ report = answer then some {w with detector, found := Function.update w.found c.self answer} else none
  | .tracing a =>
    if w.tracing.Allows a ∧ w.Follows a then some {w with found := w.foundAfter a, tracing := w.tracing.after text a} else none

def WholeRuntime.runAll : WholeRuntime → List RuntimeAction → Option WholeRuntime
  | w,[] => some w
  | w,a :: rest => do
    let w ← w.step cpp text a
    w.runAll rest

end Steps

section Parts

def RuntimeAction.answered : RuntimeAction → Option (Call × Option Report)
  | .call c answer => some (c,answer)
  | .tracing _ => none

def callsIn (past : List RuntimeAction) : List Call := (past.filterMap RuntimeAction.answered).map Prod.fst

def answersIn (past : List RuntimeAction) : List (Option Report) := (past.filterMap RuntimeAction.answered).map Prod.snd

def RuntimeAction.crossing (t : ThreadID) : RuntimeAction → Option (Crossing Address)
  | .call _ _ => none
  | .tracing a => a.crossing t

def RuntimeAction.traced : RuntimeAction → Option TraceAction
  | .call _ _ => none
  | .tracing a => some a

def tracesIn (past : List RuntimeAction) : List TraceAction := past.filterMap RuntimeAction.traced

def openIn (t : ThreadID) (past : List RuntimeAction) : List Address := crossAll [] (crossings t (tracesIn past))

def RuntimeAction.detection (t : ThreadID) (stack : List Address) : RuntimeAction → Option (Report × List Address)
  | .call c answer => if c.self = t then answer.map (·,stack) else none
  | .tracing _ => none

def RuntimeAction.insertion (t : ThreadID) : RuntimeAction → Option (Report × List Address)
  | .tracing (.insert self report trace _) => if self = t then some (report,trace) else none
  | _ => none

def detections (t : ThreadID) (stack : List Address) : List RuntimeAction → List (Report × List Address)
  | [] => []
  | a :: rest => (a.detection t stack).toList ++ detections t (crossAll stack (a.crossing t).toList) rest

def insertions (t : ThreadID) (past : List RuntimeAction) : List (Report × List Address) := past.filterMap (RuntimeAction.insertion t)

-- The race that t is about to insert, with the stack that it has or will have.
def WholeRuntime.underway (w : WholeRuntime) (t : ThreadID) : Option (Report × List Address) :=
  match w.found t,w.tracing.midway t with
  | some report,_ => some (report,w.tracing.callStack.stackFrame t)
  | none,some (.getStack report) => some (report,w.tracing.callStack.stackFrame t)
  | none,some (.built report trace) => some (report,trace)
  | none,some (.popFunction _) | none,none => none

end Parts

section Laws
variable {cpp : Cpp} {text : Address → String} {w w' : WholeRuntime} {a : RuntimeAction} {past : List RuntimeAction} {t : ThreadID}

theorem step_call {c : Call} {answer : Option Report} (ran : w.step cpp text (.call c answer) = some w') :
    w.Idle c.self ∧ c.invoke cpp w.detector = some (w'.detector,answer) ∧ w'.found = Function.update w.found c.self answer ∧
      w'.tracing = w.tracing := by
  obtain ⟨⟨detector,report⟩,invoked,ran⟩ := bind_some ran
  obtain ⟨⟨idle,rfl⟩,same⟩ := Option.ite_none_right_eq_some.mp ran
  cases same
  exact ⟨idle,invoked,rfl,rfl⟩

theorem step_tracing {a : TraceAction} (ran : w.step cpp text (.tracing a) = some w') : w.tracing.Allows a ∧ w.Follows a ∧
    w'.detector = w.detector ∧ w'.found = w.foundAfter a ∧ w'.tracing = w.tracing.after text a := by
  obtain ⟨⟨allowed,follows⟩,same⟩ := Option.ite_none_right_eq_some.mp ran
  cases same
  exact ⟨allowed,follows,rfl,rfl,rfl⟩

theorem runAll_cons (ran : w.runAll cpp text (a :: past) = some w') :
    ∃ w₁, w.step cpp text a = some w₁ ∧ w₁.runAll cpp text past = some w' := bind_some ran

theorem runAll_append {rest : List RuntimeAction} (ran : w.runAll cpp text (past ++ rest) = some w') :
    ∃ w₁, w.runAll cpp text past = some w₁ ∧ w₁.runAll cpp text rest = some w' := by
  induction past generalizing w with
  | nil => exact ⟨w,rfl,ran⟩
  | cons a past ih =>
    obtain ⟨w₁,first,later⟩ := runAll_cons ran
    obtain ⟨w₂,middle,last⟩ := ih later
    refine ⟨w₂,?_,last⟩
    rw [WholeRuntime.runAll,first]
    exact middle

def WholeRuntime.Waiting (w : WholeRuntime) : Prop := ∀ t report, w.found t = some report → w.tracing.Idle t

theorem idle_kept {s : Tracing} {a : TraceAction} (allowed : s.Allows a) (idle : s.Idle t) (exits : ∀ f, a ≠ .funcExit t f)
    (reports : ∀ report, a ≠ .getStack t report) : (s.after text a).Idle t := by
  have elsewhere : ∀ {self : ThreadID} {next : Option Midway}, self ≠ t → Function.update s.midway self next t = none :=
    fun other => (Function.update_of_ne (Ne.symm other) _ _).trans idle.1
  have acting : ∀ {self : ThreadID} {stage : Midway}, s.midway self = some stage → self ≠ t := by
    rintro self stage now rfl
    cases now.symm.trans idle.1
  cases a with
  | funcEntry self f => exact idle
  | funcExit self f => exact ⟨elsewhere fun same => exits f (same ▸ rfl),idle.2⟩
  | popBack self f => exact ⟨elsewhere (acting allowed),idle.2⟩
  | getStack self report => exact ⟨elsewhere fun same => reports report (same ▸ rfl),idle.2⟩
  | build self report => exact ⟨elsewhere (acting allowed),idle.2⟩
  | insert self report trace place =>
    have other := acting allowed.1
    exact ⟨elsewhere other,fun member => (List.mem_cons.mp member).elim (fun same => other same.symm) idle.2⟩
  | print self => exact ⟨idle.1,fun member => idle.2 (List.mem_of_mem_filter member)⟩
  | mainFuncExit => exact idle

theorem found_before {a : TraceAction} {report : Report} (told : w.foundAfter a t = some report) :
    w.found t = some report ∧ ∀ report, a ≠ .getStack t report := by
  cases a with
  | getStack self r =>
    have after : Function.update w.found self none t = some report := told
    by_cases same : t = self
    · rw [same,Function.update_self] at after
      cases after
    · rw [Function.update_of_ne same] at after
      exact ⟨after,fun _ found => by cases found; exact same rfl⟩
  | _ => exact ⟨told,by simp⟩

theorem waiting_step (waiting : w.Waiting) (ran : w.step cpp text a = some w') : w'.Waiting := by
  intro t report told
  cases a with
  | call c answer =>
    obtain ⟨idle,_,found,tracing⟩ := step_call ran
    rw [tracing]
    by_cases same : t = c.self
    · exact same ▸ idle.2
    · rw [found,Function.update_of_ne same] at told
      exact waiting t report told
  | tracing a =>
    obtain ⟨allowed,follows,_,found,tracing⟩ := step_tracing ran
    rw [found] at told
    obtain ⟨before,reports⟩ := found_before told
    rw [tracing]
    refine idle_kept allowed (waiting t report before) (fun f exits => ?_) reports
    subst exits
    cases before.symm.trans follows

theorem frame_step (ran : w.step cpp text a = some w') (t : ThreadID) :
    w'.tracing.callStack.stackFrame t = crossAll (w.tracing.callStack.stackFrame t) (a.crossing t).toList := by
  cases a with
  | call c answer => rw [(step_call ran).2.2.2]; rfl
  | tracing a => rw [(step_tracing ran).2.2.2.2]; exact after_frame w.tracing a t

theorem underway_none (untold : w.found t = none) (rests : w.tracing.midway t = none) : w.underway t = none := by
  unfold WholeRuntime.underway
  rw [untold,rests]

theorem underway_idle (idle : w.Idle t) : w.underway t = none := underway_none idle.1 idle.2.1

theorem underway_found {report : Report} (told : w.found t = some report) :
    w.underway t = some (report,w.tracing.callStack.stackFrame t) := by
  unfold WholeRuntime.underway
  rw [told]

def Midway.race (frame : List Address) : Midway → Option (Report × List Address)
  | .popFunction _ => none
  | .getStack report => some (report,frame)
  | .built report trace => some (report,trace)

theorem underway_midway {stage : Midway} (untold : w.found t = none) (acting : w.tracing.midway t = some stage) :
    w.underway t = stage.race (w.tracing.callStack.stackFrame t) := by
  unfold WholeRuntime.underway
  rw [untold,acting]
  cases stage <;> rfl

theorem underway_same (found : w'.found t = w.found t) (midway : w'.tracing.midway t = w.tracing.midway t)
    (frame : w'.tracing.callStack.stackFrame t = w.tracing.callStack.stackFrame t) : w'.underway t = w.underway t := by
  unfold WholeRuntime.underway
  rw [found,midway,frame]

theorem waiting_acts (waiting : w.Waiting) {stage : Midway} (acting : w.tracing.midway t = some stage) : w.found t = none := by
  cases told : w.found t with
  | none => rfl
  | some report => cases acting.symm.trans (waiting t report told).1

theorem underway_call {c : Call} {answer : Option Report} (ran : w.step cpp text (.call c answer) = some w') (t : ThreadID) :
    (w.underway t).toList ++ ((RuntimeAction.call c answer).detection t (w.tracing.callStack.stackFrame t)).toList =
      (w'.underway t).toList := by
  obtain ⟨idle,_,found,tracing⟩ := step_call ran
  by_cases same : c.self = t
  · subst same
    rw [underway_idle idle,RuntimeAction.detection,if_pos rfl]
    cases answer with
    | none =>
      have rests : w'.Idle c.self := ⟨by rw [found,Function.update_self],tracing ▸ idle.2⟩
      rw [underway_idle rests]
      rfl
    | some report =>
      have told : w'.found c.self = some report := by rw [found,Function.update_self]
      rw [underway_found told,tracing]
      rfl
  · have stays : w'.underway t = w.underway t :=
      underway_same (by rw [found,Function.update_of_ne (Ne.symm same)]) (by rw [tracing]) (by rw [tracing])
    rw [RuntimeAction.detection,if_neg same,stays]
    exact List.append_nil _

def TraceAction.actor : TraceAction → Option ThreadID
  | .funcEntry self _ | .funcExit self _ | .popBack self _ | .getStack self _ | .build self _ | .insert self _ _ _ | .print self => some self
  | .mainFuncExit => none

theorem underway_elsewhere {a : TraceAction} (ran : w.step cpp text (.tracing a) = some w') (other : a.actor ≠ some t) :
    (RuntimeAction.tracing a).insertion t = none ∧ w'.underway t = w.underway t := by
  have frame := frame_step ran t
  obtain ⟨_,_,_,found,tracing⟩ := step_tracing ran
  have away : ∀ {self : ThreadID}, a.actor = some self → t ≠ self := fun acts same => other (same ▸ acts)
  have apart : (RuntimeAction.tracing a).crossing t = none ∧ (RuntimeAction.tracing a).insertion t = none ∧
      w.foundAfter a t = w.found t ∧ (w.tracing.after text a).midway t = w.tracing.midway t := by
    cases a with
    | funcEntry self f => exact ⟨if_neg (away rfl).symm,rfl,rfl,rfl⟩
    | funcExit self f => exact ⟨rfl,rfl,rfl,Function.update_of_ne (away rfl) _ _⟩
    | popBack self f => exact ⟨if_neg (away rfl).symm,rfl,rfl,Function.update_of_ne (away rfl) _ _⟩
    | getStack self report => exact ⟨rfl,rfl,Function.update_of_ne (away rfl) _ _,Function.update_of_ne (away rfl) _ _⟩
    | build self report => exact ⟨rfl,rfl,rfl,Function.update_of_ne (away rfl) _ _⟩
    | insert self report trace place => exact ⟨rfl,if_neg (away rfl).symm,rfl,Function.update_of_ne (away rfl) _ _⟩
    | print self => exact ⟨rfl,rfl,rfl,rfl⟩
    | mainFuncExit => exact ⟨rfl,rfl,rfl,rfl⟩
  obtain ⟨uncrossed,none,untold,stays⟩ := apart
  rw [uncrossed] at frame
  exact ⟨none,underway_same (by rw [found,untold]) (by rw [tracing,stays]) frame⟩

theorem underway_tracing {a : TraceAction} (waiting : w.Waiting) (ran : w.step cpp text (.tracing a) = some w') (t : ThreadID) :
    (w.underway t).toList = ((RuntimeAction.tracing a).insertion t).toList ++ (w'.underway t).toList := by
  by_cases own : a.actor = some t
  · have frame := frame_step ran t
    obtain ⟨allowed,follows,_,found,tracing⟩ := step_tracing ran
    cases a with
    | funcEntry self f =>
      cases own
      have rests : w'.Idle t := ⟨by rw [found]; exact follows,by rw [tracing]; exact allowed⟩
      rw [underway_idle ⟨follows,allowed⟩,underway_idle rests]
      rfl
    | funcExit self f =>
      cases own
      have leaving : w'.tracing.midway t = some (.popFunction f) := by rw [tracing]; exact Function.update_self ..
      rw [underway_idle ⟨follows,allowed⟩,underway_midway (by rw [found]; exact follows) leaving]
      rfl
    | popBack self f =>
      cases own
      have untold := waiting_acts waiting allowed
      rw [underway_midway untold allowed,underway_none (by rw [found]; exact untold) (by rw [tracing]; exact Function.update_self ..)]
      rfl
    | getStack self report =>
      cases own
      have looks : w'.tracing.midway t = some (.getStack report) := by rw [tracing]; exact Function.update_self ..
      rw [underway_found follows,underway_midway (by rw [found]; exact Function.update_self ..) looks,frame]
      rfl
    | build self report =>
      cases own
      have untold := waiting_acts waiting allowed
      have builds : w'.tracing.midway t = some (.built report (w.tracing.callStack.stackFrame t)) := by
        rw [tracing]
        exact Function.update_self ..
      rw [underway_midway untold allowed,underway_midway (by rw [found]; exact untold) builds]
      rfl
    | insert self report trace place =>
      cases own
      have untold := waiting_acts waiting allowed.1
      rw [underway_midway untold allowed.1,underway_none (by rw [found]; exact untold) (by rw [tracing]; exact Function.update_self ..),
        RuntimeAction.insertion,if_pos rfl]
      rfl
    | print self =>
      exact congrArg Option.toList (underway_same (by rw [found]; rfl) (by rw [tracing]; rfl) frame).symm
    | mainFuncExit => cases own
  · obtain ⟨none,same⟩ := underway_elsewhere ran own
    rw [none,same]
    rfl

-- One step adds to the races under way what it detects, and takes from them what it
-- inserts.
theorem underway_step (waiting : w.Waiting) (ran : w.step cpp text a = some w') (t : ThreadID) :
    (w.underway t).toList ++ (a.detection t (w.tracing.callStack.stackFrame t)).toList =
      (a.insertion t).toList ++ (w'.underway t).toList := by
  cases a with
  | call c answer => exact underway_call ran t
  | tracing a =>
    rw [← underway_tracing waiting ran t]
    exact List.append_nil _

theorem insertions_cons (t : ThreadID) (a : RuntimeAction) (past : List RuntimeAction) :
    insertions t (a :: past) = (a.insertion t).toList ++ insertions t past := by
  unfold insertions
  cases inserted : a.insertion t <;> simp [inserted]

theorem run_underway (waiting : w.Waiting) (ran : w.runAll cpp text past = some w') (t : ThreadID) :
    (w.underway t).toList ++ detections t (w.tracing.callStack.stackFrame t) past = insertions t past ++ (w'.underway t).toList := by
  induction past generalizing w with
  | nil => cases ran; exact List.append_nil _
  | cons a rest ih =>
    obtain ⟨w₁,first,later⟩ := runAll_cons ran
    have rests := ih (waiting_step waiting first) later
    rw [frame_step first t] at rests
    rw [detections,← List.append_assoc,underway_step waiting first t,List.append_assoc,rests,insertions_cons,List.append_assoc]

theorem start_waiting (s : Runtime) : (WholeRuntime.start s).Waiting := fun _ _ told => by cases told

theorem run_waiting (waiting : w.Waiting) (ran : w.runAll cpp text past = some w') : w'.Waiting := by
  induction past generalizing w with
  | nil => cases ran; exact waiting
  | cons a rest ih =>
    obtain ⟨w₁,first,later⟩ := runAll_cons ran
    exact ih (waiting_step waiting first) later

theorem run_tracing {before : List TraceAction} (started : Tracing.Run text before w.tracing) (ran : w.runAll cpp text past = some w') :
    Tracing.Run text (before ++ tracesIn past) w'.tracing := by
  induction past generalizing w before with
  | nil =>
    cases ran
    rw [tracesIn,List.filterMap_nil,List.append_nil]
    exact started
  | cons a rest ih =>
    obtain ⟨w₁,first,later⟩ := runAll_cons ran
    cases a with
    | call c answer =>
      have same := (step_call first).2.2.2
      exact ih (same ▸ started) later
    | tracing a =>
      obtain ⟨allowed,_,_,_,tracing⟩ := step_tracing first
      have traces : before ++ tracesIn (.tracing a :: rest) = (before ++ [a]) ++ tracesIn rest := by
        rw [List.append_assoc]
        rfl
      rw [traces]
      exact ih (tracing ▸ started.step allowed) later

theorem run_open {s : Runtime} (ran : (WholeRuntime.start s).runAll cpp text past = some w') (t : ThreadID) :
    w'.tracing.callStack.stackFrame t = openIn t past := by
  have traced := run_tracing .start ran
  exact run_frame traced t

theorem run_answers (ran : w.runAll cpp text past = some w') :
    invokeAll cpp w.detector (callsIn past) = some (w'.detector,answersIn past) := by
  induction past generalizing w with
  | nil => cases ran; rfl
  | cons a rest ih =>
    obtain ⟨w₁,first,later⟩ := runAll_cons ran
    have answers := ih later
    cases a with
    | call c answer =>
      obtain ⟨_,invoked,_,_⟩ := step_call first
      have calls : callsIn (.call c answer :: rest) = c :: callsIn rest := rfl
      rw [calls,invokeAll,invoked,Option.bind_eq_bind,Option.bind_some]
      dsimp only
      rw [answers]
      rfl
    | tracing a =>
      rw [(step_tracing first).2.2.1] at answers
      exact answers

end Laws

section Delivery

def Answered (past : List RuntimeAction) (c : Call) (report : Report) (stack : List Address) (later : List RuntimeAction) : Prop :=
  ∃ before, past = before ++ .call c (some report) :: later ∧ openIn c.self before = stack

def InsertsNext (t : ThreadID) (report : Report) (stack : List Address) (later : List RuntimeAction) : Prop :=
  ∃ before place rest, later = before ++ .tracing (.insert t report stack place) :: rest ∧ insertions t before = []

variable {cpp : Cpp} {text : Address → String} {s : Runtime} {main : ThreadID} {past later : List RuntimeAction} {w : WholeRuntime}
  {c : Call} {report : Report} {stack : List Address}

theorem reported_answered {a : Address} : CallReported (callsIn past) (answersIn past) a ↔
    ∃ c report stack later, Answered past c report stack later ∧ c.addr = some a := by
  constructor
  · rintro ⟨k,c,report,at_k,addr,answered⟩
    unfold callsIn at at_k
    unfold answersIn at answered
    rw [List.getElem?_map] at at_k answered
    obtain ⟨⟨d,answer⟩,found,rfl⟩ := Option.map_eq_some_iff.mp at_k
    rw [found] at answered
    cases answered
    obtain ⟨action,member,same⟩ := List.mem_filterMap.mp (List.mem_of_getElem? found)
    cases action with
    | call c answer =>
      cases same
      obtain ⟨before,later,split⟩ := List.append_of_mem member
      exact ⟨_,report,_,later,⟨before,split,rfl⟩,addr⟩
    | tracing a => cases same
  · rintro ⟨c,report,stack,later,⟨before,rfl,_⟩,addr⟩
    refine ⟨(before.filterMap RuntimeAction.answered).length,c,report,?_,addr,?_⟩ <;>
      simp [callsIn,answersIn,RuntimeAction.answered]

theorem insertion_next {t : ThreadID} {rest : List (Report × List Address)} (inserts : insertions t later = (report,stack) :: rest) :
    InsertsNext t report stack later := by
  obtain ⟨before,a,after,split,none,inserted,_⟩ := List.filterMap_eq_cons_iff.mp inserts
  cases a with
  | call c answer => cases inserted
  | tracing a =>
    cases a with
    | insert self report trace place =>
      obtain ⟨rfl,same⟩ := Option.ite_none_right_eq_some.mp inserted
      cases same
      exact ⟨before,place,after,split,List.filterMap_eq_nil_iff.mpr none⟩
    | _ => cases inserted

theorem next_insertion {t : ThreadID} (inserts : InsertsNext t report stack later) : ∃ rest, insertions t later = (report,stack) :: rest := by
  obtain ⟨before,place,rest,rfl,none⟩ := inserts
  have now : (RuntimeAction.tracing (.insert t report stack place)).insertion t = some (report,stack) := if_pos rfl
  refine ⟨insertions t rest,?_⟩
  unfold insertions at none ⊢
  rw [List.filterMap_append,none,List.nil_append,List.filterMap_cons_some now]

theorem answered_inserted (ran : (WholeRuntime.start s).runAll cpp text past = some w) (answered : Answered past c report stack later) :
    c.report true = some report ∧
      (InsertsNext c.self report stack later ∨ insertions c.self later = [] ∧ w.underway c.self = some (report,stack)) := by
  obtain ⟨before,rfl,rfl⟩ := answered
  obtain ⟨w₁,early,ran⟩ := runAll_append ran
  obtain ⟨w₂,now,late⟩ := runAll_cons ran
  have waiting := run_waiting (start_waiting s) early
  obtain ⟨idle,invoked,found,tracing⟩ := step_call now
  have frame : w₂.tracing.callStack.stackFrame c.self = openIn c.self before := by rw [tracing]; exact run_open early c.self
  constructor
  · rw [invoke_event] at invoked
    obtain ⟨⟨detector,isRace⟩,_,same⟩ := Option.map_eq_some_iff.mp invoked
    have told : c.report isRace = some report := congrArg Prod.snd same
    obtain ⟨rfl,_⟩ := report_some.mp told
    exact told
  · have rest := run_underway (waiting_step waiting now) late c.self
    have told : w₂.found c.self = some report := by rw [found,Function.update_self]
    rw [underway_found told,frame] at rest
    cases inserts : insertions c.self later with
    | nil =>
      rw [inserts] at rest
      cases about : w.underway c.self with
      | none => rw [about] at rest; cases rest
      | some race =>
        rw [about] at rest
        cases (List.cons.inj rest).1
        exact .inr ⟨rfl,rfl⟩
    | cons race others =>
      rw [inserts] at rest
      cases (List.cons.inj rest).1
      exact .inl (insertion_next inserts)

-- The whole runtime, whatever the interleaving: an address is reported exactly when
-- two accesses to it race; each report becomes the next race that its thread inserts,
-- with the functions that the thread was in at the access; and nothing else is inserted.
theorem races_inserted (prepared : s.Prepared) (quiet : s.isConcurrent = 0)
    (ran : (WholeRuntime.start s).runAll cpp text past = some w) (named : Named s ((callsIn past).map Call.attempt))
    (legal : Legal main ((callsIn past).map Call.attempt)) (spare : Spare cpp s ((callsIn past).map Call.attempt)) :
    (∀ a, (∃ i j, Races ((callsIn past).map Call.attempt) a i j) ↔
      ∃ c report stack later, Answered past c report stack later ∧ c.addr = some a) ∧
    (∀ c report stack later, Answered past c report stack later → c.report true = some report ∧
      (InsertsNext c.self report stack later ∨ insertions c.self later = [] ∧ w.underway c.self = some (report,stack))) ∧
    ∀ t, detections t [] past = insertions t past ++ (w.underway t).toList := by
  refine ⟨fun a => ?_,fun c report stack later answered => answered_inserted ran answered,fun t => run_underway (start_waiting s) ran t⟩
  obtain ⟨s',reports,detected,reported⟩ := callbacks_reported prepared named (gated_spare prepared named _ spare)
  have same := (run_answers ran).symm.trans detected
  cases same
  rw [← reported_answered,reported,quiet,events_reported legal]

def overlappingReport : List RuntimeAction :=
  [.tracing (.funcEntry 1 5),.call ⟨1,.threadCreate 2⟩ none,.tracing (.funcEntry 2 7),.call ⟨1,.access .write4 100 ⟨10,0,0⟩⟩ none,
    .call ⟨2,.access .read4 100 ⟨20,0,0⟩⟩ (some (.reportRaceOnRead ⟨20,0,0⟩)),.tracing (.funcExit 1 5),
    .tracing (.getStack 2 (.reportRaceOnRead ⟨20,0,0⟩)),.tracing (.popBack 1 5),.tracing (.build 2 (.reportRaceOnRead ⟨20,0,0⟩)),
    .tracing (.insert 2 (.reportRaceOnRead ⟨20,0,0⟩) [7] (some 0)),.tracing (.print 2)]

theorem races_inserted_overlapping : ∃ w,
    (WholeRuntime.start (.ofThreads [1,2] (by decide))).runAll (.checked .leftFirst) (fun _ => "f") overlappingReport = some w ∧
    (∃ i j, Races ((callsIn overlappingReport).map Call.attempt) 100 i j) ∧
    ∀ t, detections t [] overlappingReport = insertions t overlappingReport ++ (w.underway t).toList := by
  obtain ⟨w,ran⟩ := Option.isSome_iff_exists.mp (show ((WholeRuntime.start (.ofThreads [1,2] (by decide))).runAll
    (.checked .leftFirst) (fun _ => "f") overlappingReport).isSome from by decide)
  obtain ⟨reported,_,inserted⟩ := races_inserted (ofThreads_prepared (by decide)) rfl ran (by decide)
    (show Legal 1 ((callsIn overlappingReport).map Call.attempt) by decide) (by decide)
  exact ⟨w,ran,(reported 100).mpr ⟨_,_,_,_,⟨overlappingReport.take 4,rfl,rfl⟩,rfl⟩,inserted⟩

end Delivery
end EmbedSanitizer
