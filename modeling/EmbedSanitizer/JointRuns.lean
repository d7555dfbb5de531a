import EmbedSanitizer.Executions
import EmbedSanitizer.ToldRuns

namespace ThreadSanitizer
open EmbedSanitizer HappensBefore ThreadEvents EpochDetector Interleaving

abbrev Occurrence := Happening ThreadID Address Address Call

section Visits
variable (opts : Options) (escape : Escape)

mutual

def Visit.happenings (t : ThreadID) : Visit → List Occurrence
  | .through F block env within ending => (upTo (Node.ends ending.last) ((instrumented opts escape F).getD block [])).flatMap fun n =>
      (n.calls env t).map .tells ++ match n.source? with
        | some i => (i.shown F.sanitized env t).map .does ++ if i.enters then happeningsOf t (within i) else []
        | none => []

def happeningsOf (t : ThreadID) : List Visit → List Occurrence
  | [] => []
  | v :: rest => v.happenings t ++ happeningsOf t rest

end

end Visits

section Nodes
variable {opts : Options} {sanitize : Bool} {env : Env} {t : ThreadID} {last : Option Instruction}
  {sub : Instruction → List (Happening ThreadID Address Address Event)}

def attempted (run : List Occurrence) : List (Happening ThreadID Address Address Event) := run.map (Happening.map Call.attempt)

def Node.happening (sanitize : Bool) (env : Env) (t : ThreadID)
    (sub : Instruction → List (Happening ThreadID Address Address Event)) (n : Node) : List (Happening ThreadID Address Address Event) :=
  ((n.calls env t).map Call.attempt).map .tells ++ match n.source? with
    | some i => (i.shown sanitize env t).map .does ++ if i.enters then sub i else []
    | none => []

theorem source_happening (i : Instruction) (flag : Bool) : (Node.source i flag).happening sanitize env t sub =
    (i.shown sanitize env t).map .does ++ if i.enters then sub i else [] := rfl

theorem inserted_happening (callee : Callback) (args : List Value) (flag : Bool) : (Node.inserted callee args flag).happening sanitize env t sub =
    (((Node.inserted callee args flag).calls env t).map Call.attempt).map .tells := List.append_nil _

theorem core_happening (nodes : List Node) : (upTo (Node.ends last) nodes).flatMap (Node.happening sanitize env t sub) =
    (upTo (Node.ends last) (coreOf nodes)).flatMap (Node.happening sanitize env t sub) := by
  refine core_flatMap (fun n core => ?_) (fun n m core => ?_) nodes
  · obtain ⟨calls,source⟩ := core_silent env t core
    rw [Node.happening,calls,source]
    rfl
  · obtain ⟨calls,source⟩ := core_calls env t core
    rw [Node.happening,Node.happening,calls,source]

theorem deeds_does (events : List Event) : deeds (events.map (Happening.does : Event → Happening ThreadID Address Address Event)) = events := by
  unfold deeds
  rw [List.filterMap_map]
  exact (List.filterMap_congr fun _ _ => rfl).trans List.filterMap_some

theorem deeds_tells (events : List Event) : deeds (events.map (Happening.tells : Event → Happening ThreadID Address Address Event)) = [] := by
  unfold deeds
  rw [List.filterMap_map]
  exact List.filterMap_eq_nil_iff.mpr fun _ _ => rfl

theorem deeds_inserted (callee : Callback) (args : List Value) (flag : Bool) :
    deeds ((Node.inserted callee args flag).happening sanitize env t sub) = [] := by rw [inserted_happening,deeds_tells]

theorem deeds_source (i : Instruction) (flag : Bool) :
    deeds ((Node.source i flag).happening sanitize env t sub) = i.shown sanitize env t ++ if i.enters then deeds (sub i) else [] := by
  rw [source_happening,deeds_append,deeds_does]
  split <;> rfl

-- What is expanded of an instruction holds the instruction itself, unless it is one
-- that a callback takes the place of.
theorem expandOne_once (opts : Options) (sanitize : Bool) (i : Instruction) (rest : List Instruction) :
    (∃ pre post, expandOne opts sanitize i rest = pre ++ .source i false :: post ∧ ∀ n ∈ pre ++ post, ∃ callee args, n = .inserted callee args false) ∨
    ((i.isAtomic = true ∨ i.isMemIntrinsic = true) ∧ ∀ n ∈ expandOne opts sanitize i rest, ∃ callee args, n = .inserted callee args false) := by
  have alone : ∃ pre post, [Node.source i false] = pre ++ .source i false :: post ∧
      ∀ n ∈ pre ++ post, ∃ callee args, n = .inserted callee args false := ⟨[],[],rfl,by simp⟩
  have before : ∀ callee args, ∃ pre post, [Node.inserted callee args false,.source i false] = pre ++ .source i false :: post ∧
      ∀ n ∈ pre ++ post, ∃ callee args, n = .inserted callee args false :=
    fun callee args => ⟨[.inserted callee args false],[],rfl,by simp⟩
  have after : ∀ callee args, ∃ pre post, [Node.source i false,.inserted callee args false] = pre ++ .source i false :: post ∧
      ∀ n ∈ pre ++ post, ∃ callee args, n = .inserted callee args false :=
    fun callee args => ⟨[],[.inserted callee args false],rfl,by simp⟩
  unfold expandOne
  split
  · rename_i atomic
    split
    · unfold atomicRewrite
      dsimp only
      split
      · exact .inl alone
      · rename_i callee replaces found
        cases replaces with
        | true => exact .inr ⟨.inl atomic,by simp⟩
        | false => exact .inl (before _ _)
    · exact .inl alone
  · split
    · rename_i intrinsic
      split
      · unfold memIntrinsicRewrite
        dsimp only
        split
        · exact .inl alone
        · exact .inr ⟨.inr intrinsic,by simp⟩
      · exact .inl alone
    · split
      · split
        · unfold loadOrStoreRewrite
          dsimp only
          split
          · exact .inl alone
          · exact .inl (before _ _)
        · exact .inl alone
      · left
        unfold laidOut
        split
        · split
          · exact before _ _
          · exact after _ _
        · exact alone

theorem replaced_silent (sanitize : Bool) (env : Env) (t : ThreadID) {i : Instruction} (served : i.Served)
    (replaced : i.isAtomic = true ∨ i.isMemIntrinsic = true) : i.shown sanitize env t = [] ∧ i.enters = false := by
  have silent : i.place = none ∧ Node.request (.source i false) = none := by
    rcases replaced with atomic | intrinsic
    · exact ⟨(atomic_alone atomic).1,(atomic_alone atomic).2.2⟩
    · exact (intrinsic_alone intrinsic).2
  refine ⟨silent_shown (placeless_events (by rw [← request_sync served,silent.2]) silent.1),?_⟩
  rw [Bool.eq_false_iff]
  intro enters
  obtain ⟨_,atomic,intrinsic,_⟩ := enters_cases enters
  simp [atomic,intrinsic] at replaced

theorem inserted_deeds {nodes : List Node} (inserted : ∀ n ∈ nodes, ∃ callee args, n = .inserted callee args false) :
    deeds (nodes.flatMap (Node.happening sanitize env t sub)) = [] := by
  unfold deeds
  rw [List.filterMap_flatMap,List.flatMap_eq_nil_iff]
  intro n member
  obtain ⟨callee,args,rfl⟩ := inserted n member
  exact deeds_inserted callee args false

theorem expandOne_deeds {i : Instruction} (served : i.Served) (rest : List Instruction) :
    deeds ((expandOne opts sanitize i rest).flatMap (Node.happening sanitize env t sub)) =
      i.shown sanitize env t ++ if i.enters then deeds (sub i) else [] := by
  rcases expandOne_once opts sanitize i rest with ⟨pre,post,same,others⟩ | ⟨replaced,others⟩
  · rw [same,List.flatMap_append,List.flatMap_cons,deeds_append,deeds_append,deeds_source,
      inserted_deeds fun n member => others n (List.mem_append_left _ member),
      inserted_deeds fun n member => others n (List.mem_append_right _ member),List.append_nil,List.nil_append]
  · obtain ⟨silent,outside⟩ := replaced_silent sanitize env t served replaced
    rw [inserted_deeds others,silent,outside]
    rfl

theorem block_deeds {block : List Instruction} (served : ∀ i ∈ block, i.Served) (stops : ∀ i ∈ last, i.enters = true) :
    deeds ((upTo (Node.ends last) (expansion opts sanitize block)).flatMap (Node.happening sanitize env t sub)) =
      (upTo (Instruction.ends last) block).flatMap fun i => i.shown sanitize env t ++ if i.enters then deeds (sub i) else [] := by
  induction block with
  | nil => rfl
  | cons i rest ih =>
    have later := ih fun j member => served j (List.mem_cons_of_mem _ member)
    have here := served i List.mem_cons_self
    rw [upTo_expansion here stops,List.flatMap_append,deeds_append,expandOne_deeds here,upTo]
    cases i.ends last with
    | true => simp [deeds]
    | false => simp [later]

end Nodes

section Standing
variable {opts : Options} {sanitize : Bool} {env : Env} {t : ThreadID} {last : Option Instruction}
  {sub : Instruction → List (Happening ThreadID Address Address Event)}

def standing (pc : Pc ThreadID Address) (run : List (Happening ThreadID Address Address Event)) : Pc ThreadID Address :=
  (steps run).foldl Pc.after pc

theorem standing_append (pc : Pc ThreadID Address) (run rest : List (Happening ThreadID Address Address Event)) :
    standing pc (run ++ rest) = standing (standing pc run) rest := by
  rw [standing,steps_append,List.foldl_append]
  rfl

theorem standing_plain {run : List (Happening ThreadID Address Address Event)} (pc : Pc ThreadID Address)
    (plain : ∀ h ∈ run, ∃ e : Event, (h = .does e ∨ h = .tells e) ∧ e.Synchronizes = false) : standing pc run = pc := by
  induction run with
  | nil => rfl
  | cons h rest ih =>
    have tail := ih fun h member => plain h (List.mem_cons_of_mem _ member)
    obtain ⟨e,happens,quiet⟩ := plain h List.mem_cons_self
    have stays : standing pc [h] = pc := by
      rcases happens with rfl | rfl <;> cases e <;> first | rfl | cases quiet
    rw [← List.singleton_append,standing_append,stays,tail]

theorem sync_placeless {i : Instruction} {op : Sync} (sync : i.sync = some op) : i.place = none := by
  cases access : i.place with
  | none => rfl
  | some p => rw [place_unsync access] at sync; cases sync

theorem sync_rests {i : Instruction} (served : i.Served) {op : Sync} (sync : i.sync = some op) (pc : Pc ThreadID Address) :
    standing pc ((laidOut i).flatMap (Node.happening sanitize env t sub)) = .idle := by
  have requests := request_sync served
  obtain ⟨v,arg⟩ := Option.isSome_iff_exists.mp (request_served served (show (Node.request (.source i false)).isSome by rw [requests,sync]; rfl)).2
  have outside : i.enters = false := by simp [Instruction.enters,sync]
  unfold laidOut
  rw [requests,sync,arg]
  cases op <;> simp only [reduceIte,reduceCtorEq,List.flatMap_cons,List.flatMap_nil,List.append_nil,source_happening,
    inserted_happening,placeless_shown sanitize (sync_placeless sync),Instruction.events,sync,arg,outside,Bool.false_eq_true] <;> rfl

theorem sync_expanded {i : Instruction} (served : i.Served) {op : Sync} (sync : i.sync = some op) (rest : List Instruction) :
    expandOne opts sanitize i rest = laidOut i := by
  have requests : Node.request (.source i false) ≠ none := by rw [request_sync served,sync]; simp
  have atomic : i.isAtomic = false := Bool.eq_false_iff.mpr fun atomic => requests (atomic_alone atomic).2.2
  have intrinsic : i.isMemIntrinsic = false := Bool.eq_false_iff.mpr fun intrinsic => requests (intrinsic_alone intrinsic).2.2
  have picked : chosen i rest = false := by
    rw [Bool.eq_false_iff]
    intro picked
    obtain ⟨p,access⟩ := chosen_place picked
    exact requests (place_alone access).2.2
  simp [expandOne,atomic,intrinsic,picked]

theorem expandOne_rests (on : opts.instrumentMemoryAccesses = true) {i : Instruction} (served : i.Served)
    (plain : ∀ q, i.kind = .load q false → q.isVtableAccess = false) (within : standing .idle (sub i) = .idle) (rest : List Instruction) :
    standing .idle ((expandOne opts sanitize i rest).flatMap (Node.happening sanitize env t sub)) = .idle := by
  cases sync : i.sync with
  | some op =>
    rw [sync_expanded served sync]
    exact sync_rests served sync .idle
  | none =>
    cases enters : i.enters with
    | true =>
      obtain ⟨_,_,_,none,_⟩ := enters_cases enters
      rw [enters_expanded enters served,List.flatMap_singleton,source_happening,silent_shown (placeless_events sync none),enters]
      exact within
    | false =>
      refine standing_plain .idle fun h member => ?_
      obtain ⟨n,inside,member⟩ := List.mem_flatMap.mp member
      rcases List.mem_append.mp member with tells | does
      · obtain ⟨e,called,rfl⟩ := List.mem_map.mp tells
        obtain ⟨c,made,rfl⟩ := List.mem_map.mp called
        have among : c.attempt ∈ ((i.marks sanitize env t rest).filter Prod.snd).map Prod.fst := by
          rw [← expandOne_calls on sanitize served plain rest]
          exact List.mem_map_of_mem (List.mem_flatMap.mpr ⟨n,inside,made⟩)
        obtain ⟨x,kept,same⟩ := List.mem_map.mp among
        have event : c.attempt ∈ i.shown sanitize env t := by
          rw [← marks_events i rest,← same]
          exact List.mem_map_of_mem (List.mem_of_mem_filter kept)
        exact ⟨_,.inr rfl,unsync_quiet sync _ (shown_sub event)⟩
      · rcases expandOne_mine sanitize i rest n inside with rfl | none
        · simp only [Node.source?,enters,Bool.false_eq_true,if_false,List.append_nil] at does
          obtain ⟨e,event,rfl⟩ := List.mem_map.mp does
          exact ⟨e,.inl rfl,unsync_quiet sync e (shown_sub event)⟩
        · rw [none] at does; cases does

theorem block_rests (on : opts.instrumentMemoryAccesses = true) {block : List Instruction} (served : ∀ i ∈ block, i.Served)
    (plain : ∀ i ∈ block, ∀ q, i.kind = .load q false → q.isVtableAccess = false) (stops : ∀ i ∈ last, i.enters = true)
    (within : ∀ i, standing .idle (sub i) = .idle) :
    standing .idle ((upTo (Node.ends last) (expansion opts sanitize block)).flatMap (Node.happening sanitize env t sub)) = .idle := by
  induction block with
  | nil => rfl
  | cons i rest ih =>
    have later := ih (fun j member => served j (List.mem_cons_of_mem _ member)) fun j member => plain j (List.mem_cons_of_mem _ member)
    have here := served i List.mem_cons_self
    rw [upTo_expansion here stops,List.flatMap_append,standing_append,
      expandOne_rests on here (plain i List.mem_cons_self) (within i)]
    split
    · rfl
    · exact later

end Standing

section Threads
variable {opts : Options} {escape : Escape}

theorem told_tells (calls : List Call) : told (calls.map (Happening.tells : Call → Occurrence)) = calls := by
  unfold told
  rw [List.filterMap_map]
  exact (List.filterMap_congr fun _ _ => rfl).trans List.filterMap_some

theorem told_does (events : List Event) : told (events.map (Happening.does : Event → Occurrence)) = [] := by
  unfold told
  rw [List.filterMap_map]
  exact List.filterMap_eq_nil_iff.mpr fun _ _ => rfl

mutual

theorem visit_told (t : ThreadID) : (v : Visit) → told (v.happenings opts escape t) = v.calls opts escape t
  | .through F block env within ending => by
    rw [Visit.happenings,Visit.calls]
    unfold told
    rw [List.filterMap_flatMap]
    congr 1
    funext n
    change told _ = _
    rw [told_append,told_tells]
    congr 1
    cases n.source? with
    | none => rfl
    | some i =>
      dsimp only
      rw [told_append,told_does,List.nil_append]
      split
      · exact visits_told t (within i)
      · rfl

theorem visits_told (t : ThreadID) : (vs : List Visit) → told (happeningsOf opts escape t vs) = callsOf opts escape t vs
  | [] => rfl
  | v :: rest => by rw [happeningsOf,callsOf,told_append,visit_told t v,visits_told t rest]

end

theorem attempted_append (run rest : List Occurrence) : attempted (run ++ rest) = attempted run ++ attempted rest := List.map_append

theorem visit_attempted (documented : escape.Documented) (t : ThreadID) {F : Function} (usual : F.Usual) (block : ℕ) (env : Env)
    (within : Instruction → List Visit) (ending : Ending) :
    attempted ((Visit.through F block env within ending).happenings opts escape t) =
      (upTo (Node.ends ending.last) (expansion opts F.sanitized (F.blocks.getD block []))).flatMap
        (Node.happening F.sanitized env t fun i => attempted (happeningsOf opts escape t (within i))) := by
  have cores : coreOf ((instrumented opts escape F).getD block []) = expansion opts F.sanitized (F.blocks.getD block []) := by
    rw [usual_instrumented usual,finished_block documented]
  rw [← cores,← core_happening,Visit.happenings]
  unfold attempted
  rw [List.map_flatMap]
  congr 1
  funext n
  rw [Node.happening,List.map_append,List.map_map,List.map_map]
  congr 1
  cases n.source? with
  | none => rfl
  | some i =>
    dsimp only
    rw [List.map_append,List.map_map]
    congr 1
    split <;> rfl

mutual

theorem visit_deeds (documented : escape.Documented) (t : ThreadID) : (v : Visit) → v.Of Function.Usual →
    deeds (v.happenings opts escape t) = v.events t
  | .through F block env within ending,⟨usual,stops,inner⟩ => by
    rw [← deeds_map Call.attempt]
    change deeds (attempted _) = _
    rw [visit_attempted documented t usual,block_deeds (fun i member => usual.served i (block_within member)) stops,Visit.events]
    congr 1
    funext i
    rw [attempted,deeds_map,visits_deeds documented t (within i) (inner i)]

theorem visits_deeds (documented : escape.Documented) (t : ThreadID) : (vs : List Visit) → VisitsOf Function.Usual vs →
    deeds (happeningsOf opts escape t vs) = eventsOf t vs
  | [],_ => rfl
  | v :: rest,⟨usual,later⟩ => by
    rw [happeningsOf,eventsOf,deeds_append,visit_deeds documented t v usual,visits_deeds documented t rest later]

end

mutual

theorem visit_rests (on : opts.instrumentMemoryAccesses = true) (documented : escape.Documented) (t : ThreadID) :
    (v : Visit) → v.Of Function.Usual → standing .idle (attempted (v.happenings opts escape t)) = .idle
  | .through F block env within ending,⟨usual,stops,inner⟩ => by
    rw [visit_attempted documented t usual]
    exact block_rests on (fun i member => usual.served i (block_within member))
      (fun i member q load => usual.plain i (block_within member) q (by simp [Instruction.loaded,load])) stops
      fun i => visits_rest on documented t (within i) (inner i)

theorem visits_rest (on : opts.instrumentMemoryAccesses = true) (documented : escape.Documented) (t : ThreadID) :
    (vs : List Visit) → VisitsOf Function.Usual vs → standing .idle (attempted (happeningsOf opts escape t vs)) = .idle
  | [],_ => rfl
  | v :: rest,⟨usual,later⟩ => by
    rw [happeningsOf,attempted_append,standing_append,visit_rests on documented t v usual,visits_rest on documented t rest later]

end

end Threads

section Runs
variable {opts : Options} {escape : Escape} {main : ThreadID} {runs : ThreadID → List Visit} {run : List Occurrence}

-- A run of the instrumented program, in any interleaving that the mutexes, the
-- creations and the joins allow: what its threads do and the callbacks that they make
-- are steps of their own. No callback comes before that for the creation of its thread.
structure Joint (opts : Options) (escape : Escape) (main : ThreadID) (runs : ThreadID → List Visit) (run : List Occurrence) : Prop where
  usual : ∀ t, VisitsOf Function.Usual (runs t)
  threads : ∀ t, run.filter (fun h => (h.map Call.attempt).of t) = happeningsOf opts escape t (runs t)
  scheduled : Scheduled main (steps (attempted run))
  introduced : Introduced main ((told run).map Call.attempt)

theorem deeds_own (run : List Occurrence) (t : ThreadID) :
    (deeds run).filter (Event.own t) = deeds (run.filter fun h => (h.map Call.attempt).of t) := by
  unfold deeds
  rw [List.filter_filterMap,List.filterMap_filter]
  refine List.filterMap_congr fun h _ => ?_
  cases h <;> simp [Happening.deed?,Happening.map,Happening.of,Event.own,Option.filter_some]

theorem told_own (run : List Occurrence) (t : ThreadID) :
    (told run).filter (fun c => c.self = t) = told (run.filter fun h => (h.map Call.attempt).of t) := by
  unfold told
  rw [List.filter_filterMap,List.filterMap_filter]
  refine List.filterMap_congr fun h _ => ?_
  cases h <;> simp [Happening.told?,Happening.map,Happening.of,attempt_actor,Option.filter_some]

theorem joint_executed (on : opts.instrumentMemoryAccesses = true) (documented : escape.Documented)
    (joint : Joint opts escape main runs run) : Executed opts escape main runs (deeds run) (told run) := by
  obtain ⟨usual,threads,scheduled,introduced⟩ := joint
  have attempts : told (attempted run) = (told run).map Call.attempt := told_map Call.attempt run
  have done : deeds (attempted run) = deeds run := deeds_map Call.attempt run
  have rests : ∀ t, (machineAfter main (steps (attempted run))).pc t = .idle := by
    intro t
    have own : (attempted run).filter (Happening.of t) = attempted (happeningsOf opts escape t (runs t)) := by
      rw [← threads t,attempted,List.filter_map]
      rfl
    rw [pc_own,own]
    exact visits_rest on documented t (runs t) (usual t)
  refine ⟨usual,fun t => ?_,fun t => ?_,fun m => ?_,?_,?_⟩
  · rw [deeds_own,threads t,visits_deeds documented t (runs t) (usual t)]
  · rw [told_own,threads t,visits_told]
  · rw [← attempts,← told_rounds scheduled rests m,done]
  · exact done ▸ deeds_legal scheduled
  · exact attempts ▸ told_legal scheduled (attempts ▸ introduced)

theorem joint_races (on : opts.instrumentMemoryAccesses = true) (documented : escape.Documented)
    (joint : Joint opts escape main runs run) (a : Address) :
    Reported (eventsFrom 0 (told run)) a ↔ ∃ i j, Races (deeds run) a i j := by
  have executed := joint_executed on documented joint
  obtain ⟨dropped,removable,same⟩ := executed_observed on documented executed
  have kept := legal_without (removable_accesses removable) executed.legal
  rw [events_reported executed.announced,← sameOrder_races kept executed.announced same,
    ← reported_iff_races (legal_disciplined kept),reported_without executed.legal removable,
    reported_iff_races (legal_disciplined executed.legal)]

-- The instrumented program reports an address exactly when two accesses to it race
-- in what the program does.
theorem pass_preserves_races (on : opts.instrumentMemoryAccesses = true) (documented : escape.Documented)
    (joint : Joint opts escape main runs run) {cpp : Cpp} {s : Runtime} (prepared : s.Prepared) (quiet : s.isConcurrent = 0)
    (named : Named s ((told run).map Call.attempt)) (spare : Spare cpp s ((told run).map Call.attempt)) :
    ∃ s' reports, invokeAll cpp s (told run) = some (s',reports) ∧
      ∀ a, CallReported (told run) reports a ↔ ∃ i j, Races (deeds run) a i j := by
  obtain ⟨s',reports,ran,reported⟩ := callbacks_reported prepared named (gated_spare prepared named _ spare)
  refine ⟨s',reports,ran,fun a => ?_⟩
  rw [reported,quiet,joint_races on documented joint]

def countOnce : Function := ⟨"count",false,.sanitizeThread,[[⟨1,.load ⟨6,32,4,false,false,true,false,false⟩ false⟩,
  ⟨2,.store ⟨6,32,4,false,false,true,false,false⟩ false⟩,⟨3,.ret⟩]]⟩

def countTwice : Function := ⟨"main",false,.unmarked,[[⟨4,.call (some "pthread_create") [7]⟩,⟨5,.call (some "count") []⟩,⟨6,.ret⟩]]⟩

def countValues : Env := ⟨fun _ => 100,fun _ => 2,fun _ => ⟨10,0,0⟩,fun _ => 0⟩

def countVisit : Visit := .through countOnce 0 countValues (fun _ => []) .whole

def countRuns (t : ThreadID) : List Visit :=
  if t = 1 then [.through countTwice 0 countValues (fun _ => [countVisit]) .whole] else if t = 2 then [countVisit] else []

def countRun : List Occurrence := [.does (.fork 1 2),.tells ⟨1,.threadCreate 2⟩,.does (.access 1 .read 100),.does (.access 2 .read 100),
  .tells ⟨2,.access .write4 100 ⟨10,0,0⟩⟩,.does (.access 2 .write 100),.ends 2,.tells ⟨1,.access .write4 100 ⟨10,0,0⟩⟩,
  .does (.access 1 .write 100)]

theorem count_joint : Joint ⟨true,true,true,true,true⟩ unthrowing 1 countRuns countRun := by
  have counted : countVisit.Of Function.Usual := ⟨by decide,by decide,fun _ => trivial⟩
  have others : ∀ h ∈ countRun, ∀ t, (h.map Call.attempt).of t = true → t = 1 ∨ t = 2 := by
    intro h member t own
    simp only [countRun,List.mem_cons,List.not_mem_nil,or_false] at member
    rcases member with rfl | rfl | rfl | rfl | rfl | rfl | rfl | rfl | rfl <;> first
      | exact .inl (of_decide_eq_true own).symm
      | exact .inr (of_decide_eq_true own).symm
      | cases own
  refine ⟨fun t => ?_,fun t => ?_,by decide,by decide⟩
  · by_cases one : t = 1
    · subst one; exact ⟨⟨by decide,by decide,fun _ => ⟨counted,trivial⟩⟩,trivial⟩
    by_cases two : t = 2
    · subst two; exact ⟨counted,trivial⟩
    rw [countRuns,if_neg one,if_neg two]; trivial
  · by_cases one : t = 1
    · subst one; rfl
    by_cases two : t = 2
    · subst two; rfl
    rw [countRuns,if_neg one,if_neg two]
    exact List.filter_eq_nil_iff.mpr fun h member own => (others h member t own).elim one two

theorem pass_preserves_races_counter : ∃ s' reports,
    invokeAll (.checked .leftFirst) (.ofThreads [1,2] (by decide)) (told countRun) = some (s',reports) ∧
    ∀ a, CallReported (told countRun) reports a ↔ ∃ i j, Races (deeds countRun) a i j :=
  pass_preserves_races rfl unthrowing_documented count_joint (ofThreads_prepared (by decide)) rfl (by decide) (by decide)

end Runs
end ThreadSanitizer
