import EmbedSanitizer.Activations
import EmbedSanitizer.JointRuns
import EmbedSanitizer.WholeRuntime

namespace ThreadSanitizer
open EmbedSanitizer HappensBefore ThreadEvents EpochDetector Interleaving NestedCalls

-- What a thread tells the runtime: that it enters or leaves a function, or a callback
-- that it makes while some functions are active.
inductive Showing where
  | crossing (c : Crossing Address)
  | call (c : Call) (active : List Address)

abbrev Passage := Happening ThreadID Address Address Showing

section Courses
variable (opts : Options) (escape : Escape) (pointer : Function → Address)

def Node.crossings (name : Address) (n : Node) : List (Crossing Address) := (n.sights name []).filterMap Sight.crossing?

def Node.showings (name : Address) (active : List Address) (env : Env) (t : ThreadID) (n : Node) : List Showing :=
  (n.crossings name).map .crossing ++ (n.calls env t).map (.call · active)

mutual

def Visit.course (t : ThreadID) (active : List Address) : Visit → List Passage
  | .through F block env within ending =>
    (upTo (Node.ends ending.last) ((instrumented opts escape F).getD block []) ++
        cleanupOf (instrumented opts escape F) F block ending).flatMap fun n =>
      (n.showings (pointer F) (active ++ [pointer F]) env t).map .tells ++ match n.source? with
        | some i => (i.shown F.sanitized env t).map .does ++ if i.enters then courseOf t (active ++ [pointer F]) (within i) else []
        | none => []

def courseOf (t : ThreadID) (active : List Address) : List Visit → List Passage
  | [] => []
  | v :: rest => v.course t active ++ courseOf t active rest

end

end Courses

section Parts

def Passage.occurrence? : Passage → Option Occurrence
  | .does e => some (.does e)
  | .tells (.call c _) => some (.tells c)
  | .tells (.crossing _) => none
  | .ends t => some (.ends t)

def Passage.sight? : Passage → Option Sight
  | .tells (.crossing c) => some (.crossing c)
  | .tells (.call _ active) => some (.callback active)
  | .does _ | .ends _ => none

end Parts

section Occurrences
variable {opts : Options} {escape : Escape} {pointer : Function → Address} {t : ThreadID}

theorem crossings_hidden (crossings : List (Crossing Address)) :
    (crossings.map fun c => (.tells (.crossing c) : Passage)).filterMap Passage.occurrence? = [] := by
  rw [List.filterMap_map]
  exact List.filterMap_eq_nil_iff.mpr fun _ _ => rfl

theorem calls_occur (calls : List Call) (active : List Address) :
    (calls.map fun c => (.tells (.call c active) : Passage)).filterMap Passage.occurrence? = calls.map .tells := by
  rw [List.filterMap_map]
  exact congrFun List.filterMap_eq_map' calls

theorem showings_occur (name : Address) (active : List Address) (env : Env) (n : Node) :
    ((n.showings name active env t).map (Happening.tells : Showing → Passage)).filterMap Passage.occurrence? =
      (n.calls env t).map .tells := by
  rw [Node.showings,List.map_append,List.filterMap_append,List.map_map,List.map_map]
  exact (congrArg₂ _ (crossings_hidden _) (calls_occur _ active)).trans (List.nil_append _)

theorem deeds_occur (events : List Event) :
    (events.map (Happening.does : Event → Passage)).filterMap Passage.occurrence? = events.map .does := by
  rw [List.filterMap_map]
  exact congrFun List.filterMap_eq_map' events

theorem cleanup_silent (documented : escape.Documented) {F : Function} (usual : F.Usual) (block : ℕ) (ending : Ending) (env : Env)
    {n : Node} (member : n ∈ cleanupOf (instrumented opts escape F) F block ending) : n.calls env t = [] ∧ n.source? = none := by
  have cores : coreOf ((instrumented opts escape F).getD F.blocks.length []) = [] := by
    rw [usual_instrumented usual,finished_block documented,List.getD_eq_default _ _ (Nat.le_refl _)]
    rfl
  refine core_silent env t (List.filterMap_eq_nil_iff.mp cores n ?_)
  unfold cleanupOf at member
  split at member
  · split at member
    · exact member
    · cases member
  · cases member

mutual

theorem visit_occurrences (documented : escape.Documented) (active : List Address) : (v : Visit) → v.Of Function.Usual →
    (v.course opts escape pointer t active).filterMap Passage.occurrence? = v.happenings opts escape t
  | .through F block env within ending,⟨usual,_,inner⟩ => by
    rw [Visit.course,Visit.happenings,List.filterMap_flatMap,List.flatMap_append]
    have hidden : (cleanupOf (instrumented opts escape F) F block ending).flatMap (fun n =>
        ((n.showings (pointer F) (active ++ [pointer F]) env t).map .tells ++ match n.source? with
          | some i => (i.shown F.sanitized env t).map .does ++
              if i.enters then courseOf opts escape pointer t (active ++ [pointer F]) (within i) else []
          | none => []).filterMap Passage.occurrence?) = [] := by
      refine List.flatMap_eq_nil_iff.mpr fun n member => ?_
      obtain ⟨calls,source⟩ := cleanup_silent (t := t) documented usual block ending env member
      rw [List.filterMap_append,showings_occur,calls,source]
      rfl
    rw [hidden,List.append_nil]
    congr 1
    funext n
    rw [List.filterMap_append,showings_occur]
    congr 1
    cases n.source? with
    | none => rfl
    | some i =>
      dsimp only
      rw [List.filterMap_append,deeds_occur]
      congr 1
      split
      · exact visits_occurrences documented _ (within i) (inner i)
      · rfl

theorem visits_occurrences (documented : escape.Documented) (active : List Address) : (vs : List Visit) → VisitsOf Function.Usual vs →
    (courseOf opts escape pointer t active vs).filterMap Passage.occurrence? = happeningsOf opts escape t vs
  | [],_ => rfl
  | v :: rest,⟨usual,later⟩ => by
    rw [courseOf,happeningsOf,List.filterMap_append,visit_occurrences documented active v usual,visits_occurrences documented active rest later]

end

end Occurrences

section Sights

inductive Thins : List Sight → List Sight → Prop
  | nothing : Thins [] []
  | kept {xs ys} (sight : Sight) (later : Thins xs ys) : Thins (sight :: xs) (sight :: ys)
  | dropped {xs ys} (active : List Address) (later : Thins xs ys) : Thins (.callback active :: xs) ys

variable {name : Address} {active stack next : List Address} {env : Env} {t : ThreadID} {xs ys xs' ys' : List Sight}

theorem thins_append (first : Thins xs ys) (later : Thins xs' ys') : Thins (xs ++ xs') (ys ++ ys') := by
  induction first with
  | nothing => exact later
  | kept sight _ ih => exact .kept sight ih
  | dropped active _ ih => exact .dropped active ih

theorem thins_flatMap {α : Type*} {f g : α → List Sight} (each : ∀ x, Thins (f x) (g x)) (nodes : List α) :
    Thins (nodes.flatMap f) (nodes.flatMap g) := by
  induction nodes with
  | nil => exact .nothing
  | cons x xs ih => exact thins_append (each x) ih

theorem thins_crossings (xs : List Sight) : Thins xs ((xs.filterMap Sight.crossing?).map .crossing) := by
  induction xs with
  | nil => exact .nothing
  | cons x xs ih =>
    cases x with
    | crossing c => exact .kept _ ih
    | callback active => exact .dropped active ih

theorem thins_follows (thins : Thins xs ys) (led : follows stack xs = some next) : follows stack ys = some next := by
  induction thins generalizing stack with
  | nothing => exact led
  | kept sight _ ih =>
    cases sight with
    | crossing c => exact ih led
    | callback active =>
      rw [follows] at led ⊢
      split at led
      · rename_i same
        rw [if_pos same]
        exact ih led
      · cases led
  | dropped active _ ih =>
    rw [follows] at led
    split at led
    · exact ih led
    · cases led

theorem crossings_sights (name : Address) (active : List Address) (n : Node) :
    (n.sights name active).filterMap Sight.crossing? = n.crossings name := by
  cases n with
  | inserted callee args flag => cases callee <;> rfl
  | _ => rfl

theorem showings_seen (name : Address) (active : List Address) (env : Env) (t : ThreadID) (n : Node) :
    ((n.showings name active env t).map (Happening.tells : Showing → Passage)).filterMap Passage.sight? =
      (n.crossings name).map .crossing ++ (n.calls env t).map fun _ => .callback active := by
  rw [Node.showings,List.map_append,List.filterMap_append,List.map_map,List.map_map,List.filterMap_map,List.filterMap_map]
  exact congrArg₂ _ (congrFun List.filterMap_eq_map' _) (congrFun List.filterMap_eq_map' _)

theorem calls_few (env : Env) (t : ThreadID) (n : Node) : (n.calls env t).length ≤ 1 := by
  unfold Node.calls
  split
  all_goals first
    | exact Nat.le_refl 1
    | exact Nat.zero_le 1
    | rw [List.length_map]; exact Option.length_toList_le

theorem node_thins (name : Address) (active : List Address) (env : Env) (t : ThreadID) (n : Node) :
    Thins (n.sights name active) (((n.showings name active env t).map (Happening.tells : Showing → Passage)).filterMap Passage.sight?) := by
  rw [showings_seen,← crossings_sights name active n]
  cases core : n.core with
  | none =>
    rw [(core_silent env t core).1,List.map_nil,List.append_nil]
    exact thins_crossings _
  | some m =>
    cases n with
    | source i flag => exact .nothing
    | inserted callee args flag =>
      have plain := (core_plain core).1
      have seen : (Node.inserted callee args flag).sights name active = [.callback active] := by
        cases callee <;> first | rfl | cases plain
      have few := calls_few env t (.inserted callee args flag)
      rw [seen]
      cases calls : (Node.inserted callee args flag).calls env t with
      | nil => exact .dropped active .nothing
      | cons c rest =>
        rw [calls,List.length_cons] at few
        obtain rfl := List.length_eq_zero_iff.mp (Nat.le_zero.mp (Nat.le_of_succ_le_succ few))
        exact .kept _ .nothing
    | _ => cases core

theorem deeds_unseen (events : List Event) : (events.map (Happening.does : Event → Passage)).filterMap Passage.sight? = [] := by
  rw [List.filterMap_map]
  exact List.filterMap_eq_nil_iff.mpr fun _ _ => rfl

variable {opts : Options} {escape : Escape} {pointer : Function → Address}

mutual

theorem visit_thins (active : List Address) : (v : Visit) →
    Thins (v.sights opts escape pointer active) ((v.course opts escape pointer t active).filterMap Passage.sight?)
  | .through F block env within ending => by
    rw [Visit.sights,Visit.course,List.filterMap_flatMap]
    refine thins_flatMap (fun n => ?_) _
    rw [List.filterMap_append]
    refine thins_append (node_thins _ _ env t n) ?_
    cases n.source? with
    | none => exact .nothing
    | some i =>
      dsimp only
      rw [List.filterMap_append,deeds_unseen,List.nil_append]
      split
      · exact visits_thin _ (within i)
      · exact .nothing

theorem visits_thin (active : List Address) : (vs : List Visit) →
    Thins (sightsOf opts escape pointer active vs) ((courseOf opts escape pointer t active vs).filterMap Passage.sight?)
  | [] => .nothing
  | v :: rest => by
    rw [sightsOf,courseOf,List.filterMap_append]
    exact thins_append (visit_thins active v) (visits_thin active rest)

end

end Sights

-- All that happens in a process: what the threads of the program do, and the steps
-- that they make in the runtime.
abbrev Episode := Happening ThreadID Address Address RuntimeAction

section Episodes

def Episode.occurrence? : Episode → Option Occurrence
  | .does e => some (.does e)
  | .tells (.call c _) => some (.tells c)
  | .tells (.tracing _) => none
  | .ends t => some (.ends t)

def occurrences (run : List Episode) : List Occurrence := run.filterMap Episode.occurrence?

def Showing.bare : Showing → Showing
  | .crossing c => .crossing c
  | .call c _ => .call c []

def showingOf (t : ThreadID) : RuntimeAction → Option Showing
  | .call c _ => if c.self = t then some (.call c []) else none
  | .tracing a => (a.crossing t).map .crossing

def Episode.passage (t : ThreadID) : Episode → Option Passage
  | .does e => if e.actor = t then some (.does e) else none
  | .tells a => (showingOf t a).map .tells
  | .ends _ => none

def Passage.crossing? : Passage → Option (Crossing Address)
  | .tells (.crossing c) => some c
  | _ => none

variable {run : List Episode} {t : ThreadID}

theorem told_split {κ : Type*} {run : List (Happening ThreadID Address Address κ)} {past later : List κ} {x : κ}
    (split : told run = past ++ x :: later) : ∃ first second, run = first ++ .tells x :: second ∧ told first = past ∧ told second = later := by
  obtain ⟨first,rest,rfl,before,after⟩ := List.filterMap_eq_append_iff.mp split
  obtain ⟨silent,h,second,rfl,none,tells,others⟩ := List.filterMap_eq_cons_iff.mp after
  cases h with
  | tells y =>
    cases tells
    refine ⟨first ++ silent,second,by simp,?_,others⟩
    have quiet : told silent = [] := List.filterMap_eq_nil_iff.mpr none
    rw [told_append,quiet,List.append_nil]
    exact before
  | _ => cases tells

theorem occurrences_deeds (run : List Episode) : deeds (occurrences run) = deeds run := by
  unfold deeds occurrences
  rw [List.filterMap_filterMap]
  refine List.filterMap_congr fun h _ => ?_
  cases h with
  | tells a => cases a <;> rfl
  | _ => rfl

theorem occurrences_told (run : List Episode) : told (occurrences run) = callsIn (told run) := by
  unfold told occurrences callsIn
  rw [List.filterMap_filterMap,List.filterMap_filterMap,List.map_filterMap]
  refine List.filterMap_congr fun h _ => ?_
  cases h with
  | tells a => cases a <;> rfl
  | _ => rfl

theorem occurrences_own (run : List Episode) (t : ThreadID) :
    (occurrences run).filter (fun h => (h.map Call.attempt).of t) = (run.filterMap (Episode.passage t)).filterMap Passage.occurrence? := by
  unfold occurrences
  rw [List.filter_filterMap,List.filterMap_filterMap]
  refine List.filterMap_congr fun h _ => ?_
  cases h with
  | does e => by_cases own : e.actor = t <;> simp [Episode.occurrence?,Episode.passage,Happening.map,Happening.of,Passage.occurrence?,own]
  | tells a =>
    cases a with
    | call c answer =>
      by_cases own : c.self = t <;>
        simp [Episode.occurrence?,Episode.passage,showingOf,Happening.map,Happening.of,Passage.occurrence?,attempt_actor,own]
    | tracing a => cases crossed : a.crossing t <;> simp [Episode.occurrence?,Episode.passage,showingOf,Passage.occurrence?,crossed]
  | ends u => rfl

theorem bare_occurrences (course : List Passage) :
    (course.map (Happening.map Showing.bare)).filterMap Passage.occurrence? = course.filterMap Passage.occurrence? := by
  rw [List.filterMap_map]
  refine List.filterMap_congr fun h _ => ?_
  cases h with
  | tells a => cases a <;> rfl
  | _ => rfl

theorem bare_crossings (course : List Passage) :
    (course.map (Happening.map Showing.bare)).filterMap Passage.crossing? = course.filterMap Passage.crossing? := by
  rw [List.filterMap_map]
  refine List.filterMap_congr fun h _ => ?_
  cases h with
  | tells a => cases a <;> rfl
  | _ => rfl

theorem sights_crossings (course : List Passage) :
    (course.filterMap Passage.sight?).filterMap Sight.crossing? = course.filterMap Passage.crossing? := by
  rw [List.filterMap_filterMap]
  refine List.filterMap_congr fun h _ => ?_
  cases h with
  | tells a => cases a <;> rfl
  | _ => rfl

theorem passages_crossings (run : List Episode) (t : ThreadID) :
    (run.filterMap (Episode.passage t)).filterMap Passage.crossing? = crossings t (tracesIn (told run)) := by
  unfold told tracesIn crossings
  rw [List.filterMap_filterMap,List.filterMap_filterMap,List.filterMap_filterMap]
  refine List.filterMap_congr fun h _ => ?_
  cases h with
  | does e => by_cases own : e.actor = t <;> simp [Episode.passage,Passage.crossing?,Happening.told?,own]
  | tells a =>
    cases a with
    | call c answer =>
      by_cases own : c.self = t <;> simp [Episode.passage,showingOf,RuntimeAction.traced,Passage.crossing?,Happening.told?,own]
    | tracing a =>
      cases crossed : a.crossing t <;> simp [Episode.passage,showingOf,RuntimeAction.traced,Passage.crossing?,Happening.told?,crossed]
  | ends u => rfl

end Episodes

section Programs
variable {opts : Options} {escape : Escape} {throws : Function → Instruction → Bool} {pointer : Function → Address} {main : ThreadID}
  {runs : ThreadID → List Visit} {run : List Episode}

-- A process of the instrumented program, in any interleaving: every thread goes on its
-- way through the functions, and the steps of its callbacks are steps of their own.
structure Performed (opts : Options) (escape : Escape) (throws : Function → Instruction → Bool) (pointer : Function → Address)
    (main : ThreadID) (runs : ThreadID → List Visit) (run : List Episode) : Prop where
  usual : ∀ t, VisitsOf Function.Usual (runs t)
  ways : ∀ t, ∃ gone, Runs throws gone (runs t)
  threads : ∀ t, run.filterMap (Episode.passage t) = (courseOf opts escape pointer t [] (runs t)).map (Happening.map Showing.bare)
  scheduled : Scheduled main (steps (attempted (occurrences run)))
  introduced : Introduced main ((callsIn (told run)).map Call.attempt)

theorem performed_joint (documented : escape.Documented) (performed : Performed opts escape throws pointer main runs run) :
    Joint opts escape main runs (occurrences run) where
  usual := performed.usual
  threads t := by
    rw [occurrences_own,performed.threads t,bare_occurrences]
    exact visits_occurrences documented [] (runs t) (performed.usual t)
  scheduled := performed.scheduled
  introduced := by rw [occurrences_told]; exact performed.introduced

theorem usual_ready {F : Function} (usual : F.Usual) : F.Ready :=
  ⟨usual.ordinary,usual.distinct,fun i member requests => (request_served (usual.served i member) requests).2⟩

mutual

theorem visit_of {P Q : Function → Prop} (implies : ∀ F, P F → Q F) : (v : Visit) → v.Of P → v.Of Q
  | .through _ _ _ within _,⟨holds,stops,inner⟩ => ⟨implies _ holds,stops,fun i => visits_of implies (within i) (inner i)⟩

theorem visits_of {P Q : Function → Prop} (implies : ∀ F, P F → Q F) : (vs : List Visit) → VisitsOf P vs → VisitsOf Q vs
  | [],_ => trivial
  | v :: rest,⟨first,later⟩ => ⟨visit_of implies v first,visits_of implies rest later⟩

end

-- Once the thread of c has shown what it shows in first, it comes to that callback,
-- in the functions of the stack.
def Arrives (opts : Options) (escape : Escape) (pointer : Function → Address) (runs : ThreadID → List Visit) (first : List Episode)
    (c : Call) (stack : List Address) : Prop :=
  ∃ before after, courseOf opts escape pointer c.self [] (runs c.self) = before ++ .tells (.call c stack) :: after ∧
    before.map (Happening.map Showing.bare) = first.filterMap (Episode.passage c.self)

theorem callback_active (frames : opts.instrumentFuncEntryExit = true) (handles : opts.handleCxxExceptions = true)
    (catches : escape.Catches throws) (performed : Performed opts escape throws pointer main runs run) {c : Call} {answer : Option Report}
    {first second : List Episode} (split : run = first ++ .tells (.call c answer) :: second) :
    Arrives opts escape pointer runs first c (openIn c.self (told first)) := by
  subst split
  have threads := performed.threads c.self
  have own : showingOf c.self (.call c answer) = some (.call c []) := if_pos rfl
  rw [List.filterMap_append,List.filterMap_cons_some (b := .tells (.call c [])) (by rw [Episode.passage,own]; rfl)] at threads
  obtain ⟨before,rest,course,shown,others⟩ := List.map_eq_append_iff.mp threads.symm
  obtain ⟨x,after,rfl,same,_⟩ := List.map_eq_cons_iff.mp others
  obtain ⟨active,rfl⟩ : ∃ active, x = .tells (.call c active) := by
    cases x with
    | tells showing =>
      cases showing with
      | call d active => cases same; exact ⟨active,rfl⟩
      | crossing d => cases same
    | _ => cases same
  obtain ⟨gone,way⟩ := performed.ways c.self
  have ready := visits_of (fun _ => usual_ready) (runs c.self) (performed.usual c.self)
  have led : (follows [] (sightsOf opts escape pointer [] (runs c.self))).isSome = true := (runs_follow frames handles catches way ready []).1
  obtain ⟨next,led⟩ := Option.isSome_iff_exists.mp led
  have thinned := thins_follows (visits_thin (t := c.self) [] (runs c.self)) led
  rw [course,List.filterMap_append] at thinned
  have reached : crossAll [] ((before.filterMap Passage.sight?).filterMap Sight.crossing?) = active :=
    follows_callback (Option.isSome_iff_exists.mpr ⟨next,thinned⟩) rfl
  rw [sights_crossings,← bare_crossings,shown,passages_crossings] at reached
  exact ⟨before,after,by rw [course,openIn,reached],shown⟩

theorem split_answered {first second : List Episode} {c : Call} {report : Report}
    (split : run = first ++ .tells (.call c (some report)) :: second) :
    Answered (told run) c report (openIn c.self (told first)) (told second) := by
  subst split
  exact ⟨told first,by rw [told_append]; rfl,rfl⟩

theorem answered_split {a : Address} : (∃ c report stack later, Answered (told run) c report stack later ∧ c.addr = some a) ↔
    ∃ first c report second, run = first ++ .tells (.call c (some report)) :: second ∧ c.addr = some a := by
  constructor
  · rintro ⟨c,report,_,_,⟨past,split,_⟩,addr⟩
    obtain ⟨first,second,cut,_,_⟩ := told_split split
    exact ⟨first,c,report,second,cut,addr⟩
  · rintro ⟨first,c,report,second,split,addr⟩
    exact ⟨c,report,_,_,split_answered split,addr⟩

theorem program_races_reported (on : opts.instrumentMemoryAccesses = true) (frames : opts.instrumentFuncEntryExit = true)
    (handles : opts.handleCxxExceptions = true) (documented : escape.Documented) (catches : escape.Catches throws)
    (performed : Performed opts escape throws pointer main runs run) {cpp : Cpp} {text : Address → String} {s : Runtime} {w : WholeRuntime}
    (prepared : s.Prepared) (quiet : s.isConcurrent = 0) (ran : (WholeRuntime.start s).runAll cpp text (told run) = some w)
    (named : Named s ((callsIn (told run)).map Call.attempt)) (spare : Spare cpp s ((callsIn (told run)).map Call.attempt)) :
    (∀ a, (∃ i j, Races (deeds run) a i j) ↔
      ∃ first c report second, run = first ++ .tells (.call c (some report)) :: second ∧ c.addr = some a) ∧
    ∀ first c report second, run = first ++ .tells (.call c (some report)) :: second → c.report true = some report ∧
      ∃ stack, Arrives opts escape pointer runs first c stack ∧ (InsertsNext c.self report stack (told second) ∨
        insertions c.self (told second) = [] ∧ w.underway c.self = some (report,stack)) := by
  obtain ⟨s',reports,detected,reported⟩ := callbacks_reported prepared named (gated_spare prepared named _ spare)
  cases (run_answers ran).symm.trans detected
  constructor
  · intro a
    have races := joint_races on documented (performed_joint documented performed) a
    rw [occurrences_told,occurrences_deeds] at races
    rw [← answered_split,← reported_answered,reported,quiet,races]
  · intro first c report second split
    obtain ⟨made,inserted⟩ := answered_inserted ran (split_answered split)
    exact ⟨made,_,callback_active frames handles catches performed split,inserted⟩

theorem unthrowing_catches : unthrowing.Catches fun _ _ => false := by
  intro F c body
  refine ⟨[],?_,.inl rfl,fun _ _ _ i _ => Bool.and_false _⟩
  rw [List.append_nil]
  refine List.forall₂_same.mpr fun block _ => List.forall₂_same.mpr fun n _ => ?_
  have caught := caught_map (fun _ => false) n
  have same : n.caught (fun _ => false) = n := by cases n <;> simp [Node.caught]
  rwa [same] at caught

def countReport : Report := .reportRaceOnWrite ⟨10,0,0⟩

def countPointer (F : Function) : Address := if F.funcName = "main" then 9 else 5

def countEpisodes : List Episode := [.tells (.tracing (.funcEntry 1 9)),.does (.fork 1 2),.tells (.call ⟨1,.threadCreate 2⟩ none),
  .tells (.tracing (.funcEntry 1 5)),.does (.access 1 .read 100),.tells (.tracing (.funcEntry 2 5)),.does (.access 2 .read 100),
  .tells (.call ⟨2,.access .write4 100 ⟨10,0,0⟩⟩ none),.does (.access 2 .write 100),
  .tells (.call ⟨1,.access .write4 100 ⟨10,0,0⟩⟩ (some countReport)),.tells (.tracing (.funcExit 2 5)),
  .tells (.tracing (.getStack 1 countReport)),.tells (.tracing (.popBack 2 5)),.ends 2,.tells (.tracing (.build 1 countReport)),
  .tells (.tracing (.insert 1 countReport [9,5] (some 0))),.tells (.tracing (.print 1)),.does (.access 1 .write 100),
  .tells (.tracing (.funcExit 1 5)),.tells (.tracing (.popBack 1 5)),.tells (.tracing (.funcExit 1 9)),.tells (.tracing (.popBack 1 9))]

theorem count_performed : Performed ⟨true,true,true,true,true⟩ unthrowing (fun _ _ => false) countPointer 1 countRuns countEpisodes where
  usual := count_joint.usual
  ways t := by
    have counts : Runs (fun _ _ => false) true [countVisit] := .last (.leaves (by decide) (by decide) fun _ => .nothing)
    refine ⟨true,?_⟩
    by_cases one : t = 1
    · subst one; exact .last (.leaves (by decide) (by decide) fun _ => counts)
    by_cases two : t = 2
    · subst two; exact counts
    rw [countRuns,if_neg one,if_neg two]; exact .nothing
  threads t := by
    by_cases one : t = 1
    · subst one; rfl
    by_cases two : t = 2
    · subst two; rfl
    rw [countRuns,if_neg one,if_neg two]
    have other : ¬1#32 = t ∧ ¬2#32 = t := ⟨Ne.symm one,Ne.symm two⟩
    simp [countEpisodes,Episode.passage,showingOf,TraceAction.crossing,Event.actor,other,courseOf]
  scheduled := by decide
  introduced := by decide

theorem program_races_reported_counter : ∃ w,
    (WholeRuntime.start (.ofThreads [1,2] (by decide))).runAll (.checked .leftFirst) (fun _ => "f") (told countEpisodes) = some w ∧
    (∃ i j, Races (deeds countEpisodes) 100 i j) ∧
    Arrives ⟨true,true,true,true,true⟩ unthrowing countPointer countRuns (countEpisodes.take 9) ⟨1,.access .write4 100 ⟨10,0,0⟩⟩ [9,5] ∧
    InsertsNext 1 countReport [9,5] (told (countEpisodes.drop 10)) := by
  obtain ⟨w,ran⟩ := Option.isSome_iff_exists.mp (show ((WholeRuntime.start (.ofThreads [1,2] (by decide))).runAll
    (.checked .leftFirst) (fun _ => "f") (told countEpisodes)).isSome from by decide)
  obtain ⟨reported,framed⟩ := program_races_reported rfl rfl rfl unthrowing_documented unthrowing_catches count_performed
    (ofThreads_prepared (by decide)) rfl ran (by decide) (by decide)
  have split : countEpisodes = countEpisodes.take 9 ++ .tells (.call ⟨1,.access .write4 100 ⟨10,0,0⟩⟩ (some countReport)) ::
      countEpisodes.drop 10 := rfl
  obtain ⟨_,stack,arrives,inserts | ⟨none,_⟩⟩ := framed _ _ _ _ split
  · obtain ⟨rest,inserted⟩ := next_insertion inserts
    have written : insertions 1 (told (countEpisodes.drop 10)) = [(countReport,[9,5])] := rfl
    cases (List.cons.inj (inserted.symm.trans written)).1
    exact ⟨w,ran,(reported 100).mpr ⟨_,_,_,_,split,rfl⟩,arrives,inserts⟩
  · cases none

end Programs

end ThreadSanitizer
