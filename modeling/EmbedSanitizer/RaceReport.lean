import EmbedSanitizer.TsanInterface
import EmbedSanitizer.Race
import Mathlib.Data.List.Perm.Basic

namespace EmbedSanitizer

-- The elements of races in the set's order, what has been written to std::cout, and
-- the threads that have inserted a race and not printed yet.
structure Reporting where
  races : List Race
  cout : String
  reporting : List ThreadID

def Reporting.start : Reporting := ⟨[],"",[]⟩

section Reports
variable (text : Address → String)

def Report.race (self : ThreadID) (trace : List Address) : Report → Race
  | .reportRaceOnRead site => {Race.make self site.lineNo "read" (text site.objName) (text site.fileName) with trace}
  | .reportRaceOnWrite site => {Race.make self site.lineNo "write" (text site.objName) (text site.fileName) with trace}

def printRacesFrom (msg : String) : List Race → List Race × String
  | [] => ([],msg)
  | race :: rest =>
    let created := race.createRaceMessage text msg
    let later := printRacesFrom created.2.1 rest
    (created.1 :: later.1,later.2)

def printRaces (s : Reporting) : Reporting :=
  let printed := printRacesFrom text "" s.races
  {s with races := printed.1, cout := s.cout ++ printed.2}

-- A report is an insert and a printRaces of one thread; the set may reject the race
-- or accept it at any place. The main thread prints once more at its exit.
inductive ReportAction where
  | insert (self : ThreadID) (report : Report) (trace : List Address) (place : Option ℕ)
  | print (self : ThreadID)
  | mainFuncExit

def Reporting.Allows (s : Reporting) : ReportAction → Prop
  | .insert self _ _ place => self ∉ s.reporting ∧ ∀ i ∈ place, i ≤ s.races.length
  | .print self => self ∈ s.reporting
  | .mainFuncExit => True

def Reporting.after (s : Reporting) : ReportAction → Reporting
  | .insert self report trace place =>
    {s with
      races := match place with
        | some i => s.races.insertIdx i (report.race text self trace)
        | none => s.races
      reporting := self :: s.reporting}
  | .print self => {printRaces text s with reporting := s.reporting.filter (· ≠ self)}
  | .mainFuncExit => printRaces text s

def Reporting.afterAll (s : Reporting) (actions : List ReportAction) : Reporting := actions.foldl (Reporting.after text) s

def AllowsAll (s : Reporting) : List ReportAction → Prop
  | [] => True
  | a :: rest => s.Allows a ∧ AllowsAll (s.after text a) rest

instance (s : Reporting) : (a : ReportAction) → Decidable (s.Allows a)
  | .insert self _ _ place => inferInstanceAs (Decidable (self ∉ s.reporting ∧ ∀ i ∈ place, i ≤ s.races.length))
  | .print self => inferInstanceAs (Decidable (self ∈ s.reporting))
  | .mainFuncExit => inferInstanceAs (Decidable True)

instance decidableAllowsAll (s : Reporting) : (actions : List ReportAction) → Decidable (AllowsAll text s actions)
  | [] => inferInstanceAs (Decidable True)
  | a :: rest =>
    have := decidableAllowsAll (s.after text a) rest
    inferInstanceAs (Decidable (s.Allows a ∧ AllowsAll text (s.after text a) rest))

def acceptedBy : ReportAction → Option Race
  | .insert self report trace (some _) => some (report.race text self trace)
  | _ => none

def accepted (actions : List ReportAction) : List Race := actions.filterMap (acceptedBy text)

end Reports

def Reporting.unprinted (s : Reporting) : List Race := s.races.filter fun race => !race.isMessageCreated

def Race.flagged (race : Race) : Race := {race with isMessageCreated := true}

section Printing
variable (text : Address → String)

theorem printRacesFrom_spec (races : List Race) (msg : String) : printRacesFrom text msg races =
    (races.map Race.flagged,msg ++ String.join ((races.filter fun race => !race.isMessageCreated).map (Race.message text))) := by
  induction races generalizing msg with
  | nil => simp [printRacesFrom]
  | cons race rest ih =>
    cases created : race.isMessageCreated with
    | true =>
      have same : race.flagged = race := by
        cases race
        cases created
        rfl
      simp [printRacesFrom,Race.createRaceMessage,created,ih,same]
    | false => simp [printRacesFrom,Race.createRaceMessage,created,ih,Race.flagged,String.append_assoc]

theorem printRaces_cout (s : Reporting) : (printRaces text s).cout = s.cout ++ String.join (s.unprinted.map (Race.message text)) := by
  simp [printRaces,printRacesFrom_spec,Reporting.unprinted]

theorem printRaces_unprinted (s : Reporting) : (printRaces text s).unprinted = [] := by
  simp [printRaces,printRacesFrom_spec,Reporting.unprinted,Race.flagged]

end Printing

-- What has been written, in the order of writing, is with what is unprinted all that
-- the set has accepted; a thread that has still to print accounts for the latter.
structure Settled (text : Address → String) (s : Reporting) (taken printed : List Race) : Prop where
  cout : s.cout = String.join (printed.map (Race.message text))
  once : (printed ++ s.unprinted).Perm taken
  owed : ∀ race ∈ s.unprinted, race.tid ∈ s.reporting

section Steps
variable {text : Address → String} {s : Reporting} {taken printed : List Race}

theorem settled_print (settled : Settled text s taken printed) (reporting : List ThreadID) :
    Settled text {printRaces text s with reporting} taken (printed ++ s.unprinted) := by
  have rest : ({printRaces text s with reporting} : Reporting).unprinted = [] := printRaces_unprinted text s
  refine ⟨?_,?_,?_⟩
  · rw [List.map_append,String.join_append,← settled.cout]
    exact printRaces_cout text s
  · rw [rest,List.append_nil]
    exact settled.once
  · rw [rest]
    intro race none
    cases none

theorem race_unflagged (text : Address → String) (self : ThreadID) (trace : List Address) (report : Report) :
    (report.race text self trace).isMessageCreated = false ∧ (report.race text self trace).tid = self := by
  cases report <;> exact ⟨rfl,rfl⟩

theorem settled_insert (settled : Settled text s taken printed) (self : ThreadID) (report : Report) (trace : List Address) {i : ℕ}
    (bound : i ≤ s.races.length) :
    Settled text {s with races := s.races.insertIdx i (report.race text self trace), reporting := self :: s.reporting}
      (taken ++ [report.race text self trace]) printed := by
  obtain ⟨fresh,tid⟩ := race_unflagged text self trace report
  generalize report.race text self trace = race at fresh tid ⊢
  have placed : ({s with races := s.races.insertIdx i race, reporting := self :: s.reporting} : Reporting).unprinted.Perm
      (race :: s.unprinted) := by
    have moved := (List.perm_insertIdx race s.races bound).filter fun race => !race.isMessageCreated
    rwa [List.filter_cons_of_pos (by simp [fresh])] at moved
  refine ⟨settled.cout,?_,?_⟩
  · have front : (printed ++ race :: s.unprinted).Perm (race :: (printed ++ s.unprinted)) := List.perm_middle
    have back : (race :: taken).Perm (taken ++ [race]) := (List.perm_append_singleton race taken).symm
    exact (placed.append_left printed).trans (front.trans ((settled.once.cons race).trans back))
  · intro other member
    rcases List.mem_cons.mp (placed.mem_iff.mp member) with new | old
    · rw [new,tid]
      exact List.mem_cons_self
    · exact List.mem_cons_of_mem _ (settled.owed other old)

theorem settled_step (settled : Settled text s taken printed) {a : ReportAction} (allowed : s.Allows a) :
    ∃ printed', Settled text (s.after text a) (taken ++ (acceptedBy text a).toList) printed' := by
  cases a with
  | insert self report trace place =>
    cases place with
    | some i => exact ⟨printed,settled_insert settled self report trace (allowed.2 i rfl)⟩
    | none =>
      have nothing : taken ++ (acceptedBy text (.insert self report trace none)).toList = taken := List.append_nil _
      rw [nothing]
      exact ⟨printed,settled.cout,settled.once,fun race member => List.mem_cons_of_mem _ (settled.owed race member)⟩
  | print self =>
    have nothing : taken ++ (acceptedBy text (.print self)).toList = taken := List.append_nil _
    rw [nothing]
    exact ⟨_,settled_print settled _⟩
  | mainFuncExit =>
    have nothing : taken ++ (acceptedBy text .mainFuncExit).toList = taken := List.append_nil _
    rw [nothing]
    exact ⟨_,settled_print settled s.reporting⟩

theorem settled_run (settled : Settled text s taken printed) {actions : List ReportAction} (allowed : AllowsAll text s actions) :
    ∃ printed', Settled text (s.afterAll text actions) (taken ++ accepted text actions) printed' := by
  induction actions generalizing s taken printed with
  | nil => exact ⟨printed,by simpa [Reporting.afterAll,accepted] using settled⟩
  | cons a rest ih =>
    obtain ⟨now,later⟩ := allowed
    obtain ⟨printed₁,settled₁⟩ := settled_step settled now
    obtain ⟨printed',settled'⟩ := ih settled₁ later
    refine ⟨printed',?_⟩
    have whole : taken ++ accepted text (a :: rest) = taken ++ (acceptedBy text a).toList ++ accepted text rest := by
      cases taken_now : acceptedBy text a <;> simp [accepted,taken_now]
    rw [whole]
    exact settled'

end Steps

-- Whatever the interleaving, each accepted race is printed once or still unprinted,
-- and it is printed by the time that no thread is between its insert and its print.
theorem printed_once (text : Address → String) {actions : List ReportAction} (allowed : AllowsAll text .start actions) :
    (∀ race ∈ accepted text actions, Holds (race.message text) (race.parts text)) ∧
    ∃ printed, (Reporting.start.afterAll text actions).cout = String.join (printed.map (Race.message text)) ∧
      (printed ++ (Reporting.start.afterAll text actions).unprinted).Perm (accepted text actions) ∧
      ((Reporting.start.afterAll text actions).reporting = [] → printed.Perm (accepted text actions)) := by
  have start : Settled text .start [] [] := ⟨rfl,.nil,fun race none => by cases none⟩
  obtain ⟨printed,settled⟩ := settled_run start allowed
  rw [List.nil_append] at settled
  refine ⟨fun race _ => message_holds text race,printed,settled.cout,settled.once,fun done => ?_⟩
  have rest : (Reporting.start.afterAll text actions).unprinted = [] := by
    rw [List.eq_nil_iff_forall_not_mem]
    intro race member
    have owed := settled.owed race member
    rw [done] at owed
    cases owed
  simpa [rest] using settled.once

def twoReports : List ReportAction :=
  [.insert 1 (.reportRaceOnRead ⟨7,3,4⟩) [5] (some 0),.insert 2 (.reportRaceOnWrite ⟨9,3,4⟩) [] (some 0),.print 2,.print 1]

theorem printed_once_two : (∀ race ∈ accepted (fun _ => "x") twoReports, Holds (race.message fun _ => "x") (race.parts fun _ => "x")) ∧
    ∃ printed : List Race, (Reporting.start.afterAll (fun _ => "x") twoReports).cout =
      String.join (printed.map (Race.message fun _ => "x")) ∧ printed.Perm (accepted (fun _ => "x") twoReports) := by
  have allowed : AllowsAll (fun _ => "x") .start twoReports := by decide
  obtain ⟨told,printed,written,_,finished⟩ := printed_once (fun _ => "x") allowed
  exact ⟨told,printed,written,finished (by decide)⟩

end EmbedSanitizer
