import EmbedSanitizer.EpochDetector

namespace EpochDetector
open HappensBefore ThreadEvents LogicalClock

section Pasts
variable {T L A : Type*}

theorem past_new {s : Clocks T L} (owned : Owned s) (live : 0 < s (.thread t) t) (writes : Bool) :
    (⟨t,s (.thread t),writes⟩ : Visit T).Past s where
  closed := by
    intro c known x
    have own : c = .thread t := by
      by_contra other
      exact Nat.not_le_of_lt (owned c t other) known
    exact own ▸ Nat.le_refl _
  reached := Nat.le_refl _
  foreign := fun u other => owned (.thread t) u (by simpa using other.symm)
  positive := live

variable [DecidableEq T] [DecidableEq L]

theorem past_step {s : Clocks T L} {y : Visit T} (past : y.Past s) (e : Event T L A) :
    y.Past (LogicalClock.step s e) where
  closed := closed_step past.closed past.reached e
  reached := Nat.le_trans past.reached (thread_step_le s e _ _)
  foreign := fun t other => Nat.lt_of_lt_of_le (past.foreign t other) (thread_step_le s e _ _)
  positive := past.positive

theorem live_after (tr : List (Event T L A)) (t : T) : 0 < LogicalClock.after tr (.thread t) t :=
  Nat.lt_of_lt_of_le (by simp [LogicalClock.start]) (thread_after_le [] tr t t)

end Pasts

section Runs

structure Detector (T L A : Type*) where
  clocks : Clocks T L
  cells : A → Option (Cell T)

variable {T L A : Type*}

def Detector.cell (σ : Detector T L A) (t : T) (kind : Access) (a : A) : Cell T :=
  (σ.cells a).getD (.fresh t (σ.clocks (.thread t)) kind)

def Detector.Reports (σ : Detector T L A) : Event T L A → Prop
  | .access t kind a => (σ.cell t kind a).Races kind t (σ.clocks (.thread t))
  | _ => False

def visitOf [DecidableEq A] (s : Clocks T L) (a : A) : Event T L A → Option (Visit T)
  | .access t kind b => if b = a then some ⟨t,s (.thread t),kind.writes⟩ else none
  | _ => none

theorem visitOf_untouched [DecidableEq A] {s : Clocks T L} {e : Event T L A} (untouched : ¬ e.Touches a) : visitOf s a e = none := by
  cases e with
  | access t kind b =>
    have other : b ≠ a := fun equal => untouched ⟨t,kind,by rw [equal]⟩
    simp [visitOf,other]
  | _ => rfl

variable [DecidableEq T] [DecidableEq L] [DecidableEq A]

def Detector.start : Detector T L A := ⟨LogicalClock.start,fun _ => none⟩

def Detector.step (σ : Detector T L A) (e : Event T L A) : Detector T L A where
  clocks := LogicalClock.step σ.clocks e
  cells := match e with
    | .access t kind a => Function.update σ.cells a
        (some ((σ.cell t kind a).after kind t (σ.clocks (.thread t))))
    | _ => σ.cells

def run (tr : List (Event T L A)) : Detector T L A := tr.foldl Detector.step .start

@[simp] theorem run_snoc (tr : List (Event T L A)) (e : Event T L A) : run (tr ++ [e]) = (run tr).step e := by
  simp [run]

@[simp] theorem run_clocks (tr : List (Event T L A)) : (run tr).clocks = LogicalClock.after tr := by
  induction tr using List.reverseRecOn with
  | nil => rfl
  | append_singleton tr e ih => rw [run_snoc,after_snoc,← ih]; rfl

def Reported (tr : List (Event T L A)) (a : A) : Prop :=
  ∃ k e, tr[k]? = some e ∧ e.Touches a ∧ (run (tr.take k)).Reports e

theorem reported_snoc (tr : List (Event T L A)) (e : Event T L A) (a : A) :
    Reported (tr ++ [e]) a ↔ Reported tr a ∨ (e.Touches a ∧ (run tr).Reports e) := by
  constructor
  · rintro ⟨k,d,found,touches,reports⟩
    rcases getElem?_snoc.mp found with ⟨old,found⟩ | ⟨rfl,rfl⟩
    · rw [List.take_append_of_le_length (Nat.le_of_lt old)] at reports
      exact .inl ⟨k,d,found,touches,reports⟩
    · exact .inr ⟨touches,by simpa using reports⟩
  · rintro (⟨k,d,found,touches,reports⟩ | ⟨touches,reports⟩)
    · have old := (List.getElem?_eq_some_iff.mp found).1
      refine ⟨k,d,by rw [List.getElem?_append_left old]; exact found,touches,?_⟩
      rwa [List.take_append_of_le_length (Nat.le_of_lt old)]
    · exact ⟨tr.length,e,by simp,touches,by simpa using reports⟩

def visitsFrom (s : Clocks T L) (a : A) : List (Event T L A) → List (Visit T)
  | [] => []
  | e :: rest => (visitOf s a e).toList ++ visitsFrom (LogicalClock.step s e) a rest

def visits (tr : List (Event T L A)) (a : A) : List (Visit T) := visitsFrom LogicalClock.start a tr

theorem visitsFrom_snoc (s : Clocks T L) (tr : List (Event T L A)) (e : Event T L A) (a : A) :
    visitsFrom s a (tr ++ [e]) = visitsFrom s a tr ++ (visitOf (tr.foldl LogicalClock.step s) a e).toList := by
  induction tr generalizing s with
  | nil => simp [visitsFrom]
  | cons d rest ih => simp [visitsFrom,ih]

theorem visits_snoc (tr : List (Event T L A)) (e : Event T L A) (a : A) :
    visits (tr ++ [e]) a = visits tr a ++ (visitOf (LogicalClock.after tr) a e).toList := visitsFrom_snoc _ _ _ _

theorem step_untouched {σ : Detector T L A} {e : Event T L A} (untouched : ¬ e.Touches a) :
    (σ.step e).cells a = σ.cells a := by
  cases e with
  | access t kind b =>
    have other : a ≠ b := fun equal => untouched ⟨t,kind,by rw [equal]⟩
    simp [Detector.step,other]
  | _ => rfl

-- What the run up to here has done at one address. While nothing is reported the
-- cell still accounts for every visit; a report is never about ordered visits.
structure Tracked (tr : List (Event T L A)) (a : A) : Prop where
  past : ∀ y ∈ visits tr a, y.Past (LogicalClock.after tr)
  untouched : (run tr).cells a = none → visits tr a = []
  sound : ∀ x, (run tr).cells a = some x → Sound (visits tr a) x
  complete : ∀ x, (run tr).cells a = some x → ¬ Reported tr a → Complete (visits tr a) x
  exact : Reported tr a ↔ ¬ (visits tr a).Pairwise Visit.Ordered

theorem tracked_nil (a : A) : Tracked ([] : List (Event T L A)) a where
  past := by simp [visits,visitsFrom]
  untouched := fun _ => rfl
  sound := by simp [run,Detector.start]
  complete := by simp [run,Detector.start]
  exact := by simp [Reported,visits,visitsFrom]

theorem tracked_untouched {tr : List (Event T L A)} (tracked : Tracked tr a) (untouched : ¬ e.Touches a) :
    Tracked (tr ++ [e]) a := by
  have sameVisits : visits (tr ++ [e]) a = visits tr a := by
    rw [visits_snoc,visitOf_untouched untouched]; simp
  have sameCell : (run (tr ++ [e])).cells a = (run tr).cells a := by rw [run_snoc,step_untouched untouched]
  have sameReports : Reported (tr ++ [e]) a ↔ Reported tr a := by
    rw [reported_snoc]; exact or_iff_left fun touched => untouched touched.1
  constructor
  · rw [sameVisits,after_snoc]
    exact fun y member => past_step (tracked.past y member) e
  · rw [sameCell,sameVisits]; exact tracked.untouched
  · rw [sameCell,sameVisits]; exact tracked.sound
  · rw [sameCell,sameVisits,sameReports]; exact tracked.complete
  · rw [sameVisits,sameReports]; exact tracked.exact

section Accesses
variable {tr : List (Event T L A)} {x : Cell T} {t : T} {kind : Access}

theorem visits_access (tr : List (Event T L A)) (t : T) (kind : Access) (a : A) : visits (tr ++ [.access t kind a]) a =
    visits tr a ++ [⟨t,LogicalClock.after tr (.thread t),kind.writes⟩] := by
  rw [visits_snoc]; simp [visitOf]

theorem cells_access (found : (run tr).cell t kind a = x) : (run (tr ++ [.access t kind a])).cells a =
    some (x.after kind t (LogicalClock.after tr (.thread t))) := by
  rw [run_snoc]; simp [Detector.step,found]

theorem reported_access (found : (run tr).cell t kind a = x) : Reported (tr ++ [.access t kind a]) a ↔
    Reported tr a ∨ x.Races kind t (LogicalClock.after tr (.thread t)) := by
  rw [reported_snoc]; simp [Detector.Reports,Event.Touches,found]

theorem past_access (past : ∀ y ∈ visits tr a, y.Past (LogicalClock.after tr)) (t : T) (kind : Access) :
    ∀ y ∈ visits (tr ++ [.access t kind a]) a, y.Past (LogicalClock.after (tr ++ [.access t kind a])) := by
  have sameClocks : LogicalClock.after (tr ++ [.access t kind a]) = LogicalClock.after tr := by rw [after_snoc]; rfl
  rw [visits_access,sameClocks]
  intro y member
  rcases List.mem_append.mp member with old | new
  · exact past y old
  · rw [List.mem_singleton.mp new]; exact past_new (owned_after tr) (live_after tr t) _

theorem tracked_first (tracked : Tracked tr a) (held : (run tr).cells a = none) (t : T) (kind : Access) :
    Tracked (tr ++ [.access t kind a]) a := by
  have live := live_after tr t
  have first := tracked.untouched held
  have found : (run tr).cell t kind a = .fresh t (LogicalClock.after tr (.thread t)) kind := by simp [Detector.cell,held]
  have unreported : ¬ Reported tr a := by rw [tracked.exact,first]; simp
  constructor
  · exact past_access tracked.past t kind
  · rw [cells_access found]; simp
  · rw [cells_access found,visits_access,first]
    rintro x ⟨⟩
    exact fresh_sound live kind
  · rw [cells_access found,visits_access,first]
    rintro x ⟨⟩ _
    exact fresh_complete live kind
  · rw [reported_access found,visits_access,first]
    simp [unreported,fresh_quiet]

theorem pairs_access (tracked : Tracked tr a) (held : (run tr).cells a = some x) (t : T) (kind : Access) :
    Reported tr a ∨ x.Races kind t (LogicalClock.after tr (.thread t)) ↔
      ¬ (visits tr a ++ [(⟨t,LogicalClock.after tr (.thread t),kind.writes⟩ : Visit T)]).Pairwise Visit.Ordered := by
  have sound := tracked.sound x held
  have pairs (z : Visit T) : (visits tr a ++ [z]).Pairwise Visit.Ordered ↔
      (visits tr a).Pairwise Visit.Ordered ∧ ∀ y ∈ visits tr a, y.Ordered z := by
    simp [List.pairwise_append]
  rw [pairs]
  constructor
  · rintro (earlier | races) ⟨ordered,last⟩
    · exact tracked.exact.mp earlier ordered
    · obtain ⟨y,member,other,conflict,late⟩ := races_late tracked.past sound races
      exact Nat.not_le_of_lt late (last y member other conflict)
  · intro disordered
    by_contra unreported
    have silent : ¬ Reported tr a := fun reported => unreported (.inl reported)
    have ordered := not_not.mp (mt tracked.exact.mpr silent)
    refine disordered ⟨ordered,fun y member other conflict => ?_⟩
    exact quiet_knows tracked.past ordered sound (tracked.complete x held silent) (live_after tr t)
      (fun races => unreported (.inr races)) member other conflict

theorem tracked_again (tracked : Tracked tr a) (held : (run tr).cells a = some x) (t : T) (kind : Access) :
    Tracked (tr ++ [.access t kind a]) a := by
  have found : (run tr).cell t kind a = x := by simp [Detector.cell,held]
  have sound := tracked.sound x held
  constructor
  · exact past_access tracked.past t kind
  · rw [cells_access found]; simp
  · rw [cells_access found,visits_access]
    rintro x' ⟨⟩
    exact sound_after sound kind t _
  · rw [cells_access found,visits_access,reported_access found]
    rintro x' ⟨⟩ unreported
    have silent : ¬ Reported tr a := fun reported => unreported (.inl reported)
    have ordered := not_not.mp (mt tracked.exact.mpr silent)
    exact complete_after tracked.past ordered sound (tracked.complete x held silent) (live_after tr t)
      (fun races => unreported (.inr races))
  · rw [reported_access found,visits_access]
    exact pairs_access tracked held t kind

theorem tracked_access (tracked : Tracked tr a) (t : T) (kind : Access) : Tracked (tr ++ [.access t kind a]) a := by
  cases held : (run tr).cells a with
  | none => exact tracked_first tracked held t kind
  | some x => exact tracked_again tracked held t kind

end Accesses

theorem tracked (tr : List (Event T L A)) (a : A) : Tracked tr a := by
  induction tr using List.reverseRecOn with
  | nil => exact tracked_nil a
  | append_singleton tr e ih =>
    by_cases touches : e.Touches a
    · obtain ⟨t,kind,rfl⟩ := touches; exact tracked_access ih t kind
    · exact tracked_untouched ih touches

-- Two accesses that could race, the later one made with a clock that has not seen
-- the count of the earlier one.
def Unseen (tr : List (Event T L A)) (a : A) (i j : ℕ) : Prop :=
  i < j ∧ ∃ e e', tr[i]? = some e ∧ tr[j]? = some e' ∧ Conflict a e e' ∧
    clockAt tr j e' e.actor < countAt tr i e

theorem mem_visits {tr : List (Event T L A)} : y ∈ visits tr a ↔
    ∃ i e, tr[i]? = some e ∧ visitOf (LogicalClock.after (tr.take i)) a e = some y := by
  induction tr using List.reverseRecOn with
  | nil => simp [visits,visitsFrom]
  | append_singleton tr e ih =>
    rw [visits_snoc,List.mem_append,ih,Option.mem_toList]
    constructor
    · rintro (⟨i,d,found,visit⟩ | visit)
      · have old := (List.getElem?_eq_some_iff.mp found).1
        refine ⟨i,d,by rw [List.getElem?_append_left old]; exact found,?_⟩
        rwa [List.take_append_of_le_length (Nat.le_of_lt old)]
      · exact ⟨tr.length,e,by simp,by simpa using visit⟩
    · rintro ⟨i,d,found,visit⟩
      rcases getElem?_snoc.mp found with ⟨old,found⟩ | ⟨rfl,rfl⟩
      · rw [List.take_append_of_le_length (Nat.le_of_lt old)] at visit
        exact .inl ⟨i,d,found,visit⟩
      · exact .inr (by simpa using visit)

omit [DecidableEq T] [DecidableEq L] in
theorem visitOf_some {s : Clocks T L} {e : Event T L A} : visitOf s a e = some y ↔
    ∃ t kind, e = .access t kind a ∧ y = ⟨t,s (.thread t),kind.writes⟩ := by
  cases e with
  | access t kind b => simp [visitOf]; grind
  | _ => simp [visitOf]

theorem ordered_events {tr : List (Event T L A)} {d e : Event T L A}
    (first : visitOf (LogicalClock.after (tr.take i)) a d = some y)
    (second : visitOf (LogicalClock.after (tr.take j)) a e = some z) :
    y.Ordered z ↔ (Conflict a d e → countAt tr i d ≤ clockAt tr j e d.actor) := by
  obtain ⟨t,k,rfl,rfl⟩ := visitOf_some.mp first
  obtain ⟨u,l,rfl,rfl⟩ := visitOf_some.mp second
  constructor
  · rintro ordered ⟨_,_,_,_,left,right,different,writes⟩
    cases left; cases right
    exact ordered different writes
  · intro seen different writes
    exact seen ⟨t,u,k,l,rfl,rfl,different,writes⟩

omit [DecidableEq T] [DecidableEq L] in
theorem conflict_visits (s s' : Clocks T L) {d e : Event T L A} (conflict : Conflict a d e) :
    (∃ y, visitOf s a d = some y) ∧ ∃ z, visitOf s' a e = some z := by
  obtain ⟨t,u,k,l,rfl,rfl,_⟩ := conflict
  exact ⟨⟨_,visitOf_some.mpr ⟨_,_,rfl,rfl⟩⟩,⟨_,visitOf_some.mpr ⟨_,_,rfl,rfl⟩⟩⟩

omit [DecidableEq A] in
theorem unseen_snoc {tr : List (Event T L A)} {e : Event T L A} : Unseen (tr ++ [e]) a i j ↔
    Unseen tr a i j ∨ (j = tr.length ∧ ∃ d, tr[i]? = some d ∧ Conflict a d e ∧
      clockAt (tr ++ [e]) tr.length e d.actor < countAt (tr ++ [e]) i d) := by
  have same : ∀ {k} {d : Event T L A}, k ≤ tr.length →
      clockAt (tr ++ [e]) k d = clockAt tr k d ∧ countAt (tr ++ [e]) k d = countAt tr k d := by
    intro k d bound; unfold clockAt countAt; rw [List.take_append_of_le_length bound]; exact ⟨rfl,rfl⟩
  constructor
  · rintro ⟨order,d,d',atI,atJ,conflict,unseen⟩
    rcases getElem?_snoc.mp atJ with ⟨bound,atJ⟩ | ⟨rfl,rfl⟩
    · rw [List.getElem?_append_left (Nat.lt_trans order bound)] at atI
      rw [(same (Nat.le_of_lt bound)).1,(same (Nat.le_of_lt (Nat.lt_trans order bound))).2] at unseen
      exact .inl ⟨order,d,d',atI,atJ,conflict,unseen⟩
    · rw [List.getElem?_append_left order] at atI
      exact .inr ⟨rfl,d,atI,conflict,unseen⟩
  · rintro (⟨order,d,d',atI,atJ,conflict,unseen⟩ | ⟨rfl,d,atI,conflict,unseen⟩)
    · have bound := (List.getElem?_eq_some_iff.mp atJ).1
      refine ⟨order,d,d',?_,?_,conflict,?_⟩
      · rw [List.getElem?_append_left (Nat.lt_trans order bound)]; exact atI
      · rw [List.getElem?_append_left bound]; exact atJ
      · rwa [(same (Nat.le_of_lt bound)).1,(same (Nat.le_of_lt (Nat.lt_trans order bound))).2]
    · have bound := (List.getElem?_eq_some_iff.mp atI).1
      exact ⟨bound,d,e,by rw [List.getElem?_append_left bound]; exact atI,by simp,conflict,unseen⟩

theorem visits_ordered {tr : List (Event T L A)} : (visits tr a).Pairwise Visit.Ordered ↔ ∀ i j, ¬ Unseen tr a i j := by
  induction tr using List.reverseRecOn with
  | nil => simp [visits,visitsFrom,Unseen]
  | append_singleton tr e ih =>
    have lastVisit : visitOf (LogicalClock.after tr) a e =
        visitOf (LogicalClock.after ((tr ++ [e]).take tr.length)) a e := by simp
    have earlier : ∀ {i} {d : Event T L A}, tr[i]? = some d → visitOf (LogicalClock.after (tr.take i)) a d =
        visitOf (LogicalClock.after ((tr ++ [e]).take i)) a d := by
      intro i d found
      rw [List.take_append_of_le_length (Nat.le_of_lt (List.getElem?_eq_some_iff.mp found).1)]
    rw [visits_snoc,List.pairwise_append,ih]
    constructor
    · rintro ⟨old,_,last⟩ i j unseen
      rcases unseen_snoc.mp unseen with unseen | ⟨rfl,d,found,conflict,unseen⟩
      · exact old i j unseen
      · obtain ⟨⟨y,visitY⟩,⟨z,visitZ⟩⟩ := conflict_visits (LogicalClock.after (tr.take i))
          (LogicalClock.after tr) conflict
        have ordered := last y (mem_visits.mpr ⟨i,d,found,visitY⟩) z (by simp [visitZ])
        rw [earlier found] at visitY
        rw [lastVisit] at visitZ
        exact Nat.not_le_of_lt unseen ((ordered_events visitY visitZ).mp ordered conflict)
    · intro seen
      refine ⟨fun i j unseen => seen i j (unseen_snoc.mpr (.inl unseen)),?_,?_⟩
      · cases visitOf (LogicalClock.after tr) a e <;> simp
      · intro y member z visitZ
        obtain ⟨i,d,found,visitY⟩ := mem_visits.mp member
        rw [Option.mem_toList,lastVisit] at visitZ
        rw [earlier found] at visitY
        refine (ordered_events visitY visitZ).mpr fun conflict => Nat.le_of_not_lt fun unseen => ?_
        exact seen i tr.length (unseen_snoc.mpr (.inr ⟨rfl,d,found,conflict,unseen⟩))

-- The detector reports an address exactly when two accesses to it are unordered
-- by the clocks, whatever the synchronization that produced these clocks.
theorem reported_iff_unseen (tr : List (Event T L A)) (a : A) : Reported tr a ↔ ∃ i j, Unseen tr a i j := by
  rw [(tracked tr a).exact,visits_ordered]
  simp

omit [DecidableEq A] in
theorem unseen_iff_races {tr : List (Event T L A)} (disciplined : Disciplined tr) (order : i < j) :
    Unseen tr a i j ↔ Races tr a i j := by
  have notAfter : ¬ Before ThreadEvents.order tr j i := fun after => Nat.lt_asymm order (before_lt after)
  have seen : ∀ {e e'}, tr[i]? = some e → tr[j]? = some e' → Conflict a e e' →
      (Before ThreadEvents.order tr i j ↔ countAt tr i e ≤ clockAt tr j e' e.actor) := by
    rintro e e' atI atJ ⟨t,u,k,l,rfl,rfl,_,_⟩
    exact before_iff_count disciplined order atI atJ
  constructor
  · rintro ⟨_,e,e',atI,atJ,conflict,unseen⟩
    refine ⟨⟨e,e',atI,atJ,conflict⟩,fun before => ?_,notAfter⟩
    exact Nat.not_le_of_lt unseen ((seen atI atJ conflict).mp before)
  · rintro ⟨⟨e,e',atI,atJ,conflict⟩,notBefore,_⟩
    exact ⟨order,e,e',atI,atJ,conflict,Nat.lt_of_not_le fun known => notBefore ((seen atI atJ conflict).mpr known)⟩

theorem reported_iff_races {tr : List (Event T L A)} (disciplined : Disciplined tr) (a : A) :
    Reported tr a ↔ ∃ i j, Races tr a i j := by
  rw [reported_iff_unseen]
  constructor
  · rintro ⟨i,j,unseen⟩
    exact ⟨i,j,(unseen_iff_races disciplined unseen.1).mp unseen⟩
  · rintro ⟨i,j,races⟩
    rcases Nat.lt_or_gt_of_ne races.ne with order | order
    · exact ⟨i,j,(unseen_iff_races disciplined order).mpr races⟩
    · exact ⟨j,i,(unseen_iff_races disciplined order).mpr races.symm⟩

end Runs
end EpochDetector
