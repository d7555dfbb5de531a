import EmbedSanitizer.LogicalClock
import Mathlib.Data.List.Pairwise

namespace EpochDetector
open HappensBefore ThreadEvents LogicalClock

abbrev Epoch (T : Type*) := T × ℕ

-- What is kept of an address: the last write, and either one read or, when the
-- reads are shared (none), one read for each thread. The vector survives writes.
structure Cell (T : Type*) where
  write : Epoch T
  read : Option (Epoch T)
  readers : T → ℕ

section Cells
variable {T : Type*}

def Cell.fresh (t : T) (v : T → ℕ) (kind : Access) : Cell T :=
  if kind.opensWriting then ⟨(t,v t),some (t,0),fun _ => 0⟩ else ⟨(t,0),some (t,v t),fun _ => 0⟩

def Late (v : T → ℕ) (t : T) (e : Epoch T) : Prop := e.1 ≠ t ∧ v e.1 < e.2

def Cell.readRaces (x : Cell T) (t : T) (v : T → ℕ) : Prop :=
  x.read ≠ some (t,v t) ∧ Late v t x.write

def Cell.writeRaces (x : Cell T) (t : T) (v : T → ℕ) : Prop :=
  x.write ≠ (t,v t) ∧ (Late v t x.write ∨ match x.read with
    | some r => Late v t r
    | none => ∃ u, v u < x.readers u)

def Cell.Races (x : Cell T) (kind : Access) (t : T) (v : T → ℕ) : Prop :=
  if kind.writes then x.writeRaces t v else x.readRaces t v

theorem fresh_quiet (t : T) (v : T → ℕ) (kind : Access) : ¬ (Cell.fresh t v kind).Races kind t v := by
  cases kind <;> simp [Cell.fresh,Cell.Races,Cell.readRaces,Cell.writeRaces,Access.writes,Access.opensWriting,Late]

variable [DecidableEq T]

def Cell.afterRead (x : Cell T) (t : T) (v : T → ℕ) : Cell T :=
  if x.read = some (t,v t) then x else
  match x.read with
  | none => {x with readers := Function.update x.readers t (v t)}
  | some r =>
    if r.2 ≤ v r.1 then {x with read := some (t,v t)}
    else {x with read := none, readers := Function.update (Function.update x.readers r.1 r.2) t (v t)}

def Cell.afterWrite (x : Cell T) (t : T) (v : T → ℕ) : Cell T :=
  if x.write = (t,v t) then x else
  match x.read with
  | some _ => {x with write := (t,v t)}
  | none => {x with write := (t,v t), read := some (t,0)}

def Cell.after (x : Cell T) (kind : Access) (t : T) (v : T → ℕ) : Cell T :=
  if kind.writes then x.afterWrite t v else x.afterRead t v

section Updates
variable {x : Cell T} {t : T} {v : T → ℕ} {r : Epoch T}

theorem afterRead_same (held : x.read = some (t,v t)) : x.afterRead t v = x := if_pos held

theorem afterRead_shared (held : x.read = none) : x.afterRead t v = {x with readers := Function.update x.readers t (v t)} := by
  simp [Cell.afterRead,held]

theorem afterRead_seen (held : x.read = some r) (seen : r.2 ≤ v r.1) : x.afterRead t v = {x with read := some (t,v t)} := by
  by_cases same : r = (t,v t)
  · subst same
    rw [afterRead_same held,← held]
  · simp [Cell.afterRead,held,same,seen]

theorem afterRead_unseen (held : x.read = some r) (unseen : v r.1 < r.2) : x.afterRead t v =
    {x with read := none, readers := Function.update (Function.update x.readers r.1 r.2) t (v t)} := by
  have other : r ≠ (t,v t) := by rintro rfl; exact Nat.lt_irrefl _ unseen
  simp [Cell.afterRead,held,other,Nat.not_le_of_lt unseen]

theorem afterWrite_same (held : x.write = (t,v t)) : x.afterWrite t v = x := if_pos held

theorem afterWrite_exclusive (held : x.read = some r) : x.afterWrite t v = {x with write := (t,v t)} := by
  by_cases same : x.write = (t,v t)
  · rw [afterWrite_same same,← same]
  · simp [Cell.afterWrite,held,same]

theorem afterWrite_shared (moved : x.write ≠ (t,v t)) (held : x.read = none) :
    x.afterWrite t v = {x with write := (t,v t), read := some (t,0)} := by
  simp [Cell.afterWrite,held,moved]

end Updates

inductive Cell.ReadStep (x : Cell T) (t : T) (v : T → ℕ) : Cell T → Prop where
  | same (held : x.read = some (t,v t)) : ReadStep x t v x
  | shared (held : x.read = none) : ReadStep x t v {x with readers := Function.update x.readers t (v t)}
  | exclusive (held : x.read = some r) (seen : r.2 ≤ v r.1) : ReadStep x t v {x with read := some (t,v t)}
  | share (held : x.read = some r) (unseen : v r.1 < r.2) : ReadStep x t v
      {x with read := none, readers := Function.update (Function.update x.readers r.1 r.2) t (v t)}

inductive Cell.WriteStep (x : Cell T) (t : T) (v : T → ℕ) : Cell T → Prop where
  | same (held : x.write = (t,v t)) : WriteStep x t v x
  | exclusive (held : x.read = some r) : WriteStep x t v {x with write := (t,v t)}
  | shared (held : x.read = none) : WriteStep x t v {x with write := (t,v t), read := some (t,0)}

theorem Cell.afterRead_step (x : Cell T) (t : T) (v : T → ℕ) : x.ReadStep t v (x.afterRead t v) := by
  unfold Cell.afterRead
  split
  · rename_i held; exact .same held
  · split
    · rename_i held; exact .shared held
    · rename_i r held
      split
      · rename_i seen; exact .exclusive held seen
      · rename_i unseen; exact .share held (Nat.lt_of_not_le unseen)

theorem Cell.afterWrite_step (x : Cell T) (t : T) (v : T → ℕ) : x.WriteStep t v (x.afterWrite t v) := by
  unfold Cell.afterWrite
  split
  · rename_i held; exact .same held
  · split
    · rename_i r held; exact .exclusive held
    · rename_i held; exact .shared held

end Cells

structure Visit (T : Type*) where
  thread : T
  view : T → ℕ
  writes : Bool

section Visits
variable {T L : Type*}

def Visit.count (y : Visit T) : ℕ := y.view y.thread
def Visit.epoch (y : Visit T) : Epoch T := (y.thread,y.count)

-- The second visit knows the first, if the two are of a kind that can race.
def Visit.Ordered (y z : Visit T) : Prop :=
  y.thread ≠ z.thread → (y.writes = true ∨ z.writes = true) → y.count ≤ z.view y.thread

structure Visit.Past (s : Clocks T L) (y : Visit T) : Prop where
  closed : Closed y.view y.thread s
  reached : y.count ≤ s (.thread y.thread) y.thread
  foreign : ∀ t, t ≠ y.thread → y.view t < s (.thread t) t
  positive : 0 < y.count

structure Sound (H : List (Visit T)) (x : Cell T) : Prop where
  write : x.write.2 ≠ 0 → ∃ y ∈ H, y.writes = true ∧ y.epoch = x.write
  read : ∀ r, x.read = some r → r.2 ≠ 0 → ∃ y ∈ H, y.epoch = r
  readers : ∀ u, x.readers u ≠ 0 → ∃ y ∈ H, y.epoch = (u,x.readers u)

def WrittenAt (H : List (Visit T)) (x : Cell T) (y : Visit T) : Prop :=
  ∃ w ∈ H, w.writes = true ∧ w.epoch = x.write ∧ y.count ≤ w.view y.thread

def Cell.Holds (x : Cell T) (r : Visit T) : Prop :=
  x.read = some r.epoch ∨ (x.read = none ∧ x.readers r.thread = r.count)

def ReadAt (H : List (Visit T)) (x : Cell T) (y : Visit T) : Prop :=
  ∃ r ∈ H, x.Holds r ∧ y.count ≤ r.view y.thread

-- Every visit is known at the last write or at a read that the cell still holds.
structure Complete (H : List (Visit T)) (x : Cell T) : Prop where
  writes : ∀ y ∈ H, y.writes = true → WrittenAt H x y
  visits : ∀ y ∈ H, WrittenAt H x y ∨ ReadAt H x y

variable {s : Clocks T L} {H : List (Visit T)} {x : Cell T} {t : T}

theorem races_late (past : ∀ y ∈ H, y.Past s) (sound : Sound H x)
    (races : x.Races kind t (s (.thread t))) :
    ∃ y ∈ H, y.thread ≠ t ∧ (y.writes = true ∨ kind.writes = true) ∧ s (.thread t) y.thread < y.count := by
  have byWrite : Late (s (.thread t)) t x.write →
      ∃ y ∈ H, y.thread ≠ t ∧ y.writes = true ∧ s (.thread t) y.thread < y.count := by
    rintro ⟨other,late⟩
    obtain ⟨y,member,writes,epoch⟩ := sound.write (by omega)
    rw [← epoch] at other late
    exact ⟨y,member,other,writes,late⟩
  unfold Cell.Races at races
  split at races
  · rename_i writes
    rcases races.2 with late | late
    · obtain ⟨y,member,other,_,late⟩ := byWrite late
      exact ⟨y,member,other,.inr writes,late⟩
    · cases held : x.read with
      | some r =>
        rw [held] at late
        obtain ⟨other,late⟩ := late
        obtain ⟨y,member,epoch⟩ := sound.read r held (by omega)
        rw [← epoch] at other late
        exact ⟨y,member,other,.inr writes,late⟩
      | none =>
        rw [held] at late
        obtain ⟨u,late⟩ := late
        obtain ⟨y,member,epoch⟩ := sound.readers u (by omega)
        have thread : y.thread = u := congrArg Prod.fst epoch
        have count : y.count = x.readers u := congrArg Prod.snd epoch
        refine ⟨y,member,?_,.inr writes,by rw [thread,count]; exact late⟩
        rintro rfl
        have reached := (past y member).reached
        rw [count,thread] at reached
        rw [thread] at late
        omega
  · obtain ⟨y,member,other,writes,late⟩ := byWrite races.2
    exact ⟨y,member,other,.inl writes,late⟩

theorem Visit.Past.through {w y : Visit T} (past : w.Past s) (known : w.count ≤ s c w.thread)
    (covered : y.count ≤ w.view y.thread) : y.count ≤ s c y.thread :=
  Nat.le_trans covered (past.closed c known y.thread)

theorem Visit.Past.unlate {w : Visit T} (past : w.Past s) (timely : ¬ Late (s (.thread t)) t w.epoch) :
    w.count ≤ s (.thread t) w.thread := by
  by_cases own : w.thread = t
  · exact own ▸ past.reached
  · exact Nat.le_of_not_lt fun late => timely ⟨own,late⟩

theorem holds_single {r : Visit T} (held : x.read = some e) (holds : x.Holds r) : e = r.epoch := by
  rcases holds with single | shared
  · exact Option.some.inj (held.symm.trans single)
  · rw [held] at shared; cases shared.1

theorem holds_shared {r : Visit T} (held : x.read = none) (holds : x.Holds r) : x.readers r.thread = r.count := by
  rcases holds with single | shared
  · rw [held] at single; cases single
  · exact shared.2

theorem same_epoch_view {w : Visit T} {v : T → ℕ} (epoch : w.epoch = (t,v t)) : v t ≤ w.view t := by
  have thread : w.thread = t := congrArg Prod.fst epoch
  have count : w.count = v t := congrArg Prod.snd epoch
  rw [← count,Visit.count,thread]

theorem ordered_pair {y z : Visit T} (ordered : H.Pairwise Visit.Ordered) (first : y ∈ H) (second : z ∈ H)
    (different : y.thread ≠ z.thread) : y.Ordered z ∨ z.Ordered y := by
  let either : Visit T → Visit T → Prop := fun y z => y.Ordered z ∨ z.Ordered y
  have symmetric : Std.Symm either := ⟨fun _ _ h => h.symm⟩
  have pairwise : H.Pairwise either := ordered.imp fun h => .inl h
  exact pairwise.forall first second (fun equal => different (congrArg Visit.thread equal))

-- A thread still at the epoch of an earlier visit of its own: whatever could race
-- with it now could race with that visit, and nobody came to know it since.
theorem same_epoch_knows {w y : Visit T} (past : ∀ y ∈ H, y.Past s) (ordered : H.Pairwise Visit.Ordered)
    (earlier : w ∈ H) (epoch : w.epoch = (t,s (.thread t) t)) (member : y ∈ H) (other : y.thread ≠ t)
    (conflict : y.writes = true ∨ w.writes = true) : y.count ≤ s (.thread t) y.thread := by
  have thread : w.thread = t := congrArg Prod.fst epoch
  have count : w.count = s (.thread t) t := congrArg Prod.snd epoch
  rcases ordered_pair ordered member earlier (by rw [thread]; exact other) with before | after
  · have known : w.count ≤ s (.thread t) w.thread := by rw [thread,count]
    exact (past w earlier).through known (before (by rw [thread]; exact other) conflict)
  · have seen := after (by rw [thread]; exact other.symm) conflict.symm
    have unseen := (past y member).foreign t other.symm
    rw [thread,count] at seen
    omega

theorem quiet_knows (past : ∀ y ∈ H, y.Past s) (ordered : H.Pairwise Visit.Ordered) (sound : Sound H x)
    (complete : Complete H x) (live : 0 < s (.thread t) t) (quiet : ¬ x.Races kind t (s (.thread t)))
    {y : Visit T} (member : y ∈ H) (other : y.thread ≠ t) (conflict : y.writes = true ∨ kind.writes = true) :
    y.count ≤ s (.thread t) y.thread := by
  have throughWrite : ¬ Late (s (.thread t)) t x.write → WrittenAt H x y → y.count ≤ s (.thread t) y.thread := by
    rintro timely ⟨w,inH,_,epoch,covered⟩
    exact (past w inH).through ((past w inH).unlate (epoch ▸ timely)) covered
  unfold Cell.Races at quiet
  split at quiet
  · rename_i writes
    by_cases same : x.write = (t,s (.thread t) t)
    · obtain ⟨w,inH,wrote,epoch⟩ := sound.write (by rw [same]; exact Nat.ne_of_gt live)
      exact same_epoch_knows past ordered inH (epoch.trans same) member other (.inr wrote)
    · have timely : ¬ Late (s (.thread t)) t x.write := fun late => quiet ⟨same,.inl late⟩
      rcases complete.visits y member with written | ⟨r,inH,holds,covered⟩
      · exact throughWrite timely written
      · rcases holds with held | ⟨shared,held⟩
        · have readTimely : ¬ Late (s (.thread t)) t r.epoch :=
            fun late => quiet ⟨same,.inr (by rw [held]; exact late)⟩
          exact (past r inH).through ((past r inH).unlate readTimely) covered
        · have known : x.readers r.thread ≤ s (.thread t) r.thread :=
            Nat.le_of_not_lt fun late => quiet ⟨same,.inr (by rw [shared]; exact ⟨r.thread,late⟩)⟩
          exact (past r inH).through (held ▸ known) covered
  · rename_i reads
    have writes : y.writes = true := conflict.resolve_right reads
    by_cases same : x.read = some (t,s (.thread t) t)
    · obtain ⟨w,inH,epoch⟩ := sound.read _ same (Nat.ne_of_gt live)
      exact same_epoch_knows past ordered inH epoch member other (.inl writes)
    · exact throughWrite (fun late => quiet ⟨same,late⟩) (complete.writes y member writes)

end Visits

section Updates
variable {T L : Type*} {s : Clocks T L} {H : List (Visit T)} {x x' : Cell T} {t : T}

theorem grow_mem {p : Visit T → Prop} (more : List (Visit T)) (found : ∃ y ∈ H, p y) : ∃ y ∈ H ++ more, p y := by
  obtain ⟨y,member,holds⟩ := found
  exact ⟨y,List.mem_append_left _ member,holds⟩

theorem WrittenAt.grow {y : Visit T} (written : WrittenAt H x y) (more : List (Visit T)) (same : x'.write = x.write) :
    WrittenAt (H ++ more) x' y := by
  obtain ⟨w,inH,writes,epoch,covered⟩ := written
  exact ⟨w,List.mem_append_left _ inH,writes,epoch.trans same.symm,covered⟩

theorem ReadAt.grow {y : Visit T} (read : ReadAt H x y) (more : List (Visit T)) : ReadAt (H ++ more) x y := by
  obtain ⟨r,inH,holds⟩ := read
  exact ⟨r,List.mem_append_left _ inH,holds⟩

theorem sound_write (sound : Sound H x) (step : x.WriteStep t v x') : Sound (H ++ [⟨t,v,true⟩]) x' := by
  have newest : ∃ y ∈ H ++ [(⟨t,v,true⟩ : Visit T)], y.writes = true ∧ y.epoch = (t,v t) :=
    ⟨⟨t,v,true⟩,by simp,rfl,rfl⟩
  have readers : ∀ u, x.readers u ≠ 0 → ∃ y ∈ H ++ [(⟨t,v,true⟩ : Visit T)], y.epoch = (u,x.readers u) :=
    fun u nonzero => grow_mem _ (sound.readers u nonzero)
  cases step with
  | same held =>
    exact ⟨fun nonzero => grow_mem _ (sound.write nonzero),
      fun r held nonzero => grow_mem _ (sound.read r held nonzero),readers⟩
  | exclusive held => exact ⟨fun _ => newest,fun r held nonzero => grow_mem _ (sound.read r held nonzero),readers⟩
  | shared held =>
    refine ⟨fun _ => newest,?_,readers⟩
    rintro r ⟨⟩ nonzero
    exact absurd rfl nonzero

variable [DecidableEq T]

theorem sound_read (sound : Sound H x) (step : x.ReadStep t v x') : Sound (H ++ [⟨t,v,false⟩]) x' := by
  have newest : ∃ y ∈ H ++ [(⟨t,v,false⟩ : Visit T)], y.epoch = (t,v t) := ⟨⟨t,v,false⟩,by simp,rfl⟩
  have writes : ∀ e, e = x.write → e.2 ≠ 0 →
      ∃ y ∈ H ++ [(⟨t,v,false⟩ : Visit T)], y.writes = true ∧ y.epoch = e :=
    fun e same nonzero => same ▸ grow_mem _ (sound.write (same ▸ nonzero))
  cases step with
  | same held =>
    exact ⟨writes _ rfl,fun r held nonzero => grow_mem _ (sound.read r held nonzero),
      fun u nonzero => grow_mem _ (sound.readers u nonzero)⟩
  | shared held =>
    refine ⟨writes _ rfl,by simp [held],?_⟩
    intro u nonzero
    by_cases own : u = t
    · subst own; simpa using newest
    · simp only [Function.update_of_ne own] at nonzero ⊢
      exact grow_mem _ (sound.readers u nonzero)
  | exclusive held seen =>
    refine ⟨writes _ rfl,?_,fun u nonzero => grow_mem _ (sound.readers u nonzero)⟩
    rintro r ⟨⟩ _
    exact newest
  | @share r held unseen =>
    refine ⟨writes _ rfl,by simp,?_⟩
    intro u nonzero
    by_cases own : u = t
    · subst own; simpa using newest
    · by_cases recorded : u = r.1
      · subst recorded
        simp only [Function.update_of_ne own,Function.update_self] at nonzero ⊢
        exact grow_mem _ (sound.read r held nonzero)
      · simp only [Function.update_of_ne own,Function.update_of_ne recorded] at nonzero ⊢
        exact grow_mem _ (sound.readers u nonzero)

theorem read_carried (past : ∀ y ∈ H, y.Past s) (step : x.ReadStep t (s (.thread t)) x') {r y : Visit T} (inH : r ∈ H)
    (holds : x.Holds r) (covered : y.count ≤ r.view y.thread) : ReadAt (H ++ [⟨t,s (.thread t),false⟩]) x' y := by
  let z : Visit T := ⟨t,s (.thread t),false⟩
  have newest (holds' : x'.Holds z) (known : r.count ≤ s (.thread t) r.thread) : ReadAt (H ++ [z]) x' y :=
    ⟨z,by simp,holds',(past r inH).through known covered⟩
  cases step with
  | same held => exact ⟨r,List.mem_append_left _ inH,holds,covered⟩
  | shared held =>
    have recorded := holds_shared held holds
    by_cases own : r.thread = t
    · exact newest (.inr ⟨held,by simp [z,Visit.count]⟩) (own ▸ (past r inH).reached)
    · exact ⟨r,List.mem_append_left _ inH,.inr ⟨held,by simpa [own] using recorded⟩,covered⟩
  | exclusive held seen =>
    cases holds_single held holds
    exact newest (.inl rfl) seen
  | share held unseen =>
    cases holds_single held holds
    by_cases own : r.thread = t
    · exact newest (.inr ⟨rfl,by simp [z,Visit.count]⟩) (own ▸ (past r inH).reached)
    · exact ⟨r,List.mem_append_left _ inH,.inr ⟨rfl,by simp [own,Visit.epoch]⟩,covered⟩

theorem read_recorded (sound : Sound H x) (live : 0 < s (.thread t) t) (step : x.ReadStep t (s (.thread t)) x') :
    ReadAt (H ++ [⟨t,s (.thread t),false⟩]) x' ⟨t,s (.thread t),false⟩ := by
  let z : Visit T := ⟨t,s (.thread t),false⟩
  cases step with
  | same held =>
    obtain ⟨r,inH,epoch⟩ := sound.read _ held (Nat.ne_of_gt live)
    exact ⟨r,List.mem_append_left _ inH,.inl (held.trans (congrArg some epoch.symm)),same_epoch_view epoch⟩
  | shared held => exact ⟨z,by simp [z],.inr ⟨held,by simp [z,Visit.count]⟩,Nat.le_refl _⟩
  | exclusive held seen => exact ⟨z,by simp [z],.inl rfl,Nat.le_refl _⟩
  | share held unseen => exact ⟨z,by simp [z],.inr ⟨rfl,by simp [z,Visit.count]⟩,Nat.le_refl _⟩

theorem complete_read (past : ∀ y ∈ H, y.Past s) (sound : Sound H x) (complete : Complete H x)
    (live : 0 < s (.thread t) t) (step : x.ReadStep t (s (.thread t)) x') :
    Complete (H ++ [⟨t,s (.thread t),false⟩]) x' := by
  have kept : x'.write = x.write := by cases step <;> rfl
  constructor
  · intro y member writes
    rcases List.mem_append.mp member with old | new
    · exact (complete.writes y old writes).grow _ kept
    · rw [List.mem_singleton.mp new] at writes; cases writes
  · intro y member
    rcases List.mem_append.mp member with old | new
    · rcases complete.visits y old with written | ⟨r,inH,holds,covered⟩
      · exact .inl (written.grow _ kept)
      · exact .inr (read_carried past step inH holds covered)
    · rw [List.mem_singleton.mp new]
      exact .inr (read_recorded sound live step)

theorem complete_write (past : ∀ y ∈ H, y.Past s) (ordered : H.Pairwise Visit.Ordered) (sound : Sound H x)
    (complete : Complete H x) (live : 0 < s (.thread t) t) (writes : kind.writes = true)
    (quiet : ¬ x.Races kind t (s (.thread t))) (step : x.WriteStep t (s (.thread t)) x') :
    Complete (H ++ [⟨t,s (.thread t),true⟩]) x' := by
  let z : Visit T := ⟨t,s (.thread t),true⟩
  -- Nothing was reported, so the writing thread knows every visit made so far.
  have known : ∀ y ∈ H, y.count ≤ z.view y.thread := by
    intro y member
    by_cases own : y.thread = t
    · exact own ▸ (past y member).reached
    · exact quiet_knows past ordered sound complete live quiet member own (.inr writes)
  have covers : x'.write = (t,s (.thread t) t) → ∀ y ∈ H ++ [z], WrittenAt (H ++ [z]) x' y := by
    intro at_new y member
    refine ⟨z,by simp,rfl,at_new.symm,?_⟩
    rcases List.mem_append.mp member with old | new
    · exact known y old
    · exact List.mem_singleton.mp new ▸ Nat.le_refl _
  cases step with
  | same held =>
    have fresh : WrittenAt (H ++ [z]) x z := by
      obtain ⟨w,inH,wrote,epoch⟩ := sound.write (by rw [held]; exact Nat.ne_of_gt live)
      exact ⟨w,List.mem_append_left _ inH,wrote,epoch,same_epoch_view (epoch.trans held)⟩
    constructor
    · intro y member wrote
      rcases List.mem_append.mp member with old | new
      · exact (complete.writes y old wrote).grow [z] rfl
      · rw [List.mem_singleton.mp new]; exact fresh
    · intro y member
      rcases List.mem_append.mp member with old | new
      · exact (complete.visits y old).imp (·.grow [z] rfl) (·.grow [z])
      · rw [List.mem_singleton.mp new]; exact .inl fresh
  | exclusive held => exact ⟨fun y member _ => covers rfl y member,fun y member => .inl (covers rfl y member)⟩
  | shared held => exact ⟨fun y member _ => covers rfl y member,fun y member => .inl (covers rfl y member)⟩

theorem sound_after (sound : Sound H x) (kind : Access) (t : T) (v : T → ℕ) :
    Sound (H ++ [⟨t,v,kind.writes⟩]) (x.after kind t v) := by
  unfold Cell.after
  cases writes : kind.writes with
  | true => exact sound_write sound (x.afterWrite_step t v)
  | false => exact sound_read sound (x.afterRead_step t v)

theorem complete_after (past : ∀ y ∈ H, y.Past s) (ordered : H.Pairwise Visit.Ordered) (sound : Sound H x)
    (complete : Complete H x) (live : 0 < s (.thread t) t) (quiet : ¬ x.Races kind t (s (.thread t))) :
    Complete (H ++ [⟨t,s (.thread t),kind.writes⟩]) (x.after kind t (s (.thread t))) := by
  unfold Cell.after
  cases writes : kind.writes with
  | true => exact complete_write past ordered sound complete live writes quiet (x.afterWrite_step t _)
  | false => exact complete_read past sound complete live (x.afterRead_step t _)

theorem fresh_after {v : T → ℕ} (live : 0 < v t) (kind : Access) :
    (Cell.fresh t v kind).after kind t v = match kind with
      | .read => ⟨(t,0),some (t,v t),fun _ => 0⟩
      | .write => ⟨(t,v t),some (t,0),fun _ => 0⟩
      | .update => ⟨(t,v t),some (t,v t),fun _ => 0⟩ := by
  have apart : 0 ≠ v t := Nat.ne_of_lt live
  cases kind <;>
    simp [Cell.fresh,Cell.after,Cell.afterRead,Cell.afterWrite,Access.writes,Access.opensWriting,apart]

theorem fresh_sound {v : T → ℕ} (live : 0 < v t) (kind : Access) :
    Sound [⟨t,v,kind.writes⟩] ((Cell.fresh t v kind).after kind t v) := by
  rw [fresh_after live]
  cases kind <;> constructor <;> simp [Visit.epoch,Visit.count,Access.writes]

theorem fresh_complete {v : T → ℕ} (live : 0 < v t) (kind : Access) :
    Complete [⟨t,v,kind.writes⟩] ((Cell.fresh t v kind).after kind t v) := by
  rw [fresh_after live]
  cases kind <;> constructor <;>
    simp [WrittenAt,ReadAt,Cell.Holds,Visit.epoch,Visit.count,Access.writes]

end Updates
end EpochDetector
