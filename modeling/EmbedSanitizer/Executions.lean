import EmbedSanitizer.Decorations
import EmbedSanitizer.InstrumentedRuns

namespace ThreadSanitizer
open EmbedSanitizer HappensBefore ThreadEvents EpochDetector

section Visits

-- How far a thread gets in a block: to its end, to a call that throws, or to a call
-- that it is still in.
inductive Ending where
  | whole
  | unwinds (i : Instruction)
  | stays (i : Instruction)

def Ending.last : Ending → Option Instruction
  | .whole => none
  | .unwinds i | .stays i => some i

inductive Visit where
  | through (F : Function) (block : ℕ) (env : Env) (within : Instruction → List Visit) (ending : Ending)

-- A call that other code of the program may run within: no intrinsic, and none of
-- the four functions that are instrumented.
def Instruction.enters (i : Instruction) : Bool := i.breaks && !i.isMemIntrinsic && i.sync.isNone

def upTo {α : Type*} (last : α → Bool) : List α → List α
  | [] => []
  | x :: rest => if last x then [x] else x :: upTo last rest

def Instruction.ends (last : Option Instruction) (i : Instruction) : Bool := last = some i

def Node.ends (last : Option Instruction) (n : Node) : Bool := (n.source?.map (Instruction.ends last)).getD false

mutual

def Visit.events (t : ThreadID) : Visit → List Event
  | .through F block env within ending => (upTo (Instruction.ends ending.last) (F.blocks.getD block [])).flatMap fun i =>
      i.shown F.sanitized env t ++ if i.enters then eventsOf t (within i) else []

def eventsOf (t : ThreadID) : List Visit → List Event
  | [] => []
  | v :: rest => v.events t ++ eventsOf t rest

end

def instrumented (opts : Options) (escape : Escape) (F : Function) : Body := ((runOnFunction opts escape F).map Prod.fst).getD []

mutual

def Visit.calls (opts : Options) (escape : Escape) (t : ThreadID) : Visit → List Call
  | .through F block env within ending => (upTo (Node.ends ending.last) ((instrumented opts escape F).getD block [])).flatMap fun n =>
      n.calls env t ++ match n.source? with
        | some i => if i.enters then callsOf opts escape t (within i) else []
        | none => []

def callsOf (opts : Options) (escape : Escape) (t : ThreadID) : List Visit → List Call
  | [] => []
  | v :: rest => v.calls opts escape t ++ callsOf opts escape t rest

end

mutual

-- Every function that is gone through is one that P holds of; only a call that other
-- code runs within ends a visit early.
def Visit.Of (P : Function → Prop) : Visit → Prop
  | .through F _ _ within ending => P F ∧ (∀ i ∈ ending.last, i.enters = true) ∧ ∀ i, VisitsOf P (within i)

def VisitsOf (P : Function → Prop) : List Visit → Prop
  | [] => True
  | v :: rest => v.Of P ∧ VisitsOf P rest

end

end Visits

section Blocks
variable {opts : Options} {sanitize : Bool} {env : Env} {t : ThreadID} {last : Option Instruction}

def markedBlock (sanitize : Bool) (env : Env) (t : ThreadID) (last : Option Instruction) (sub : Instruction → List (Event × Bool)) :
    List Instruction → List (Event × Bool)
  | [] => []
  | i :: rest => i.marks sanitize env t rest ++ (if i.enters then sub i else []) ++
      if i.ends last then [] else markedBlock sanitize env t last sub rest

theorem marks_events (i : Instruction) (rest : List Instruction) : (i.marks sanitize env t rest).map Prod.fst = i.shown sanitize env t := by
  simp [Instruction.marks,Function.comp_def]

theorem markedBlock_events (sub : Instruction → List (Event × Bool)) (block : List Instruction) :
    (markedBlock sanitize env t last sub block).map Prod.fst = (upTo (Instruction.ends last) block).flatMap fun i =>
      i.shown sanitize env t ++ if i.enters then (sub i).map Prod.fst else [] := by
  induction block with
  | nil => rfl
  | cons i rest ih =>
    have entered : (if i.enters then sub i else []).map Prod.fst = if i.enters then (sub i).map Prod.fst else [] := by
      split <;> rfl
    rw [markedBlock,List.map_append,List.map_append,marks_events,entered,upTo]
    cases i.ends last with
    | true => simp
    | false => simp [ih]

theorem upTo_append {α : Type*} {last : α → Bool} {xs : List α} (goes : ∀ x ∈ xs, last x = false) (ys : List α) :
    upTo last (xs ++ ys) = xs ++ upTo last ys := by
  induction xs with
  | nil => rfl
  | cons x xs ih =>
    rw [List.cons_append,upTo,goes x List.mem_cons_self,ih fun y member => goes y (List.mem_cons_of_mem _ member)]
    rfl

theorem ends_iff {i : Instruction} : i.ends last = true ↔ last = some i := by simp [Instruction.ends]

theorem ends_enters {i : Instruction} (stops : ∀ i ∈ last, i.enters = true) (outside : i.enters = false) : i.ends last = false := by
  rw [Bool.eq_false_iff,Ne,ends_iff]
  intro same
  rw [stops i same] at outside; cases outside

theorem enters_cases {i : Instruction} (enters : i.enters = true) : i.breaks = true ∧ i.isAtomic = false ∧ i.isMemIntrinsic = false ∧
    i.place = none ∧ i.sync = none := by
  unfold Instruction.enters at enters
  simp only [Bool.and_eq_true,Bool.not_eq_true',Option.isNone_iff_eq_none] at enters
  obtain ⟨⟨breaks,plain⟩,silent⟩ := enters
  obtain ⟨address,kind⟩ := i
  cases kind with
  | call callee args => exact ⟨breaks,rfl,plain,rfl,silent⟩
  | invoke callee args normal unwind => exact ⟨breaks,rfl,plain,rfl,silent⟩
  | _ => cases breaks

theorem enters_expanded {i : Instruction} (enters : i.enters = true) (served : i.Served) (rest : List Instruction) :
    expandOne opts sanitize i rest = [.source i false] := by
  obtain ⟨_,atomic,intrinsic,none,silent⟩ := enters_cases enters
  rw [← request_sync served] at silent
  simp [expandOne,atomic,intrinsic,unchosen none,laidOut_alone silent]

theorem expandOne_mine (sanitize : Bool) (i : Instruction) (rest : List Instruction) : Mine i (expandOne opts sanitize i rest) := by
  have single : Mine i [.source i false] := by simp [Mine]
  unfold expandOne
  repeat' split
  all_goals first
    | exact single
    | exact mine_nodes atomic_adds i
    | exact mine_nodes memIntrinsic_adds i
    | exact mine_nodes loadOrStore_adds i
    | exact mine_laidOut i

def Node.effect (env : Env) (t : ThreadID) (sub : Instruction → List Event) (n : Node) : List Event :=
  (n.calls env t).map Call.attempt ++ match n.source? with
    | some i => if i.enters then sub i else []
    | none => []

theorem effect_alone {sub : Instruction → List Event} {i : Instruction} {nodes : List Node} (mine : Mine i nodes) (plain : i.enters = false) :
    nodes.flatMap (Node.effect env t sub) = (nodes.flatMap (Node.calls env t)).map Call.attempt := by
  induction nodes with
  | nil => rfl
  | cons n rest ih =>
    have here : n.effect env t sub = (n.calls env t).map Call.attempt := by
      unfold Node.effect
      rcases mine n List.mem_cons_self with rfl | none
      · simp [Node.source?,plain]
      · rw [none,List.append_nil]
    rw [List.flatMap_cons,List.flatMap_cons,List.map_append,here,ih fun m member => mine m (List.mem_cons_of_mem _ member)]

theorem upTo_expansion {i : Instruction} (served : i.Served) (stops : ∀ i ∈ last, i.enters = true) (rest : List Instruction) :
    upTo (Node.ends last) (expansion opts sanitize (i :: rest)) =
      expandOne opts sanitize i rest ++ if i.ends last then [] else upTo (Node.ends last) (expansion opts sanitize rest) := by
  rw [expansion]
  cases enters : i.enters with
  | true =>
    rw [enters_expanded enters served]
    have same : (Node.source i false).ends last = i.ends last := rfl
    rw [List.cons_append,List.nil_append,upTo,same]
    split <;> rfl
  | false =>
    have goes := ends_enters stops enters
    have passes : ∀ n ∈ expandOne opts sanitize i rest, n.ends last = false := by
      intro n member
      unfold Node.ends
      rcases expandOne_mine sanitize i rest n member with rfl | none
      · exact goes
      · rw [none]; rfl
    rw [upTo_append passes,goes,if_neg Bool.false_ne_true]

theorem markedBlock_calls (on : opts.instrumentMemoryAccesses = true) {sub : Instruction → List (Event × Bool)} {block : List Instruction}
    (served : ∀ i ∈ block, i.Served) (plain : ∀ i ∈ block, ∀ q, i.kind = .load q false → q.isVtableAccess = false)
    (stops : ∀ i ∈ last, i.enters = true) :
    (upTo (Node.ends last) (expansion opts sanitize block)).flatMap
        (Node.effect env t fun i => ((sub i).filter Prod.snd).map Prod.fst) =
      ((markedBlock sanitize env t last sub block).filter Prod.snd).map Prod.fst := by
  induction block with
  | nil => rfl
  | cons i rest ih =>
    have later := ih (fun j member => served j (List.mem_cons_of_mem _ member)) fun j member => plain j (List.mem_cons_of_mem _ member)
    have here := served i List.mem_cons_self
    have calls : ((expandOne opts sanitize i rest).flatMap (Node.calls env t)).map Call.attempt =
        ((i.marks sanitize env t rest).filter Prod.snd).map Prod.fst := expandOne_calls on sanitize here (plain i List.mem_cons_self) rest
    have first : (expandOne opts sanitize i rest).flatMap (Node.effect env t fun i => ((sub i).filter Prod.snd).map Prod.fst) =
        ((i.marks sanitize env t rest).filter Prod.snd).map Prod.fst ++ if i.enters then ((sub i).filter Prod.snd).map Prod.fst else [] := by
      rw [← calls]
      cases enters : i.enters with
      | true => simp [enters_expanded enters here,Node.effect,Node.source?,enters,source_calls]
      | false => simp [effect_alone (expandOne_mine sanitize i rest) enters]
    rw [upTo_expansion here stops,List.flatMap_append,first,markedBlock]
    simp only [List.filter_append,List.map_append]
    congr 1
    · split <;> rfl
    · split
      · rfl
      · exact later

end Blocks

section Excuses
variable {env : Env} {t : ThreadID} {last : Option Instruction} {sub : Instruction → List (Event × Bool)}

def Instruction.loaded (i : Instruction) : Option Place :=
  match i.kind with
  | .load p false => some p
  | _ => none

-- A function of a program whose calls of the four functions are as they are declared.
-- Accesses through one pointer are to one object and type, and no virtual pointer is
-- loaded: the runtime would check that as a write.
structure Function.Usual (F : Function) : Prop where
  ordinary : F.isTsanCtor = false
  distinct : F.blocks.flatten.Nodup
  served : ∀ i ∈ F.blocks.flatten, i.Served
  plain : ∀ i ∈ F.blocks.flatten, ∀ q ∈ i.loaded, q.isVtableAccess = false
  typed : ∀ i ∈ F.blocks.flatten, ∀ j ∈ F.blocks.flatten, ∀ p ∈ i.place, ∀ q ∈ j.place, p.addr = q.addr →
    p.typeSize = q.typeSize ∧ p.isSwiftError = q.isSwiftError ∧ p.notCaptured = q.notCaptured

instance (F : Function) : Decidable F.Usual :=
  decidable_of_iff (F.isTsanCtor = false ∧ F.blocks.flatten.Nodup ∧
      (∀ i ∈ F.blocks.flatten, i.Served) ∧ (∀ i ∈ F.blocks.flatten, ∀ q ∈ i.loaded, q.isVtableAccess = false) ∧
      ∀ i ∈ F.blocks.flatten, ∀ j ∈ F.blocks.flatten, ∀ p ∈ i.place, ∀ q ∈ j.place, p.addr = q.addr →
        p.typeSize = q.typeSize ∧ p.isSwiftError = q.isSwiftError ∧ p.notCaptured = q.notCaptured)
    ⟨fun ⟨ordinary,distinct,served,plain,typed⟩ => ⟨ordinary,distinct,served,plain,typed⟩,
      fun usual => ⟨usual.ordinary,usual.distinct,usual.served,usual.plain,usual.typed⟩⟩

theorem callback_isSome (p : Place) (isWrite : Bool) :
    (loadOrStoreCallback.access p isWrite).isSome = (!p.isSwiftError && (getMemoryAccessFuncIndex p).isSome) := by
  unfold loadOrStoreCallback.access
  cases p.isSwiftError with
  | true => rfl
  | false =>
    cases getMemoryAccessFuncIndex p with
    | none => rfl
    | some idx =>
      rw [if_neg Bool.false_ne_true]
      dsimp only
      repeat' split
      all_goals rfl

theorem store_watched {i j : Instruction} {p q : Place} (load : i.kind = .load p false) (store : j.kind = .store q false)
    (watched : i.watched = true) (open_ : q.shouldInstrumentReadWriteFromAddress = true)
    (same : p.typeSize = q.typeSize ∧ p.isSwiftError = q.isSwiftError ∧ p.notCaptured = q.notCaptured) : j.watched = true := by
  obtain ⟨size,swift,captured⟩ := same
  have index : getMemoryAccessFuncIndex q = getMemoryAccessFuncIndex p := by simp only [getMemoryAccessFuncIndex,size]
  simp only [Instruction.watched,load,loadOrStoreCallback,callback_isSome,Bool.and_eq_true] at watched
  simp only [Instruction.watched,store,loadOrStoreCallback,callback_isSome,open_,← captured,← swift,index]
  simp [watched.1.2,watched.2.1,watched.2.2]

theorem store_events {j : Instruction} {q : Place} (store : j.kind = .store q false) (watched : j.watched = true) :
    j.events env t = [.access t .write (env.address q.addr)] := by
  have silent : j.sync = none := place_unsync (p := q) (by simp [Instruction.place,store])
  rw [unsync_events silent]
  simp [store,watched]

theorem goes_quiet (env : Env) (t : ThreadID) {j : Instruction} (goes : j.breaks = false) :
    j.enters = false ∧ ∀ sanitize rest, ∀ x ∈ j.marks sanitize env t rest, x.1.Synchronizes = false := by
  have silent : j.sync = none := by
    obtain ⟨address,kind⟩ := j
    cases kind <;> first | rfl | cases goes
  refine ⟨by simp [Instruction.enters,goes],fun sanitize rest x member => ?_⟩
  obtain ⟨e,among,rfl⟩ := List.mem_map.mp member
  exact unsync_quiet silent e (shown_sub among)

theorem overwritten_cons {v : Value} {j : Instruction} {rest : List Instruction} (later : overwritten v (j :: rest) = true) :
    j.breaks = false ∧
      ((∃ q, j.kind = .store q false ∧ q.shouldInstrumentReadWriteFromAddress = true ∧ q.addr = v) ∨ overwritten v rest = true) := by
  unfold overwritten at later
  unfold Instruction.breaks
  split at later
  · rename_i q store
    rw [store]
    refine ⟨rfl,?_⟩
    rcases Bool.or_eq_true_iff.mp later with found | found
    · obtain ⟨open_,same⟩ := Bool.and_eq_true_iff.mp found
      exact .inl ⟨q,rfl,open_,by simpa using same⟩
    · exact .inr found
  · cases later
  · cases later
  · rename_i call invoke
    refine ⟨?_,.inr later⟩
    split
    · exact absurd ‹_› (call _ _)
    · exact absurd ‹_› (invoke _ _ _ _)
    · rfl

theorem overwritten_marked {v : Value} {rest : List Instruction} (stops : ∀ i ∈ last, i.enters = true)
    (stores : ∀ j ∈ rest, ∀ q, j.kind = .store q false → q.shouldInstrumentReadWriteFromAddress = true → q.addr = v → j.watched = true)
    (later : overwritten v rest = true) : ∃ mid b after,
      markedBlock true env t last sub rest = mid ++ (.access t .write (env.address v),b) :: after ∧ ∀ x ∈ mid, x.1.Synchronizes = false := by
  induction rest with
  | nil => cases later
  | cons j rest ih =>
    obtain ⟨goes,found⟩ := overwritten_cons later
    obtain ⟨outside,quiet⟩ := goes_quiet env t goes
    have on := ends_enters stops outside
    have split : markedBlock true env t last sub (j :: rest) = j.marks true env t rest ++ markedBlock true env t last sub rest := by
      simp [markedBlock,outside,on]
    rw [split]
    rcases found with ⟨q,store,open_,rfl⟩ | further
    · have watched := stores j List.mem_cons_self q store open_ rfl
      exact ⟨[],_,markedBlock true env t last sub rest,by rw [Instruction.marks,Instruction.shown,if_pos rfl,store_events store watched]; rfl,by simp⟩
    · obtain ⟨mid,b,after,same,still⟩ := ih (fun k member => stores k (List.mem_cons_of_mem _ member)) further
      refine ⟨j.marks true env t rest ++ mid,b,after,by rw [same,List.append_assoc],fun x member => ?_⟩
      rcases List.mem_append.mp member with own | next
      · exact quiet true rest x own
      · exact still x next

theorem unchosen_load {i : Instruction} {rest : List Instruction} (watched : i.watched = true) (left : chosen i rest = false) :
    ∃ p, i.kind = .load p false ∧ overwritten p.addr rest = true := by
  unfold Instruction.watched at watched
  unfold chosen at left
  split at watched
  · simp_all
  · rename_i p load
    refine ⟨p,load,?_⟩
    simp_all
  · cases watched

theorem marks_cases (sanitize : Bool) (env : Env) (t : ThreadID) (i : Instruction) (rest : List Instruction) :
    (∀ x ∈ i.marks sanitize env t rest, x.2 = true) ∨
    (sanitize = true ∧ i.breaks = false ∧ ∃ p, i.kind = .load p false ∧ i.watched = true ∧ overwritten p.addr rest = true ∧
      i.marks true env t rest = [(.access t .read (env.address p.addr),false)]) := by
  by_cases kept : (i.place.isNone || chosen i rest) = true
  · refine .inl fun x member => ?_
    obtain ⟨e,_,rfl⟩ := List.mem_map.mp member
    exact kept
  · obtain ⟨access,left⟩ : i.place.isSome ∧ chosen i rest = false := by simpa [Option.isSome_iff_ne_none] using kept
    obtain ⟨p,place⟩ := Option.isSome_iff_exists.mp access
    cases sanitize with
    | false =>
      refine .inl fun x member => ?_
      rw [Instruction.marks,access_unshown place] at member; cases member
    | true =>
      cases watched : i.watched with
      | false =>
        refine .inl fun x member => ?_
        obtain ⟨e,among,rfl⟩ := List.mem_map.mp member
        have among := shown_sub among
        rw [unsync_events (place_unsync place)] at among
        split at among <;> simp [watched] at among
      | true =>
        obtain ⟨q,load,later⟩ := unchosen_load watched left
        refine .inr ⟨rfl,by simp [Instruction.breaks,load],q,load,rfl,later,?_⟩
        rw [Instruction.marks,Instruction.shown,if_pos rfl,unsync_events (place_unsync place)]
        simp [load,watched,left,Instruction.place]

theorem markedBlock_excused {sanitize : Bool} {block : List Instruction} (stops : ∀ i ∈ last, i.enters = true)
    (typed : ∀ i ∈ block, ∀ j ∈ block, ∀ p ∈ i.place, ∀ q ∈ j.place, p.addr = q.addr →
      p.typeSize = q.typeSize ∧ p.isSwiftError = q.isSwiftError ∧ p.notCaptured = q.notCaptured)
    (inner : ∀ i, Excused (sub i)) : Excused (markedBlock sanitize env t last sub block) := by
  have all : ∀ {xs : List (Event × Bool)}, (∀ x ∈ xs, x.2 = true) → Excused xs := by
    intro xs kept
    induction xs with
    | nil => trivial
    | cons x xs ih =>
      refine ⟨fun unmarked => ?_,ih fun y member => kept y (List.mem_cons_of_mem _ member)⟩
      rw [kept x List.mem_cons_self] at unmarked; cases unmarked
  induction block with
  | nil => trivial
  | cons i rest ih =>
    have tail := ih fun j member k member' => typed j (List.mem_cons_of_mem _ member) k (List.mem_cons_of_mem _ member')
    rw [markedBlock]
    rcases marks_cases sanitize env t i rest with kept | ⟨rfl,goes,p,load,watched,later,unmarked⟩
    · refine excused_append (excused_append (all kept) ?_) ?_
      · split
        · exact inner i
        · trivial
      · split
        · trivial
        · exact tail
    · have outside := (goes_quiet env t goes).1
      have on := ends_enters stops outside
      obtain ⟨mid,b,after,same,still⟩ : ∃ mid b after,
          markedBlock true env t last sub rest = mid ++ (.access t .write (env.address p.addr),b) :: after ∧
            ∀ x ∈ mid, x.1.Synchronizes = false := overwritten_marked stops
        (fun j member q store open_ addr => store_watched load store watched open_
          (typed i List.mem_cons_self j (List.mem_cons_of_mem _ member) p (by simp [Instruction.place,load]) q
            (by simp [Instruction.place,store]) addr.symm)) later
      rw [unmarked]
      simp only [outside,on,Bool.false_eq_true,if_false,List.append_nil,List.cons_append,List.nil_append]
      exact ⟨fun _ => ⟨t,_,.write,mid,b,after,rfl,same,rfl,still⟩,tail⟩

end Excuses

section Threads
variable {opts : Options} {escape : Escape}

mutual

def Visit.marks (t : ThreadID) : Visit → List (Event × Bool)
  | .through F block env within ending => markedBlock F.sanitized env t ending.last (fun i => marksWithin t (within i)) (F.blocks.getD block [])

def marksWithin (t : ThreadID) : List Visit → List (Event × Bool)
  | [] => []
  | v :: rest => v.marks t ++ marksWithin t rest

end

mutual

theorem visit_events (t : ThreadID) : (v : Visit) → (v.marks t).map Prod.fst = v.events t
  | .through F block env within ending => by
    rw [Visit.marks,Visit.events,markedBlock_events]
    simp only [visits_events t (within _)]

theorem visits_events (t : ThreadID) : (vs : List Visit) → (marksWithin t vs).map Prod.fst = eventsOf t vs
  | [] => rfl
  | v :: rest => by rw [marksWithin,eventsOf,List.map_append,visit_events t v,visits_events t rest]

end

theorem block_within {F : Function} {k : ℕ} {i : Instruction} (member : i ∈ F.blocks.getD k []) : i ∈ F.blocks.flatten := by
  rw [List.getD_eq_getElem?_getD] at member
  cases found : F.blocks[k]? with
  | none => simp [found] at member
  | some block =>
    rw [found] at member
    exact List.mem_flatten.mpr ⟨block,List.mem_of_getElem? found,member⟩

mutual

theorem visit_excused (t : ThreadID) : (v : Visit) → v.Of Function.Usual → Excused (v.marks t)
  | .through _ _ _ within _,⟨usual,stops,inner⟩ =>
    markedBlock_excused stops (fun i member j member' => usual.typed i (block_within member) j (block_within member'))
      fun i => visits_excused t (within i) (inner i)

theorem visits_excused (t : ThreadID) : (vs : List Visit) → VisitsOf Function.Usual vs → Excused (marksWithin t vs)
  | [],_ => trivial
  | v :: rest,⟨usual,later⟩ => excused_append (visit_excused t v usual) (visits_excused t rest later)

end

theorem linked_attempts (newVal newVal' : Address) (t : ThreadID) (addr : Address) (site site' : Site) (callee : Callback) :
    ((entryOf newVal callee).toList.map fun entry => (⟨t,.access entry addr site⟩ : Call)).map Call.attempt =
      ((entryOf newVal' callee).toList.map fun entry => (⟨t,.access entry addr site'⟩ : Call)).map Call.attempt := by
  unfold entryOf
  split
  · rfl
  · cases accessFunctions.find? fun entry => entry.name = callee.name <;> rfl

theorem calls_flag {env : Env} {t : ThreadID} (callee : Callback) (args : List Value) (flag flag' : Bool) :
    ((Node.inserted callee args flag).calls env t).map Call.attempt = ((Node.inserted callee args flag').calls env t).map Call.attempt := by
  cases callee with
  | thread op =>
    match args with
    | [] => cases op <;> rfl
    | [v] => cases op <;> rfl
    | v :: w :: rest => cases op <;> simp only [Node.calls] <;> exact linked_attempts _ _ t _ _ _ _
  | vptrUpdate => cases args <;> rfl
  | _ =>
    match args with
    | [] => rfl
    | v :: rest =>
      simp only [Node.calls]
      exact linked_attempts _ _ t _ _ _ _

theorem core_flatMap {β : Type*} {g : Node → List β} {last : Option Instruction} (silent : ∀ n, n.core = none → g n = [])
    (same : ∀ n m, n.core = some m → g m = g n) (nodes : List Node) :
    (upTo (Node.ends last) nodes).flatMap g = (upTo (Node.ends last) (coreOf nodes)).flatMap g := by
  induction nodes with
  | nil => rfl
  | cons n rest ih =>
    cases core : n.core with
    | none =>
      have goes : n.ends last = false := by
        cases n with
        | source i flag => cases core
        | _ => rfl
      rw [upTo,goes,coreOf,List.filterMap_cons_none core,if_neg Bool.false_ne_true,List.flatMap_cons,silent n core,ih]
      rfl
    | some m =>
      have ends : m.ends last = n.ends last := by
        cases n with
        | source i flag => cases core; rfl
        | inserted callee args flag => rw [(core_plain core).2]; rfl
        | _ => cases core
      have both : coreOf (n :: rest) = m :: coreOf rest := List.filterMap_cons_some core
      rw [both,upTo,upTo,ends]
      split
      · simp [same n m core]
      · rw [List.flatMap_cons,List.flatMap_cons,same n m core,ih]

theorem core_silent (env : Env) (t : ThreadID) {n : Node} (core : n.core = none) : n.calls env t = [] ∧ n.source? = none := by
  cases n with
  | source i flag => cases core
  | inserted callee args flag =>
    have frames := core_frames core
    refine ⟨?_,rfl⟩
    cases callee <;> first
      | (cases frames; done)
      | exact unlinked_calls (by simp) fun _ => unlinked (by simp) (by decide)
  | _ => exact ⟨rfl,rfl⟩

theorem core_calls (env : Env) (t : ThreadID) {n m : Node} (core : n.core = some m) :
    (m.calls env t).map Call.attempt = (n.calls env t).map Call.attempt ∧ m.source? = n.source? := by
  cases n with
  | source i flag => cases core; exact ⟨rfl,rfl⟩
  | inserted callee args flag =>
    rw [(core_plain core).2]
    exact ⟨calls_flag callee args false flag,rfl⟩
  | _ => cases core

theorem core_effect {env : Env} {t : ThreadID} {sub : Instruction → List Event} {last : Option Instruction} (nodes : List Node) :
    (upTo (Node.ends last) nodes).flatMap (Node.effect env t sub) =
      (upTo (Node.ends last) (coreOf nodes)).flatMap (Node.effect env t sub) := by
  refine core_flatMap (fun n core => ?_) (fun n m core => ?_) nodes
  · obtain ⟨calls,source⟩ := core_silent env t core
    rw [Node.effect,calls,source]
    rfl
  · obtain ⟨calls,source⟩ := core_calls env t core
    rw [Node.effect,Node.effect,calls,source]

theorem usual_instrumented {F : Function} (usual : F.Usual) : instrumented opts escape F = (F.finished opts escape).1 := by
  have supplied : Supplied F.blocks.flatten := fun i member requests => (request_served (usual.served i member) requests).2
  rw [instrumented,finished_supplied opts escape usual.ordinary usual.distinct supplied]
  rfl

mutual

theorem visit_calls (on : opts.instrumentMemoryAccesses = true) (documented : escape.Documented) (t : ThreadID) :
    (v : Visit) → v.Of Function.Usual →
      (v.calls opts escape t).map Call.attempt = ((v.marks t).filter Prod.snd).map Prod.fst
  | .through F block env within ending,⟨usual,stops,inner⟩ => by
    have effects : ∀ n : Node, (n.calls env t ++ match n.source? with
        | some i => if i.enters then callsOf opts escape t (within i) else []
        | none => []).map Call.attempt =
          n.effect env t fun i => ((marksWithin t (within i)).filter Prod.snd).map Prod.fst := by
      intro n
      rw [List.map_append,Node.effect]
      cases n.source? with
      | none => rfl
      | some i =>
        dsimp only
        split
        · rw [visits_calls on documented t (within i) (inner i)]
        · rfl
    rw [Visit.calls,Visit.marks,List.map_flatMap]
    simp only [effects]
    rw [core_effect,usual_instrumented usual,finished_block documented]
    exact markedBlock_calls on (fun i member => usual.served i (block_within member))
      (fun i member q load => usual.plain i (block_within member) q (by simp [Instruction.loaded,load])) stops

theorem visits_calls (on : opts.instrumentMemoryAccesses = true) (documented : escape.Documented) (t : ThreadID) :
    (vs : List Visit) → VisitsOf Function.Usual vs →
      (callsOf opts escape t vs).map Call.attempt = ((marksWithin t vs).filter Prod.snd).map Prod.fst
  | [],_ => rfl
  | v :: rest,⟨usual,later⟩ => by
    rw [callsOf,marksWithin,List.map_append,List.filter_append,List.map_append,visit_calls on documented t v usual,
      visits_calls on documented t rest later]

end

end Threads

section Races
variable {opts : Options} {escape : Escape} {main : ThreadID} {runs : ThreadID → List Visit} {tr : List Event} {calls : List Call}

-- One execution of a program, as it is written and instrumented: what its threads do,
-- in some order, and the callbacks that they make, in some order. The callbacks about
-- each mutex follow its rounds.
structure Executed (opts : Options) (escape : Escape) (main : ThreadID) (runs : ThreadID → List Visit) (tr : List Event)
    (calls : List Call) : Prop where
  usual : ∀ t, VisitsOf Function.Usual (runs t)
  events : ∀ t, tr.filter (Event.own t) = eventsOf t (runs t)
  callbacks : ∀ t, calls.filter (fun c => c.self = t) = callsOf opts escape t (runs t)
  rounds : ∀ m, tr.filter (Event.about m) = (calls.map Call.attempt).filter (Event.about m)
  legal : Legal main tr
  announced : Legal main (calls.map Call.attempt)

theorem attempt_actor (c : Call) : c.attempt.actor = c.self := by
  cases c with
  | mk self callback => cases callback <;> rfl

theorem executed_observed (on : opts.instrumentMemoryAccesses = true) (documented : escape.Documented)
    (executed : Executed opts escape main runs tr calls) : ∃ dropped, Removable tr dropped ∧
      SameOrder (without dropped tr) (calls.map Call.attempt) := by
  obtain ⟨usual,events,callbacks,rounds,legal,announced⟩ := executed
  obtain ⟨z,rfl,own⟩ : ∃ z : List (Event × Bool), z.map Prod.fst = tr ∧ ∀ t, marksOf Event.actor t z = marksWithin t (runs t) :=
    marks_merge fun t => (events t).trans (visits_events t (runs t)).symm
  have removable : Removable (z.map Prod.fst) (unmarked z) :=
    excused_removable fun t => by rw [own t]; exact visits_excused t (runs t) (usual t)
  refine ⟨unmarked z,removable,⟨fun t => ?_,fun m => ?_⟩⟩
  · have mine : (calls.map Call.attempt).filter (Event.own t) = (calls.filter fun c => c.self = t).map Call.attempt := by
      rw [List.filter_map]
      refine congrArg _ (List.filter_congr fun c _ => ?_)
      simp [Event.own,attempt_actor]
    rw [without_unmarked,own_kept,own t,mine,callbacks t,visits_calls on documented t (runs t) (usual t)]
  · rw [about_without (removable_accesses removable),rounds m]

end Races
end ThreadSanitizer
