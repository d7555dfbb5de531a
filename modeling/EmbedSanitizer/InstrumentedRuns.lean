import EmbedSanitizer.Expansion
import EmbedSanitizer.LineNumbers
import EmbedSanitizer.ScheduleIndependence
import EmbedSanitizer.TaggedTraces

namespace ThreadSanitizer
open EmbedSanitizer HappensBefore ThreadEvents

section Entries

def entryOf (newVal : Address) (callee : Callback) : Option AccessCallback :=
  if callee = .vptrUpdate then some (.vptrUpdate newVal) else accessFunctions.find? fun entry => entry.name = callee.name

theorem unlinked {newVal : Address} {callee : Callback} (other : callee ≠ .vptrUpdate)
    (names : ∀ entry ∈ accessFunctions, entry.name ≠ callee.name) : entryOf newVal callee = none := by
  unfold entryOf
  rw [if_neg other,List.find?_eq_none]
  simpa using names

theorem startswith_append (pre rest : String) : startswith (pre ++ rest) pre = true := by
  unfold startswith
  rw [String.toList_append,List.isPrefixOf_iff_prefix]
  exact List.prefix_append _ _

theorem startswith_atomic (bits : ℕ) (rest : String) : startswith ("__tsan_atomic" ++ toString bits ++ rest) "__tsan_atomic" = true := by
  rw [String.append_assoc]
  exact startswith_append _ _

theorem atomic_unlinked {kind : Kind} {callee : Callback} {replaces : Bool} (newVal : Address)
    (found : atomicCallback kind = some (callee,replaces)) : entryOf newVal callee = none := by
  have apart : ∀ entry ∈ accessFunctions, startswith entry.name "__tsan_atomic" = false := by decide
  have named : startswith callee.name "__tsan_atomic" = true → callee ≠ .vptrUpdate → entryOf newVal callee = none := by
    intro atomic other
    refine unlinked other fun entry member same => ?_
    have none := apart entry member
    rw [same,atomic] at none; cases none
  cases kind with
  | load p atomic =>
    obtain ⟨idx,_,same⟩ := Option.map_eq_some_iff.mp found
    cases same
    exact named (startswith_atomic _ _) (by simp)
  | store p atomic =>
    obtain ⟨idx,_,same⟩ := Option.map_eq_some_iff.mp found
    cases same
    exact named (startswith_atomic _ _) (by simp)
  | atomicRMW p op =>
    simp only [atomicCallback] at found
    split at found
    · cases found
      exact named (startswith_atomic _ _) (by simp)
    · cases found
  | atomicCmpXchg p =>
    obtain ⟨idx,_,same⟩ := Option.map_eq_some_iff.mp found
    cases same
    exact named (startswith_atomic _ _) (by simp)
  | fence singleThread =>
    cases singleThread <;> cases found <;> exact named (by decide) (by simp)
  | _ => cases found

theorem memIntrinsic_unlinked {kind : Kind} {callee : Callback} (newVal : Address) (found : memIntrinsic kind = some callee) :
    entryOf newVal callee = none := by
  have one : callee = .memset ∨ callee = .memcpy ∨ callee = .memmove := by
    unfold memIntrinsic at found
    repeat' split at found
    all_goals cases found
    all_goals simp
  rcases one with rfl | rfl | rfl <;> exact unlinked (by simp) (by decide)

theorem access_linked {newVal : Address} {write unaligned : Bool} {idx : ℕ} (bound : idx < 5) (split : unaligned = true → 0 < idx) :
    ∃ entry, entryOf newVal (.access write unaligned (1 <<< idx)) = some entry ∧ entry.check = if write then .write else .read := by
  cases unaligned with
  | false => interval_cases idx <;> cases write <;> exact ⟨_,rfl,rfl⟩
  | true =>
    have large := split rfl
    interval_cases idx <;> cases write <;> exact ⟨_,rfl,rfl⟩

theorem access_cases {p : Place} {isWrite : Bool} {callee : Callback} (found : loadOrStoreCallback.access p isWrite = some callee) :
    (isWrite = true ∧ callee = .vptrUpdate) ∨ (isWrite = false ∧ p.isVtableAccess = true ∧ callee = .vptrRead) ∨
    ∃ unaligned bytes, callee = .access isWrite unaligned bytes := by
  unfold loadOrStoreCallback.access at found
  split at found
  · cases found
  split at found
  · cases found
  split at found
  · rename_i update
    exact .inl ⟨((Bool.and_eq_true _ _).mp update).1,(Option.some.inj found).symm⟩
  split at found
  · rename_i read
    obtain ⟨reads,virtual⟩ := (Bool.and_eq_true _ _).mp read
    exact .inr (.inl ⟨by simpa using reads,virtual,(Option.some.inj found).symm⟩)
  split at found
  all_goals exact .inr (.inr ⟨_,_,(Option.some.inj found).symm⟩)

theorem access_entry {p : Place} {isWrite : Bool} {callee : Callback} (newVal : Address)
    (found : loadOrStoreCallback.access p isWrite = some callee) (plain : isWrite = false → p.isVtableAccess = false) :
    ∃ entry, entryOf newVal callee = some entry ∧ entry.check = if isWrite then .write else .read := by
  have known := access_callee p isWrite found
  obtain ⟨rfl,rfl⟩ | ⟨rfl,virtual,rfl⟩ | ⟨unaligned,bytes,rfl⟩ := access_cases found
  · exact ⟨.vptrUpdate newVal,rfl,rfl⟩
  · rw [plain rfl] at virtual; cases virtual
  · cases known with
    | access write unaligned idx bound split => exact access_linked bound split

end Entries

section Steps

-- What an execution of a block takes its values for, and the arguments of the
-- callbacks that the nodes do not hold.
structure Env where
  address : Value → Address
  thread : Value → ThreadID
  site : Node → Site
  newVal : Node → Address

variable (env : Env) (t : ThreadID)

def Node.calls (n : Node) : List Call :=
  match n with
  | .inserted (.thread .create) [v] _ => [⟨t,.threadCreate (env.thread v)⟩]
  | .inserted (.thread .join) [v] _ => [⟨t,.threadJoin (env.thread v)⟩]
  | .inserted (.thread .lock) [v] _ => [⟨t,.threadLock (env.address v)⟩]
  | .inserted (.thread .unlock) [v] _ => [⟨t,.threadUnlock (env.address v)⟩]
  | .inserted callee (v :: _) _ => (entryOf (env.newVal n) callee).toList.map fun entry => ⟨t,.access entry (env.address v) (env.site n)⟩
  | _ => []

-- An access that could race: it is none by the analyses that the pass asks, and the
-- runtime has a callback for it.
def Instruction.watched (i : Instruction) : Bool :=
  match i.kind with
  | .store p false => p.shouldInstrumentReadWriteFromAddress && !p.notCaptured && (loadOrStoreCallback i.kind).isSome
  | .load p false => p.shouldInstrumentReadWriteFromAddress && !p.addrPointsToConstantData && !p.notCaptured &&
      (loadOrStoreCallback i.kind).isSome
  | _ => false

-- What a thread really does when it executes an instruction.
def Instruction.events (i : Instruction) : List Event :=
  match i.sync,i.arg0 with
  | some .create,some v => [.fork t (env.thread v)]
  | some .join,some v => [.join t (env.thread v)]
  | some .lock,some v => [.acquire t (env.address v)]
  | some .unlock,some v => [.release t (env.address v)]
  | _,_ =>
    match i.kind with
    | .store p false => if i.watched then [.access t .write (env.address p.addr)] else []
    | .load p false => if i.watched then [.access t .read (env.address p.addr)] else []
    | _ => []

variable {env : Env} {t : ThreadID} {i : Instruction}

theorem source_calls (i : Instruction) (flag : Bool) : (Node.source i flag).calls env t = [] := rfl

theorem unlinked_calls {callee : Callback} {args : List Value} {flag : Bool} (other : ∀ op, callee ≠ .thread op)
    (none : ∀ newVal, entryOf newVal callee = none) : (Node.inserted callee args flag).calls env t = [] := by
  unfold Node.calls
  split <;> rename_i same <;> try cases same
  · exact absurd rfl (other _)
  · exact absurd rfl (other _)
  · exact absurd rfl (other _)
  · exact absurd rfl (other _)
  · rw [none]; rfl
  · rfl

theorem linked_calls {callee : Callback} {v : Value} {args : List Value} {flag : Bool} {entry : AccessCallback}
    (other : ∀ op, callee ≠ .thread op) (linked : entryOf (env.newVal (.inserted callee (v :: args) flag)) callee = some entry) :
    (Node.inserted callee (v :: args) flag).calls env t =
      [⟨t,.access entry (env.address v) (env.site (.inserted callee (v :: args) flag))⟩] := by
  unfold Node.calls
  split <;> rename_i same <;> try cases same
  · exact absurd rfl (other _)
  · exact absurd rfl (other _)
  · exact absurd rfl (other _)
  · exact absurd rfl (other _)
  · rw [linked]; rfl
  · exact (same _ _ _ _ rfl).elim

theorem unsync_events (silent : i.sync = none) : i.events env t = match i.kind with
    | .store p false => if i.watched then [.access t .write (env.address p.addr)] else []
    | .load p false => if i.watched then [.access t .read (env.address p.addr)] else []
    | _ => [] := by
  unfold Instruction.events
  rw [silent]

theorem request_sync (served : i.Served) : Node.request (.source i false) = i.sync := by
  cases sync : i.sync with
  | some op => exact served_request served sync false
  | none =>
    cases requests : Node.request (.source i false) with
    | none => rfl
    | some op =>
      have found := (request_served served (show (Node.request (.source i false)).isSome by rw [requests]; rfl)).1
      rw [sync] at found; cases found

theorem place_unsync {p : Place} (access : i.place = some p) : i.sync = none := by
  obtain ⟨address,kind⟩ := i
  cases kind with
  | load q flag => rfl
  | store q flag => rfl
  | _ => cases access

theorem placeless_events (silent : i.sync = none) (none : i.place = none) : i.events env t = [] := by
  rw [unsync_events silent]
  unfold Instruction.place at none
  split <;> simp_all

theorem laidOut_calls (served : i.Served) (none : i.place = none) :
    ((laidOut i).flatMap (Node.calls env t)).map Call.attempt = i.events env t := by
  have requests := request_sync served
  unfold laidOut
  cases sync : i.sync with
  | none =>
    rw [requests,sync,placeless_events sync none]
    rfl
  | some op =>
    obtain ⟨v,arg⟩ := Option.isSome_iff_exists.mp (request_served served (show (Node.request (.source i false)).isSome by rw [requests,sync]; rfl)).2
    rw [requests,sync,arg]
    unfold Instruction.events
    rw [sync,arg]
    cases op <;> rfl

theorem access_calls {p : Place} (access : i.place = some p) (plain : ∀ q, i.kind = .load q false → q.isVtableAccess = false) :
    ((loadOrStoreRewrite.nodes i (.source i false)).flatMap (Node.calls env t)).map Call.attempt =
      if (loadOrStoreCallback i.kind).isSome then
        match i.kind with
        | .store p false => [.access t .write (env.address p.addr)]
        | .load p false => [.access t .read (env.address p.addr)]
        | _ => []
      else [] := by
  obtain ⟨q,kind | kind⟩ := place_kind (by rw [access]; rfl)
  · simp only [loadOrStoreRewrite,kind]
    cases found : loadOrStoreCallback (.load q false) with
    | none => rfl
    | some callee =>
      obtain ⟨entry,linked,check⟩ := access_entry (env.newVal (.inserted callee [q.addr] false)) found fun _ => plain q kind
      have other := (loadOrStore_indirect (i := i) (by rw [kind]; exact found)).2
      simp only [Kind.operands,List.flatMap_cons,linked_calls other linked,source_calls]
      simp [Call.attempt,Call.event,check]
  · simp only [loadOrStoreRewrite,kind]
    cases found : loadOrStoreCallback (.store q false) with
    | none => rfl
    | some callee =>
      obtain ⟨entry,linked,check⟩ := access_entry (env.newVal (.inserted callee [q.addr] false)) found (by simp)
      have other := (loadOrStore_indirect (i := i) (by rw [kind]; exact found)).2
      simp only [Kind.operands,List.flatMap_cons,linked_calls other linked,source_calls]
      simp [Call.attempt,Call.event,check]

theorem chosen_watched {rest : List Instruction} (picked : chosen i rest = true) : i.watched = (loadOrStoreCallback i.kind).isSome := by
  unfold chosen at picked
  unfold Instruction.watched
  split at picked <;> simp_all

variable {opts : Options}

-- What is to be seen of an instruction in a function: its accesses where the function
-- is sanitized, its synchronizations in any case.
def Instruction.shown (sanitize : Bool) (env : Env) (t : ThreadID) (i : Instruction) : List Event :=
  if sanitize then i.events env t else (i.events env t).filter Event.Synchronizes

def Instruction.marks (sanitize : Bool) (env : Env) (t : ThreadID) (i : Instruction) (rest : List Instruction) : List (Event × Bool) :=
  (i.shown sanitize env t).map fun e => (e,i.place.isNone || chosen i rest)

theorem shown_sub {sanitize : Bool} {e : Event} (member : e ∈ i.shown sanitize env t) : e ∈ i.events env t := by
  unfold Instruction.shown at member
  split at member
  · exact member
  · exact List.mem_of_mem_filter member

theorem silent_shown {sanitize : Bool} (silent : i.events env t = []) : i.shown sanitize env t = [] :=
  List.eq_nil_iff_forall_not_mem.mpr fun e member => by
    have among := shown_sub member
    rw [silent] at among; cases among

theorem unsync_quiet (silent : i.sync = none) : ∀ e ∈ i.events env t, e.Synchronizes = false := by
  intro e member
  rw [unsync_events silent] at member
  split at member
  · split at member <;> simp at member
    rw [member]; rfl
  · split at member <;> simp at member
    rw [member]; rfl
  · cases member

theorem access_unshown {p : Place} (access : i.place = some p) : i.shown false env t = [] :=
  List.filter_eq_nil_iff.mpr fun e member => by simp [unsync_quiet (place_unsync access) e member]

theorem sync_loud {op : Sync} (sync : i.sync = some op) : ∀ e ∈ i.events env t, e.Synchronizes = true := by
  intro e member
  unfold Instruction.events at member
  rw [sync] at member
  cases arg : i.arg0 with
  | some v =>
    rw [arg] at member
    cases op <;> (cases List.mem_singleton.mp member; rfl)
  | none =>
    rw [arg] at member
    obtain ⟨address,kind⟩ := i
    cases kind with
    | load q flag => cases sync
    | store q flag => cases sync
    | _ => cases op <;> cases member

theorem placeless_shown (sanitize : Bool) (none : i.place = none) : i.shown sanitize env t = i.events env t := by
  cases sanitize with
  | true => rfl
  | false =>
    refine List.filter_eq_self.mpr fun e member => ?_
    cases sync : i.sync with
    | none => rw [placeless_events sync none] at member; cases member
    | some op => exact sync_loud sync e member

theorem atomicRewrite_calls (i : Instruction) : (atomicRewrite.nodes i (.source i false)).flatMap (Node.calls env t) = [] := by
  unfold atomicRewrite
  dsimp only
  split
  · rfl
  · rename_i callee replaces found
    rw [List.flatMap_cons,unlinked_calls (atomic_indirect found).2 fun v => atomic_unlinked v found]
    split <;> rfl

theorem memIntrinsicRewrite_calls (i : Instruction) : (memIntrinsicRewrite.nodes i (.source i false)).flatMap (Node.calls env t) = [] := by
  unfold memIntrinsicRewrite
  dsimp only
  split
  · rfl
  · rename_i callee found
    obtain ⟨_,_,_,_,other⟩ := memIntrinsic_name found
    rw [List.flatMap_cons,unlinked_calls other fun v => memIntrinsic_unlinked v found]
    rfl

theorem expandOne_calls (on : opts.instrumentMemoryAccesses = true) (sanitize : Bool) (served : i.Served)
    (plain : ∀ q, i.kind = .load q false → q.isVtableAccess = false) (rest : List Instruction) :
    ((expandOne opts sanitize i rest).flatMap (Node.calls env t)).map Call.attempt =
      ((i.marks sanitize env t rest).filter Prod.snd).map Prod.fst := by
  have kept : ∀ b, ((i.shown sanitize env t).map fun e => (e,b)).filter Prod.snd =
      if b then (i.shown sanitize env t).map fun e => (e,b) else [] := by
    intro b
    cases b <;> simp
  have alone : [Node.source i false].flatMap (Node.calls env t) = [] := rfl
  unfold Instruction.marks expandOne
  rw [kept]
  cases atomic : i.isAtomic with
  | true =>
    obtain ⟨none,_,silent⟩ := atomic_alone atomic
    rw [request_sync served] at silent
    rw [silent_shown (placeless_events silent none),if_pos rfl]
    cases opts.instrumentAtomics <;> simp [atomicRewrite_calls,alone]
  | false =>
    rw [if_neg Bool.false_ne_true]
    cases intrinsic : i.isMemIntrinsic with
    | true =>
      obtain ⟨_,none,silent⟩ := intrinsic_alone intrinsic
      rw [request_sync served] at silent
      rw [silent_shown (placeless_events silent none),if_pos rfl]
      cases opts.instrumentMemIntrinsics && sanitize <;> simp [memIntrinsicRewrite_calls,alone]
    | false =>
      rw [if_neg Bool.false_ne_true]
      cases picked : chosen i rest with
      | true =>
        obtain ⟨p,access⟩ := chosen_place picked
        rw [if_pos rfl,on,Bool.true_and]
        cases sanitize with
        | false => simp [alone,access_unshown access]
        | true =>
          rw [if_pos rfl,access_calls access plain,Instruction.shown,if_pos rfl,unsync_events (place_unsync access),
            chosen_watched picked]
          obtain ⟨q,kind | kind⟩ := place_kind (by rw [access]; rfl)
          · cases (loadOrStoreCallback i.kind).isSome <;> simp [kind]
          · cases (loadOrStoreCallback i.kind).isSome <;> simp [kind]
      | false =>
        rw [if_neg Bool.false_ne_true,Bool.or_false]
        cases access : i.place with
        | none =>
          rw [laidOut_calls served access,placeless_shown sanitize access]
          simp [Function.comp_def]
        | some p =>
          rw [laidOut_alone (place_alone access).2.2,alone]
          rfl

end Steps
end ThreadSanitizer
