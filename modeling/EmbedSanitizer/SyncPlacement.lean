import EmbedSanitizer.RunOnFunction

namespace ThreadSanitizer

section Names

-- The operation by which a direct call is instrumented: that of the first name
-- its callee starts with.
def prefixed (name : String) : Option Sync :=
  if startswith name "pthread_create" then some .create
  else if startswith name "pthread_join" then some .join
  else if startswith name "pthread_mutex_lock" then some .lock
  else if startswith name "pthread_mutex_unlock" then some .unlock
  else none

def named (name : String) : Option Sync :=
  if name = Sync.create.function then some .create
  else if name = Sync.join.function then some .join
  else if name = Sync.lock.function then some .lock
  else if name = Sync.unlock.function then some .unlock
  else none

theorem named_some {name : String} {op : Sync} : named name = some op ↔ name = op.function := by
  constructor
  · unfold named
    repeat' split
    all_goals simp_all
  · rintro rfl
    cases op <;> decide

theorem prefixed_function (op : Sync) : prefixed op.function = some op := by cases op <;> decide

theorem prefixed_callback (op : Sync) : prefixed (Callback.thread op).name = none := by cases op <;> decide

theorem startswith_common {name a b : String} (first : startswith name a = true) (second : startswith name b = true) :
    a.toList <+: b.toList ∨ b.toList <+: a.toList :=
  List.prefix_or_prefix_of_prefix (List.isPrefixOf_iff_prefix.mp first) (List.isPrefixOf_iff_prefix.mp second)

theorem prefixed_startswith {name : String} {op : Sync} (found : prefixed name = some op) : startswith name op.function = true := by
  unfold prefixed at found
  repeat' split at found
  all_goals cases found
  all_goals assumption

end Names

section Placement

def Instruction.directCall (i : Instruction) : Option (String × List Value) :=
  match i.kind with
  | .call (some name) args | .invoke (some name) args .. => some (name,args)
  | _ => none

def Instruction.sync (i : Instruction) : Option Sync := i.directCall.bind fun (name,_) => named name

def Instruction.arg0 (i : Instruction) : Option Value := i.directCall.bind fun (_,args) => args[0]?

def Node.callback : Node → Option Sync
  | .inserted (.thread op) .. => some op
  | _ => none

def nodeAt (body : Body) (b k : ℕ) : Option Node := (body[b]?).bind (·[k]?)

def firstNonPhi (block : List Node) : Option Node := (block.dropWhile Node.isPhi).head?

def nodeAfter (body : Body) (b k : ℕ) : Option Node :=
  match nodeAt body b k with
  | some (.source ⟨_,.invoke _ _ normal _⟩ _) => (body[normal]?).bind firstNonPhi
  | _ => nodeAt body b (k+1)

def nodeBefore (body : Body) (b k : ℕ) : Option Node := if k = 0 then none else nodeAt body b (k-1)

def Node.CallsBack (n : Node) (op : Sync) (i : Instruction) : Prop :=
  ∃ v unwinds, i.arg0 = some v ∧ n = .inserted (.thread op) [v] unwinds

def sources (body : Body) : List Instruction := body.flatten.filterMap Node.source?

-- Each synchronization has its one callback next to it, no other callback is there,
-- and the instructions of the program stay in order, the synchronizations all of them.
structure Complete (blocks : List (List Instruction)) (body : Body) : Prop where
  after : ∀ b k i unwinds op, nodeAt body b k = some (.source i unwinds) → i.sync = some op → op ≠ .unlock →
    ∃ n, nodeAfter body b k = some n ∧ n.CallsBack op i
  before : ∀ b k i unwinds, nodeAt body b k = some (.source i unwinds) → i.sync = some .unlock →
    ∃ n, nodeBefore body b k = some n ∧ n.CallsBack .unlock i
  count : body.flatten.countP (·.callback.isSome) = blocks.flatten.countP (·.sync.isSome)
  order : (sources body).Sublist blocks.flatten
  kept : (sources body).filter (·.sync.isSome) = blocks.flatten.filter (·.sync.isSome)

end Placement

section Layout

def Node.request (n : Node) : Option Sync :=
  match n.source?,n.callInst with
  | some _,some (some name,_) => prefixed name
  | _,_ => none

def Node.Plain (n : Node) : Prop := n.request = none ∧ n.callback = none

-- Every instrumented call has its callback right after it, or right before it if
-- it is an unlock, and there are no other callbacks.
inductive Laid : List Node → Prop
  | nil : Laid []
  | after {i unwinds op v flag rest} : Node.request (.source i unwinds) = some op → op ≠ .unlock → i.arg0 = some v →
      Laid rest → Laid (.source i unwinds :: .inserted (.thread op) [v] flag :: rest)
  | before {i unwinds v flag rest} : Node.request (.source i unwinds) = some .unlock → i.arg0 = some v →
      Laid rest → Laid (.inserted (.thread .unlock) [v] flag :: .source i unwinds :: rest)
  | plain {n rest} : n.Plain → Laid rest → Laid (n :: rest)

theorem request_call {i : Instruction} {unwinds : Bool} {op : Sync} (requests : Node.request (.source i unwinds) = some op) :
    ∃ name args, i.kind = .call (some name) args ∧ prefixed name = some op := by
  cases i with
  | mk address kind =>
    cases kind with
    | call callee args =>
      cases callee with
      | none => cases requests
      | some name => exact ⟨name,args,rfl,requests⟩
    | _ => cases requests

theorem request_notPhi {n : Node} {op : Sync} (requests : n.request = some op) : n.isPhi = false := by
  cases n with
  | source i unwinds =>
    obtain ⟨name,args,kind,_⟩ := request_call requests
    cases i; cases kind; rfl
  | _ => rfl

theorem request_stays {n : Node} {op : Sync} (requests : n.request = some op) : n.escapes = false := by
  cases n with
  | source i unwinds =>
    obtain ⟨name,args,kind,_⟩ := request_call requests
    cases i; cases kind; rfl
  | _ => cases requests

theorem laid_count {block : List Node} (laid : Laid block) :
    block.countP (·.callback.isSome) = block.countP (·.request.isSome) := by
  induction laid with
  | nil => rfl
  | after requests _ _ _ ih =>
    simp only [List.countP_cons,requests,ih]
    simp [Node.callback,Node.request,Node.source?]
  | before requests _ _ ih =>
    simp only [List.countP_cons,requests,ih]
    simp [Node.callback,Node.request,Node.source?]
  | plain plain _ ih => simp [plain.1,plain.2,ih]

end Layout

section Phases

def Instruction.stays (i : Instruction) : Bool := i.directCall.isSome && (memIntrinsic i.kind).isNone

-- What a later phase may do to a block.
structure Follows (block block' : List Node) : Prop where
  laid : Laid block → Laid block'
  order : (block'.filterMap Node.source?).Sublist (block.filterMap Node.source?)
  kept : (block'.filterMap Node.source?).filter Instruction.stays = (block.filterMap Node.source?).filter Instruction.stays

theorem Follows.refl (block : List Node) : Follows block block := ⟨id,List.Sublist.refl _,rfl⟩

theorem Follows.trans {one two three : List Node} (first : Follows one two) (second : Follows two three) : Follows one three :=
  ⟨second.laid ∘ first.laid,second.order.trans first.order,second.kept.trans first.kept⟩

def Node.Loose (n : Node) : Prop := n.Plain ∧ ∀ i, n.source? = some i → i.stays = false

theorem loose_inserted {callee : Callback} {args : List Value} {unwinds : Bool} (other : ∀ op, callee ≠ .thread op) :
    Node.Loose (.inserted callee args unwinds) := by
  refine ⟨⟨rfl,?_⟩,by simp [Node.source?]⟩
  cases callee with
  | thread op => exact absurd rfl (other op)
  | _ => rfl

-- What a phase makes of one node: it puts another before a plain one, or in the
-- place of a loose one.
def Edited (n : Node) (nodes : List Node) : Prop :=
  nodes = [n] ∨ ∃ c, c.Plain ∧ c.source? = none ∧ ((n.Plain ∧ nodes = [c,n]) ∨ (n.Loose ∧ nodes = [c]))

theorem edited_fixed {n : Node} {nodes : List Node} (edited : Edited n nodes) (tied : ¬ n.Plain) : nodes = [n] := by
  rcases edited with same | ⟨c,_,_,⟨plain,_⟩ | ⟨loose,_⟩⟩
  · exact same
  · exact absurd plain tied
  · exact absurd loose.1 tied

theorem edited_sources {n : Node} {nodes : List Node} (edited : Edited n nodes) :
    (nodes.filterMap Node.source?).Sublist n.source?.toList ∧
      (nodes.filterMap Node.source?).filter Instruction.stays = n.source?.toList.filter Instruction.stays := by
  have single : [n].filterMap Node.source? = n.source?.toList := by cases source : n.source? <;> simp [source]
  rcases edited with rfl | ⟨c,_,none,⟨_,rfl⟩ | ⟨loose,rfl⟩⟩
  · rw [single]; exact ⟨List.Sublist.refl _,rfl⟩
  · rw [List.filterMap_cons_none none,single]; exact ⟨List.Sublist.refl _,rfl⟩
  · rw [List.filterMap_cons_none none]
    refine ⟨List.nil_sublist _,?_⟩
    cases source : n.source? with
    | none => rfl
    | some i => simp [loose.2 i source]

theorem filterMap_source_cons (n : Node) (rest : List Node) :
    (n :: rest).filterMap Node.source? = n.source?.toList ++ rest.filterMap Node.source? := by
  cases source : n.source? <;> simp [source]

theorem laid_flatMap {block : List Node} (g : Node → List Node) (edits : ∀ n ∈ block, Edited n (g n)) (laid : Laid block) :
    Laid (block.flatMap g) := by
  induction laid with
  | nil => exact .nil
  | @after i unwinds op v flag rest requests other arg laid ih =>
    have call := edited_fixed (edits (.source i unwinds) (by simp)) (by simp [Node.Plain,requests])
    have callback := edited_fixed (edits (.inserted (.thread op) [v] flag) (by simp)) (by simp [Node.Plain,Node.callback])
    simp only [List.flatMap_cons,call,callback]
    exact .after requests other arg (ih fun n member => edits n (List.mem_cons_of_mem _ (List.mem_cons_of_mem _ member)))
  | @before i unwinds v flag rest requests arg laid ih =>
    have call := edited_fixed (edits (.source i unwinds) (by simp)) (by simp [Node.Plain,requests])
    have callback := edited_fixed (edits (.inserted (.thread .unlock) [v] flag) (by simp)) (by simp [Node.Plain,Node.callback])
    simp only [List.flatMap_cons,call,callback]
    exact .before requests arg (ih fun n member => edits n (List.mem_cons_of_mem _ (List.mem_cons_of_mem _ member)))
  | @plain n rest plain laid ih =>
    have later := ih fun n member => edits n (List.mem_cons_of_mem _ member)
    rw [List.flatMap_cons]
    rcases edits n List.mem_cons_self with same | ⟨c,plainC,_,⟨_,put⟩ | ⟨_,put⟩⟩
    · rw [same]; exact .plain plain later
    · rw [put]; exact .plain plainC (.plain plain later)
    · rw [put]; exact .plain plainC later

theorem follows_flatMap {block : List Node} (g : Node → List Node) (edits : ∀ n ∈ block, Edited n (g n)) :
    Follows block (block.flatMap g) := by
  refine ⟨laid_flatMap g edits,?_,?_⟩
  · induction block with
    | nil => exact List.Sublist.refl _
    | cons n rest ih =>
      rw [List.flatMap_cons,List.filterMap_append,filterMap_source_cons]
      exact (edited_sources (edits n List.mem_cons_self)).1.append (ih fun n member => edits n (List.mem_cons_of_mem _ member))
  · induction block with
    | nil => rfl
    | cons n rest ih =>
      rw [List.flatMap_cons,List.filterMap_append,filterMap_source_cons,List.filter_append,List.filter_append,
        (edited_sources (edits n List.mem_cons_self)).2,ih fun n member => edits n (List.mem_cons_of_mem _ member)]

theorem laid_entry {block : List Node} {c : Node} (plain : c.Plain) (laid : Laid block) :
    Laid (block.takeWhile Node.isPhi ++ c :: block.dropWhile Node.isPhi) := by
  induction laid with
  | nil => exact .plain plain .nil
  | @after i unwinds op v flag rest requests other arg laid ih =>
    simp only [List.takeWhile_cons,List.dropWhile_cons,request_notPhi requests]
    exact .plain plain (.after requests other arg laid)
  | @before i unwinds v flag rest requests arg laid ih =>
    exact .plain plain (.before requests arg laid)
  | @plain n rest plainN laid ih =>
    cases phi : n.isPhi with
    | true =>
      simp only [List.takeWhile_cons,List.dropWhile_cons,phi]
      exact .plain plainN ih
    | false =>
      simp only [List.takeWhile_cons,List.dropWhile_cons,phi]
      exact .plain plain (.plain plainN laid)

theorem follows_entry {block : List Node} {c : Node} (plain : c.Plain) (none : c.source? = none) :
    Follows block (block.takeWhile Node.isPhi ++ c :: block.dropWhile Node.isPhi) := by
  have same : (block.takeWhile Node.isPhi ++ c :: block.dropWhile Node.isPhi).filterMap Node.source? =
      block.filterMap Node.source? := by
    rw [List.filterMap_append,List.filterMap_cons_none none,← List.filterMap_append,List.takeWhile_append_dropWhile]
  exact ⟨laid_entry plain,by rw [same],by rw [same]⟩

def insertAtExit (c : Node) : List Node → List Node
  | [] => []
  | [n] => if n.escapes then [c,n] else [n]
  | n :: m :: rest => n :: insertAtExit c (m :: rest)

theorem insertAtExit_cons {c n : Node} (stays : n.escapes = false) (rest : List Node) :
    insertAtExit c (n :: rest) = n :: insertAtExit c rest := by
  cases rest with
  | nil => simp [insertAtExit,stays]
  | cons m rest => rfl

theorem laid_exit {block : List Node} {c : Node} (plain : c.Plain) (laid : Laid block) : Laid (insertAtExit c block) := by
  induction laid with
  | nil => exact .nil
  | @after i unwinds op v flag rest requests other arg laid ih =>
    rw [insertAtExit_cons (request_stays requests),insertAtExit_cons rfl]
    exact .after requests other arg ih
  | @before i unwinds v flag rest requests arg laid ih =>
    rw [insertAtExit_cons rfl,insertAtExit_cons (request_stays requests)]
    exact .before requests arg ih
  | @plain n rest plainN laid ih =>
    cases rest with
    | nil =>
      unfold insertAtExit
      split
      · exact .plain plain (.plain plainN .nil)
      · exact .plain plainN .nil
    | cons m rest => exact .plain plainN ih

theorem exit_sources {block : List Node} {c : Node} (none : c.source? = none) :
    (insertAtExit c block).filterMap Node.source? = block.filterMap Node.source? := by
  induction block with
  | nil => rfl
  | cons n rest ih =>
    cases rest with
    | nil =>
      unfold insertAtExit
      split
      · rw [List.filterMap_cons_none none]
      · rfl
    | cons m rest =>
      rw [insertAtExit,filterMap_source_cons,ih,← filterMap_source_cons]

theorem follows_exit {block : List Node} {c : Node} (plain : c.Plain) (none : c.source? = none) :
    Follows block (insertAtExit c block) :=
  ⟨laid_exit plain,by rw [exit_sources none],by rw [exit_sources none]⟩

-- The same node, a call that may now unwind to a cleanup block.
inductive Same : Node → Node → Prop
  | rfl (n) : Same n n
  | source (i u u') : Same (.source i u) (.source i u')
  | inserted (callee args u u') : Same (.inserted callee args u) (.inserted callee args u')

theorem same_request {n n' : Node} (same : Same n n') : n'.request = n.request := by
  cases same with
  | source i u u' => cases i with
    | mk address kind => cases kind <;> rfl
  | _ => rfl

theorem same_callback {n n' : Node} (same : Same n n') : n'.callback = n.callback := by
  cases same with
  | inserted callee args u u' => cases callee <;> rfl
  | _ => rfl

theorem same_source {n n' : Node} (same : Same n n') : n'.source? = n.source? := by cases same <;> rfl

theorem same_call {i : Instruction} {unwinds : Bool} {n : Node} (same : Same (.source i unwinds) n) : ∃ u, n = .source i u := by
  cases same <;> exact ⟨_,rfl⟩

theorem same_inserted {callee : Callback} {args : List Value} {unwinds : Bool} {n : Node}
    (same : Same (.inserted callee args unwinds) n) : ∃ u, n = .inserted callee args u := by
  cases same <;> exact ⟨_,rfl⟩

theorem laid_same {block block' : List Node} (same : List.Forall₂ Same block block') (laid : Laid block) : Laid block' := by
  induction laid generalizing block' with
  | nil => cases same; exact .nil
  | after requests other arg laid ih =>
    obtain _ | ⟨first,_ | ⟨second,rest⟩⟩ := same
    obtain ⟨u,rfl⟩ := same_call first
    obtain ⟨w,rfl⟩ := same_inserted second
    exact .after ((same_request first).trans requests) other arg (ih rest)
  | before requests arg laid ih =>
    obtain _ | ⟨first,_ | ⟨second,rest⟩⟩ := same
    obtain ⟨u,rfl⟩ := same_inserted first
    obtain ⟨w,rfl⟩ := same_call second
    exact .before ((same_request second).trans requests) arg (ih rest)
  | plain plain laid ih =>
    obtain _ | ⟨first,rest⟩ := same
    exact .plain ⟨(same_request first).trans plain.1,(same_callback first).trans plain.2⟩ (ih rest)

theorem follows_same {block block' : List Node} (same : List.Forall₂ Same block block') : Follows block block' := by
  have sources : block'.filterMap Node.source? = block.filterMap Node.source? := by
    induction same with
    | nil => rfl
    | cons first _ ih => rw [filterMap_source_cons,filterMap_source_cons,same_source first,ih]
  exact ⟨laid_same same,by rw [sources],by rw [sources]⟩

end Phases
section Bodies

structure Keeps (body body' : Body) : Prop where
  laid : (∀ block ∈ body, Laid block) → ∀ block ∈ body', Laid block
  order : (sources body').Sublist (sources body)
  kept : (sources body').filter Instruction.stays = (sources body).filter Instruction.stays

theorem Keeps.refl (body : Body) : Keeps body body := ⟨id,List.Sublist.refl _,rfl⟩

theorem Keeps.trans {one two three : Body} (first : Keeps one two) (second : Keeps two three) : Keeps one three :=
  ⟨second.laid ∘ first.laid,second.order.trans first.order,second.kept.trans first.kept⟩

theorem sources_cons (block : List Node) (rest : Body) : sources (block :: rest) = block.filterMap Node.source? ++ sources rest := by
  simp [sources,List.filterMap_append]

theorem sources_append (body rest : Body) : sources (body ++ rest) = sources body ++ sources rest := by
  simp [sources,List.filterMap_append]

theorem keeps_forall₂ {body body' : Body} (follows : List.Forall₂ Follows body body') : Keeps body body' := by
  induction follows with
  | nil => exact .refl []
  | @cons block block' rest rest' first _ ih =>
    refine ⟨fun laid other member => ?_,?_,?_⟩
    · rcases List.mem_cons.mp member with rfl | later
      · exact first.laid (laid _ List.mem_cons_self)
      · exact ih.laid (fun b member => laid b (List.mem_cons_of_mem _ member)) other later
    · rw [sources_cons,sources_cons]
      exact first.order.append ih.order
    · rw [sources_cons,sources_cons,List.filter_append,List.filter_append,first.kept,ih.kept]

theorem keeps_map {body : Body} {f : List Node → List Node} (follows : ∀ block, Follows block (f block)) : Keeps body (body.map f) := by
  apply keeps_forall₂
  induction body with
  | nil => exact .nil
  | cons block rest ih => exact .cons (follows block) ih

theorem keeps_append {body cleanup : Body} (laid : ∀ block ∈ cleanup, Laid block) (none : sources cleanup = []) :
    Keeps body (body ++ cleanup) := by
  refine ⟨fun first block member => ?_,?_,?_⟩
  · exact (List.mem_append.mp member).elim (first block) (laid block)
  · rw [sources_append,none,List.append_nil]
  · rw [sources_append,none,List.append_nil]

theorem startswith_apart {name a b : String} (first : startswith name a = true) (second : startswith name b = true)
    (apart : ¬ a.toList <+: b.toList ∧ ¬ b.toList <+: a.toList) : False :=
  (startswith_common first second).elim apart.1 apart.2

theorem memIntrinsic_name {kind : Kind} {callee : Callback} (intrinsic : memIntrinsic kind = some callee) :
    ∃ name args, kind = .call (some name) args ∧ (startswith name "llvm.memset." = true ∨
      startswith name "llvm.memcpy." = true ∨ startswith name "llvm.memmove." = true) ∧ ∀ op, callee ≠ .thread op := by
  unfold memIntrinsic at intrinsic
  split at intrinsic
  · rename_i name args
    refine ⟨name,args,rfl,?_⟩
    split at intrinsic
    · rename_i set
      cases intrinsic; exact ⟨.inl set,by simp⟩
    · split at intrinsic
      · rename_i copy
        cases intrinsic; exact ⟨.inr (.inl copy),by simp⟩
      · split at intrinsic
        · rename_i move
          cases intrinsic; exact ⟨.inr (.inr move),by simp⟩
        · cases intrinsic
  · cases intrinsic

theorem memIntrinsic_request {i : Instruction} {unwinds : Bool} {callee : Callback} (intrinsic : memIntrinsic i.kind = some callee) :
    Node.request (.source i unwinds) = none := by
  cases requests : Node.request (.source i unwinds) with
  | none => rfl
  | some op =>
    obtain ⟨name,args,kind,found⟩ := request_call requests
    obtain ⟨_,_,same,llvm,_⟩ := memIntrinsic_name intrinsic
    rw [kind] at same
    cases same
    have first := prefixed_startswith found
    rcases llvm with second | second | second
    · cases op <;> exact (startswith_apart first second (by decide)).elim
    · cases op <;> exact (startswith_apart first second (by decide)).elim
    · cases op <;> exact (startswith_apart first second (by decide)).elim

theorem request_stays_source {i : Instruction} {unwinds : Bool} {op : Sync} (requests : Node.request (.source i unwinds) = some op) :
    i.stays = true := by
  obtain ⟨name,args,kind,_⟩ := request_call requests
  have intrinsic : memIntrinsic i.kind = none := by
    cases found : memIntrinsic i.kind with
    | none => rfl
    | some callee => rw [memIntrinsic_request found] at requests; cases requests
  rw [kind] at intrinsic
  simp [Instruction.stays,intrinsic,Instruction.directCall,kind]

theorem indirect_plain {i : Instruction} (unwinds : Bool) (indirect : i.directCall = none) :
    Node.Loose (.source i unwinds) := by
  have plain : Node.request (.source i unwinds) = none := by
    cases requests : Node.request (.source i unwinds) with
    | none => rfl
    | some op =>
      obtain ⟨name,args,kind,_⟩ := request_call requests
      simp [Instruction.directCall,kind] at indirect
  refine ⟨⟨plain,rfl⟩,fun j same => ?_⟩
  cases same
  simp [Instruction.stays,indirect]

theorem loadOrStore_indirect {i : Instruction} {callee : Callback} (found : loadOrStoreCallback i.kind = some callee) :
    i.directCall = none ∧ ∀ op, callee ≠ .thread op := by
  have other : ∀ p isWrite, loadOrStoreCallback.access p isWrite = some callee → ∀ op, callee ≠ .thread op := by
    intro p isWrite found op
    unfold loadOrStoreCallback.access at found
    repeat' split at found
    all_goals cases found
    all_goals simp
  cases i with
  | mk address kind =>
    cases kind with
    | load p atomic => exact ⟨rfl,other p false found⟩
    | store p atomic => exact ⟨rfl,other p true found⟩
    | _ => cases found

theorem atomic_indirect {i : Instruction} {callee : Callback} {replaces : Bool} (found : atomicCallback i.kind = some (callee,replaces)) :
    i.directCall = none ∧ ∀ op, callee ≠ .thread op := by
  cases i with
  | mk address kind =>
    cases kind with
    | load p atomic =>
      obtain ⟨idx,_,same⟩ := Option.map_eq_some_iff.mp found
      cases same; exact ⟨rfl,by simp⟩
    | store p atomic =>
      obtain ⟨idx,_,same⟩ := Option.map_eq_some_iff.mp found
      cases same; exact ⟨rfl,by simp⟩
    | atomicRMW p op =>
      simp only [atomicCallback] at found
      split at found
      · cases found; exact ⟨rfl,by simp⟩
      · cases found
    | atomicCmpXchg p =>
      obtain ⟨idx,_,same⟩ := Option.map_eq_some_iff.mp found
      cases same; exact ⟨rfl,by simp⟩
    | fence singleThread =>
      refine ⟨rfl,fun op same => ?_⟩
      subst same
      cases singleThread <;> cases found
    | _ => cases found

theorem keeps_replaceAt {body : Body} {i : Instruction} {nodes : Node → List Node}
    (edits : ∀ n, n.source? = some i → Edited n (nodes n)) : Keeps body (replaceAt body i nodes) := by
  apply keeps_map
  intro block
  apply follows_flatMap
  intro n _
  by_cases here : n.source? = some i
  · rw [if_pos here]; exact edits n here
  · rw [if_neg here]; exact .inl rfl

theorem source_eq {n : Node} {i : Instruction} (here : n.source? = some i) : ∃ unwinds, n = .source i unwinds := by
  cases n with
  | source j unwinds => cases here; exact ⟨unwinds,rfl⟩
  | _ => cases here

theorem keeps_loadOrStore (body : Body) (i : Instruction) : Keeps body (instrumentLoadOrStore body i).1 := by
  unfold instrumentLoadOrStore
  split
  · exact .refl body
  · rename_i callee found
    obtain ⟨indirect,other⟩ := loadOrStore_indirect found
    refine keeps_replaceAt fun n here => ?_
    obtain ⟨unwinds,rfl⟩ := source_eq here
    exact .inr ⟨_,(loose_inserted other).1,rfl,.inl ⟨(indirect_plain unwinds indirect).1,rfl⟩⟩

theorem keeps_atomic (body : Body) (i : Instruction) : Keeps body (instrumentAtomic body i).1 := by
  unfold instrumentAtomic
  split
  · exact .refl body
  · rename_i callee replaces found
    obtain ⟨indirect,other⟩ := atomic_indirect found
    refine keeps_replaceAt fun n here => ?_
    obtain ⟨unwinds,rfl⟩ := source_eq here
    cases replaces with
    | true => exact .inr ⟨_,(loose_inserted other).1,rfl,.inr ⟨indirect_plain unwinds indirect,rfl⟩⟩
    | false => exact .inr ⟨_,(loose_inserted other).1,rfl,.inl ⟨(indirect_plain unwinds indirect).1,rfl⟩⟩

theorem keeps_memIntrinsic (body : Body) (i : Instruction) : Keeps body (instrumentMemIntrinsic body i).1 := by
  unfold instrumentMemIntrinsic
  split
  · exact .refl body
  · rename_i callee found
    obtain ⟨_,_,_,_,other⟩ := memIntrinsic_name found
    refine keeps_replaceAt fun n here => ?_
    obtain ⟨unwinds,rfl⟩ := source_eq here
    have loose : Node.Loose (.source i unwinds) := by
      refine ⟨⟨memIntrinsic_request found,rfl⟩,fun j same => ?_⟩
      cases same
      simp [Instruction.stays,found]
    exact .inr ⟨_,(loose_inserted other).1,rfl,.inr ⟨loose,rfl⟩⟩

theorem keeps_each {instrument : Body → Instruction → Body × Bool} (keeps : ∀ body i, Keeps body (instrument body i).1)
    (body : Body) (is : List Instruction) : Keeps body (instrumentEach instrument body is).1 := by
  unfold instrumentEach
  generalize false = res
  induction is generalizing body res with
  | nil => exact .refl body
  | cons i rest ih => exact (keeps body i).trans (ih (instrument body i).1 (res || (instrument body i).2))

theorem keeps_entry (body : Body) {callee : Callback} (other : ∀ op, callee ≠ .thread op) : Keeps body (insertAtEntry callee body) := by
  cases body with
  | nil => exact .refl []
  | cons entry rest =>
    refine keeps_forall₂ (.cons (follows_entry (loose_inserted other).1 rfl) ?_)
    exact List.forall₂_same.mpr fun block _ => .refl block

-- What LLVM documents of EscapeEnumerator: the call goes before every return and
-- resume; calls that may throw unwind to a new landing pad, where it is made too.
def EscapesAt (c : Node) (body body' : Body) : Prop :=
  ∃ cleanup, List.Forall₂ (List.Forall₂ Same) (body.map (insertAtExit c) ++ cleanup) body' ∧
    ∀ block ∈ cleanup, block = [.landingPad,c,.resume]

def Escape.Documented (escape : Escape) : Prop := ∀ F handles c body, EscapesAt c body (escape F handles c body)

theorem keeps_escape {escape : Escape} (documented : escape.Documented) (F : Function) (handles : Bool) (body : Body)
    {callee : Callback} {args : List Value} (other : ∀ op, callee ≠ .thread op) :
    Keeps body (escape F handles (.inserted callee args false) body) := by
  obtain ⟨cleanup,same,pads⟩ := documented F handles (.inserted callee args false) body
  have plain : Node.Plain (.inserted callee args false) := (loose_inserted other).1
  have exits : Keeps body (body.map (insertAtExit (.inserted callee args false))) :=
    keeps_map fun block => follows_exit plain rfl
  have added : Keeps (body.map (insertAtExit (.inserted callee args false)))
      (body.map (insertAtExit (.inserted callee args false)) ++ cleanup) := by
    apply keeps_append
    · intro block member
      rw [pads block member]
      exact .plain ⟨rfl,rfl⟩ (.plain plain (.plain ⟨rfl,rfl⟩ .nil))
    · clear same
      induction cleanup with
      | nil => rfl
      | cons block rest ih =>
        rw [sources_cons,pads block List.mem_cons_self,ih fun b member => pads b (List.mem_cons_of_mem _ member)]
        rfl
  exact exits.trans (added.trans (keeps_forall₂ (same.imp fun _ _ => follows_same)))

end Bodies

section Loop

theorem instr_request {i : Instruction} {unwinds : Bool} {op : Sync} (requests : Node.request (.source i unwinds) = some op) :
    instrIfSynchronization (.source i unwinds) = i.arg0.map fun v =>
      if op = .unlock then ([.inserted (.thread op) [v] false],[]) else ([],[.inserted (.thread op) [v] false]) := by
  obtain ⟨name,args,kind,found⟩ := request_call requests
  obtain ⟨address,_⟩ := i
  cases kind
  have arg : Instruction.arg0 ⟨address,.call (some name) args⟩ = args[0]? := rfl
  rw [arg]
  simp only [instrIfSynchronization,Node.callInst]
  unfold prefixed at found
  split at found
  · cases found; rename_i create
    rw [if_pos create]; cases args[0]? <;> rfl
  · rename_i create
    rw [if_neg create]
    split at found
    · cases found; rename_i join
      rw [if_pos join]; cases args[0]? <;> rfl
    · rename_i join
      rw [if_neg join]
      split at found
      · cases found; rename_i lock
        rw [if_pos lock]; cases args[0]? <;> rfl
      · rename_i lock
        rw [if_neg lock]
        split at found
        · cases found; rename_i unlock
          rw [if_pos unlock]; cases args[0]? <;> rfl
        · cases found

theorem instr_other {name : String} {args : List Value} {n : Node} (call : n.callInst = some (some name,args))
    (other : prefixed name = none) : instrIfSynchronization n = some ([],[]) := by
  simp only [instrIfSynchronization,call]
  unfold prefixed at other
  repeat' split at other
  all_goals simp_all

theorem instr_plain {i : Instruction} (plain : Node.request (.source i false) = none) :
    instrIfSynchronization (.source i false) = some ([],[]) := by
  cases call : Node.callInst (.source i false) with
  | none => simp [instrIfSynchronization,call]
  | some direct =>
    obtain ⟨callee,args⟩ := direct
    cases callee with
    | none => simp [instrIfSynchronization,call]
    | some name =>
      refine instr_other call ?_
      simpa [Node.request,Node.source?,call] using plain

theorem instr_callback (op : Sync) (args : List Value) : instrIfSynchronization (.inserted (.thread op) args false) = some ([],[]) :=
  instr_other rfl (prefixed_callback op)

def asNodes (block : List Instruction) : List Node := block.map fun i => .source i false

def Supplied (is : List Instruction) : Prop := ∀ i ∈ is, (Node.request (.source i false)).isSome → i.arg0.isSome

-- The loop over a block ends, with every call instrumented once, unless one of them
-- has no argument.
theorem visitBlock_laid (block : List Instruction) {fuel : ℕ} (enough : 2 * block.length ≤ fuel) (c : Collected) :
    (∃ done c', visitBlock fuel c (asNodes block) = some (done,c') ∧ Laid done ∧ done.filterMap Node.source? = block ∧ Supplied block) ∨
    (visitBlock fuel c (asNodes block) = none ∧ ¬ Supplied block) := by
  induction block generalizing fuel c with
  | nil =>
    refine .inl ⟨[],chooseInstructionsToInstrument c,?_,.nil,rfl,by simp [Supplied]⟩
    cases fuel <;> rfl
  | cons i rest ih =>
    obtain ⟨fuel,rfl⟩ : ∃ n, fuel = n + 2 := ⟨fuel - 2,by simp at enough; omega⟩
    have enough : 2 * rest.length ≤ fuel := by simp at enough; omega
    have supplied : Supplied (i :: rest) ↔ ((Node.request (.source i false)).isSome → i.arg0.isSome) ∧ Supplied rest := by
      simp [Supplied]
    have cons : asNodes (i :: rest) = .source i false :: asNodes rest := rfl
    rw [cons,supplied]
    cases requests : Node.request (.source i false) with
    | none =>
      rw [visitBlock,instr_plain requests]
      rcases ih (Nat.le_succ_of_le enough) (c.visit (.source i false)) with ⟨done,c',ran,laid,same,args⟩ | ⟨stuck,missing⟩
      · exact .inl ⟨.source i false :: done,c',by simp [ran],.plain ⟨requests,rfl⟩ laid,by simp [Node.source?,same],by simp,args⟩
      · exact .inr ⟨by simp [stuck],fun both => missing both.2⟩
    | some op =>
      rw [visitBlock,instr_request requests]
      cases arg : i.arg0 with
      | none => exact .inr ⟨by simp,fun both => by simpa using both.1⟩
      | some v =>
        by_cases unlock : op = .unlock
        · subst unlock
          rcases ih (Nat.le_succ_of_le enough) (c.visit (.source i false)) with ⟨done,c',ran,laid,same,args⟩ | ⟨stuck,missing⟩
          · refine .inl ⟨.inserted (.thread .unlock) [v] false :: .source i false :: done,c',by simp [ran],
              .before requests arg laid,?_,by simp,args⟩
            rw [filterMap_source_cons,filterMap_source_cons,same]
            rfl
          · exact .inr ⟨by simp [stuck],fun both => missing both.2⟩
        · have next : visitBlock (fuel+1) (c.visit (.source i false)) (.inserted (.thread op) [v] false :: asNodes rest) =
              (visitBlock fuel ((c.visit (.source i false)).visit (.inserted (.thread op) [v] false)) (asNodes rest)).map
                fun r => (.inserted (.thread op) [v] false :: r.1,r.2) := by
            rw [visitBlock,instr_callback,Option.map_eq_bind]
            rfl
          rcases ih enough ((c.visit (.source i false)).visit (.inserted (.thread op) [v] false)) with
            ⟨done,c',ran,laid,same,args⟩ | ⟨stuck,missing⟩
          · refine .inl ⟨.source i false :: .inserted (.thread op) [v] false :: done,c',?_,.after requests unlock arg laid,?_,
              by simp,args⟩
            · simp [unlock,next,ran]
            · rw [filterMap_source_cons,filterMap_source_cons,same]
              rfl
          · exact .inr ⟨by simp [unlock,next,stuck],fun both => missing both.2⟩

theorem visitBlocks_laid (blocks : List (List Instruction)) (c : Collected) :
    (∃ body c', visitBlocks c (blocks.map asNodes) = some (body,c') ∧ (∀ block ∈ body, Laid block) ∧ sources body = blocks.flatten ∧
      Supplied blocks.flatten) ∨
    (visitBlocks c (blocks.map asNodes) = none ∧ ¬ Supplied blocks.flatten) := by
  induction blocks generalizing c with
  | nil => exact .inl ⟨[],c,rfl,by simp,rfl,by simp [Supplied]⟩
  | cons block rest ih =>
    have supplied : Supplied (block :: rest).flatten ↔ Supplied block ∧ Supplied rest.flatten := by
      simp [Supplied,or_imp,forall_and]
    rw [List.map_cons,visitBlocks,supplied]
    have enough : 2 * block.length ≤ 2 * (asNodes block).length := by simp [asNodes]
    rcases visitBlock_laid block enough c with ⟨done,c₁,ran,laid,same,args⟩ | ⟨stuck,missing⟩
    · rcases ih c₁ with ⟨body,c',rest_ran,rest_laid,rest_same,rest_args⟩ | ⟨stuck,missing⟩
      · refine .inl ⟨done :: body,c',by simp [ran,rest_ran],?_,by rw [sources_cons,same,rest_same]; rfl,args,rest_args⟩
        intro other member
        rcases List.mem_cons.mp member with rfl | later
        · exact laid
        · exact rest_laid other later
      · exact .inr ⟨by simp [ran,stuck],fun both => missing both.2⟩
    · exact .inr ⟨by simp [stuck],fun both => missing both.1⟩

end Loop
section Runs
variable {opts : Options} {escape : Escape} {F : Function}

theorem keeps_accesses (c : Collected) (body : Body) : Keeps body (instrumentAccesses opts F c body).1 := by
  have one : ∀ (p : Prop) [Decidable p] (instrument : Body → Instruction → Body × Bool) (body : Body) (is : List Instruction),
      (∀ body i, Keeps body (instrument body i).1) →
      Keeps body (if p then instrumentEach instrument body is else (body,false)).1 := by
    intro p _ instrument body is keeps
    split
    · exact keeps_each keeps body is
    · exact .refl body
  exact (one _ _ body _ keeps_loadOrStore).trans ((one _ _ _ _ keeps_atomic).trans (one _ _ _ _ keeps_memIntrinsic))

theorem keeps_ignores (documented : escape.Documented) (body : Body) : Keeps body (insertRuntimeIgnores opts escape F body) :=
  (keeps_entry body (by simp)).trans (keeps_escape documented F _ _ (by simp))

theorem keeps_entryExit (documented : escape.Documented) (body : Body) : Keeps body (instrumentFuncEntryExit opts escape F body) := by
  have exits : Keeps body (escape F opts.handleCxxExceptions (.inserted .funcExit [] false) (insertAtEntry .funcEntry body)) :=
    (keeps_entry body (by simp)).trans (keeps_escape documented F _ _ (by simp))
  unfold instrumentFuncEntryExit
  split
  · exact exits.trans (keeps_escape documented F _ _ (by simp))
  · exact exits

theorem run_laid (opts : Options) (documented : escape.Documented) (ordinary : F.isTsanCtor = false) :
    (∃ body res, runOnFunction opts escape F = some (body,res) ∧ (∀ block ∈ body, Laid block) ∧
      (sources body).Sublist F.blocks.flatten ∧
      (sources body).filter Instruction.stays = F.blocks.flatten.filter Instruction.stays ∧ Supplied F.blocks.flatten) ∨
    (runOnFunction opts escape F = none ∧ ¬ Supplied F.blocks.flatten) := by
  unfold runOnFunction
  simp only [ordinary,Bool.false_eq_true,if_false]
  rcases visitBlocks_laid F.blocks ⟨[],[],[],[],false⟩ with ⟨body,c,ran,laid,same,args⟩ | ⟨stuck,missing⟩
  · left
    rw [show visitBlocks _ (F.blocks.map fun block => block.map fun i => Node.source i false) = _ from ran]
    have accesses : Keeps body (instrumentAccesses opts F c body).1 := keeps_accesses c body
    generalize reached : instrumentAccesses opts F c body = result at accesses
    obtain ⟨body₁,res⟩ := result
    have ignores : Keeps body (if F.checking = .noCheckingAtRunTime ∧ c.hasCalls = true
        then insertRuntimeIgnores opts escape F body₁ else body₁) := by
      split
      · exact accesses.trans (keeps_ignores documented body₁)
      · exact accesses
    generalize ignored : (if F.checking = .noCheckingAtRunTime ∧ c.hasCalls = true
        then insertRuntimeIgnores opts escape F body₁ else body₁) = body₂ at ignores
    have whole : ∀ {out}, Keeps body₂ out → (∀ block ∈ out, Laid block) ∧ (sources out).Sublist F.blocks.flatten ∧
        (sources out).filter Instruction.stays = F.blocks.flatten.filter Instruction.stays ∧ Supplied F.blocks.flatten := by
      intro out last
      have keeps := ignores.trans last
      exact ⟨keeps.laid laid,same ▸ keeps.order,by rw [keeps.kept,same],args⟩
    simp only [Option.bind_eq_bind,Option.bind_some,reached,ignored]
    split
    · exact ⟨_,_,rfl,whole (keeps_entryExit documented body₂)⟩
    · exact ⟨_,_,rfl,whole (.refl body₂)⟩
  · right
    rw [show visitBlocks _ (F.blocks.map fun block => block.map fun i => Node.source i false) = _ from stuck]
    exact ⟨rfl,missing⟩

end Runs
section Readings

def Beside (block : List Node) (k : ℕ) (op : Sync) (v : Value) (flag : Bool) : Prop :=
  if op = .unlock then 0 < k ∧ block[k-1]? = some (.inserted (.thread op) [v] flag)
  else block[k+1]? = some (.inserted (.thread op) [v] flag)

theorem beside_cons {rest : List Node} {k : ℕ} {op : Sync} {v : Value} {flag : Bool} (n : Node)
    (beside : Beside rest k op v flag) : Beside (n :: rest) (k+1) op v flag := by
  unfold Beside at beside ⊢
  split
  · rename_i unlock
    rw [if_pos unlock] at beside
    obtain ⟨positive,before⟩ := beside
    obtain ⟨k,rfl⟩ : ∃ n, k = n + 1 := ⟨k - 1,by omega⟩
    exact ⟨by omega,before⟩
  · rename_i others
    rw [if_neg others] at beside
    exact beside

theorem laid_beside {block : List Node} (laid : Laid block) {k : ℕ} {i : Instruction} {unwinds : Bool} {op : Sync}
    (found : block[k]? = some (.source i unwinds)) (requests : Node.request (.source i unwinds) = some op) :
    ∃ v flag, i.arg0 = some v ∧ Beside block k op v flag := by
  induction laid generalizing k with
  | nil => cases found
  | @after j u op' v flag rest requests' other arg laid ih =>
    match k with
    | 0 =>
      cases found
      rw [requests',Option.some.injEq] at requests
      subst requests
      exact ⟨v,flag,arg,by unfold Beside; rw [if_neg other]; rfl⟩
    | 1 => cases found
    | k+2 =>
      obtain ⟨v,flag,arg,beside⟩ := ih found
      exact ⟨v,flag,arg,beside_cons _ (beside_cons _ beside)⟩
  | @before j u v flag rest requests' arg laid ih =>
    match k with
    | 0 => cases found
    | 1 =>
      cases found
      rw [requests',Option.some.injEq] at requests
      subst requests
      exact ⟨v,flag,arg,by simp [Beside]⟩
    | k+2 =>
      obtain ⟨v,flag,arg,beside⟩ := ih found
      exact ⟨v,flag,arg,beside_cons _ (beside_cons _ beside)⟩
  | @plain n rest plain laid ih =>
    match k with
    | 0 =>
      cases found
      rw [plain.1] at requests; cases requests
    | k+1 =>
      obtain ⟨v,flag,arg,beside⟩ := ih found
      exact ⟨v,flag,arg,beside_cons _ beside⟩

theorem laid_first {block : List Node} (laid : Laid block) {op : Sync} {args : List Value} {flag : Bool}
    (first : firstNonPhi block = some (.inserted (.thread op) args flag)) : op = .unlock := by
  unfold firstNonPhi at first
  induction laid with
  | nil => cases first
  | after requests other arg laid ih =>
    simp only [List.dropWhile_cons,request_notPhi requests] at first
    cases first
  | before requests arg laid ih => cases first; rfl
  | @plain n rest plain laid ih =>
    cases phi : n.isPhi with
    | true =>
      simp only [List.dropWhile_cons,phi] at first
      exact ih first
    | false =>
      simp only [List.dropWhile_cons,phi] at first
      cases first
      cases plain.2

theorem laid_unlock {block : List Node} (laid : Laid block) {k : ℕ} {args : List Value} {flag : Bool}
    (found : block[k]? = some (.inserted (.thread .unlock) args flag)) :
    ∃ n, block[k+1]? = some n ∧ n.request = some .unlock := by
  induction laid generalizing k with
  | nil => cases found
  | after requests other arg laid ih =>
    match k with
    | 0 => cases found
    | 1 => cases found; exact absurd rfl other
    | k+2 => exact ih found
  | before requests arg laid ih =>
    match k with
    | 0 => exact ⟨_,rfl,requests⟩
    | 1 => cases found
    | k+2 => exact ih found
  | plain plain laid ih =>
    match k with
    | 0 =>
      cases found
      cases plain.2
    | k+1 => exact ih found

theorem nodeAt_block {body : Body} {b k : ℕ} {n : Node} : nodeAt body b k = some n ↔ ∃ block, body[b]? = some block ∧ block[k]? = some n :=
  Option.bind_eq_some_iff

theorem mem_sources {body : Body} {i : Instruction} : i ∈ sources body ↔ ∃ b k unwinds, nodeAt body b k = some (.source i unwinds) := by
  unfold sources
  rw [List.mem_filterMap]
  constructor
  · rintro ⟨n,member,source⟩
    obtain ⟨block,inBody,inBlock⟩ := List.mem_flatten.mp member
    obtain ⟨b,at_b⟩ := List.getElem?_of_mem inBody
    obtain ⟨k,at_k⟩ := List.getElem?_of_mem inBlock
    obtain ⟨unwinds,rfl⟩ := source_eq source
    exact ⟨b,k,unwinds,nodeAt_block.mpr ⟨block,at_b,at_k⟩⟩
  · rintro ⟨b,k,unwinds,found⟩
    obtain ⟨block,at_b,at_k⟩ := nodeAt_block.mp found
    exact ⟨_,List.mem_flatten.mpr ⟨block,List.mem_of_getElem? at_b,List.mem_of_getElem? at_k⟩,rfl⟩

end Readings
section Completeness

-- What may stand in a body for the pass to serve it: no direct invoke of the four
-- functions, and no direct call of a function whose name only starts like one of theirs.
def Instruction.Served (i : Instruction) : Prop :=
  match i.kind with
  | .call (some name) args => (prefixed name).isSome → (named name).isSome ∧ args ≠ []
  | .invoke (some name) .. => named name = none
  | _ => True

theorem sync_cases {i : Instruction} {op : Sync} (sync : i.sync = some op) :
    (∃ name args, i.kind = .call (some name) args ∧ named name = some op) ∨
    ∃ name args normal unwind, i.kind = .invoke (some name) args normal unwind ∧ named name = some op := by
  cases i with
  | mk address kind =>
    cases kind with
    | call callee args =>
      cases callee with
      | none => cases sync
      | some name => exact .inl ⟨name,args,rfl,sync⟩
    | invoke callee args normal unwind =>
      cases callee with
      | none => cases sync
      | some name => exact .inr ⟨name,args,normal,unwind,rfl,sync⟩
    | _ => cases sync

theorem sync_stays {i : Instruction} {op : Sync} (sync : i.sync = some op) : i.stays = true := by
  rcases sync_cases sync with ⟨name,args,kind,exact_name⟩ | ⟨name,args,normal,unwind,kind,_⟩
  · have requests : Node.request (.source i false) = some op := by
      obtain ⟨address,_⟩ := i
      cases kind
      rw [named_some] at exact_name
      subst exact_name
      exact prefixed_function op
    exact request_stays_source requests
  · simp [Instruction.stays,Instruction.directCall,kind,memIntrinsic]

theorem served_request {i : Instruction} (served : i.Served) {op : Sync} (sync : i.sync = some op) (unwinds : Bool) :
    Node.request (.source i unwinds) = some op := by
  obtain ⟨address,kind⟩ := i
  rcases sync_cases sync with ⟨name,args,same,exact_name⟩ | ⟨name,args,normal,unwind,same,exact_name⟩
  · cases same
    rw [named_some] at exact_name
    subst exact_name
    exact prefixed_function op
  · cases same
    rw [Instruction.Served] at served
    rw [served] at exact_name; cases exact_name

theorem request_served {i : Instruction} (served : i.Served) {unwinds : Bool}
    (requests : (Node.request (.source i unwinds)).isSome) : i.sync.isSome ∧ i.arg0.isSome := by
  obtain ⟨op,requests⟩ := Option.isSome_iff_exists.mp requests
  obtain ⟨name,args,same,found⟩ := request_call requests
  obtain ⟨address,kind⟩ := i
  cases same
  obtain ⟨exact_name,some⟩ := served (by rw [found]; rfl)
  refine ⟨exact_name,?_⟩
  cases args with
  | nil => exact absurd rfl some
  | cons v args => rfl

theorem countP_requests {body : Body} (laid : ∀ block ∈ body, Laid block) :
    body.flatten.countP (·.callback.isSome) = (sources body).countP fun i => (Node.request (.source i false)).isSome := by
  induction body with
  | nil => rfl
  | cons block rest ih =>
    have later := ih fun b member => laid b (List.mem_cons_of_mem _ member)
    rw [List.flatten_cons,List.countP_append,later,sources_cons,List.countP_append,laid_count (laid block List.mem_cons_self)]
    congr 1
    rw [List.countP_filterMap]
    apply List.countP_congr
    intro n _
    cases n with
    | source i unwinds =>
      rw [same_request (.source i false unwinds)]
      rfl
    | _ => simp [Node.request,Node.source?]

theorem countP_stays {p : Instruction → Bool} (only : ∀ i, p i = true → i.stays = true) (is : List Instruction) :
    is.countP p = (is.filter Instruction.stays).countP p := by
  rw [List.countP_filter]
  apply List.countP_congr
  intro i _
  simp only [Bool.and_eq_true]
  exact ⟨fun holds => ⟨holds,only i holds⟩,And.left⟩

theorem filter_stays {p : Instruction → Bool} (only : ∀ i, p i = true → i.stays = true) (is : List Instruction) :
    is.filter p = (is.filter Instruction.stays).filter p := by
  rw [List.filter_filter]
  apply List.filter_congr
  intro i _
  cases holds : p i with
  | false => rfl
  | true => rw [only i holds]; rfl

theorem countP_exact {p q : Instruction → Bool} {is : List Instruction} (only : ∀ i ∈ is, p i = true → q i = true)
    (same : is.countP q = is.countP p) : ∀ i ∈ is, q i = true → p i = true := by
  induction is with
  | nil => simp
  | cons i rest ih =>
    have later : rest.countP p ≤ rest.countP q :=
      List.countP_mono_left fun j member => only j (List.mem_cons_of_mem _ member)
    have here := only i List.mem_cons_self
    simp only [List.countP_cons] at same
    have rest_same : rest.countP q = rest.countP p ∧ (q i = true → p i = true) := by
      cases holds : p i with
      | true => rw [holds,here holds] at same; simp at same; exact ⟨same,fun _ => rfl⟩
      | false =>
        cases other : q i with
        | true => rw [holds,other] at same; simp at same; omega
        | false => rw [holds,other] at same; simp at same; exact ⟨same,by simp⟩
    intro j member requests
    rcases List.mem_cons.mp member with rfl | member
    · exact rest_same.2 requests
    · exact ih (fun j member => only j (List.mem_cons_of_mem _ member)) rest_same.1 j member requests

variable {F : Function} {body : Body}

theorem countP_callbacks (laid : ∀ block ∈ body, Laid block)
    (kept : (sources body).filter Instruction.stays = F.blocks.flatten.filter Instruction.stays) :
    body.flatten.countP (·.callback.isSome) = F.blocks.flatten.countP fun i => (Node.request (.source i false)).isSome := by
  have calls : ∀ i, (Node.request (.source i false)).isSome = true → i.stays = true := by
    intro i requests
    obtain ⟨op,requests⟩ := Option.isSome_iff_exists.mp requests
    exact request_stays_source requests
  rw [countP_requests laid,countP_stays calls,kept,← countP_stays calls]

theorem served_beside (laid : ∀ block ∈ body, Laid block) (order : (sources body).Sublist F.blocks.flatten)
    (served : ∀ i ∈ F.blocks.flatten, i.Served) {b k : ℕ} {i : Instruction} {unwinds : Bool} {op : Sync}
    (found : nodeAt body b k = some (.source i unwinds)) (sync : i.sync = some op) : ∃ block v flag,
      body[b]? = some block ∧ i.arg0 = some v ∧ Beside block k op v flag := by
  have member := order.subset (mem_sources.mpr ⟨b,k,unwinds,found⟩)
  obtain ⟨block,at_b,at_k⟩ := nodeAt_block.mp found
  obtain ⟨v,flag,arg,beside⟩ := laid_beside (laid block (List.mem_of_getElem? at_b)) at_k
    (served_request (served i member) sync unwinds)
  exact ⟨block,v,flag,at_b,arg,beside⟩

-- What a laid out body lacks for being complete is only that every synchronization
-- is a call that is instrumented, and every such call a synchronization.
theorem complete_of_served (laid : ∀ block ∈ body, Laid block) (order : (sources body).Sublist F.blocks.flatten)
    (kept : (sources body).filter Instruction.stays = F.blocks.flatten.filter Instruction.stays)
    (served : ∀ i ∈ F.blocks.flatten, i.Served) : Complete F.blocks body := by
  refine ⟨?_,?_,?_,order,?_⟩
  · intro b k i unwinds op found sync other
    obtain ⟨block,v,flag,at_b,arg,beside⟩ := served_beside laid order served found sync
    unfold Beside at beside
    rw [if_neg other] at beside
    refine ⟨_,?_,v,flag,arg,rfl⟩
    have member := order.subset (mem_sources.mpr ⟨b,k,unwinds,found⟩)
    have call := served_request (served i member) sync unwinds
    obtain ⟨name,args,kind,_⟩ := request_call call
    obtain ⟨address,_⟩ := i
    cases kind
    unfold nodeAfter
    rw [found]
    exact nodeAt_block.mpr ⟨block,at_b,beside⟩
  · intro b k i unwinds found sync
    obtain ⟨block,v,flag,at_b,arg,beside⟩ := served_beside laid order served found sync
    obtain ⟨positive,before⟩ : 0 < k ∧ _ := by simpa [Beside] using beside
    refine ⟨_,?_,v,flag,arg,rfl⟩
    unfold nodeBefore
    rw [if_neg (by omega)]
    exact nodeAt_block.mpr ⟨block,at_b,before⟩
  · rw [countP_callbacks laid kept]
    apply List.countP_congr
    intro i member
    constructor
    · exact fun requests => (request_served (served i member) requests).1
    · intro sync
      obtain ⟨op,sync⟩ := Option.isSome_iff_exists.mp sync
      rw [served_request (served i member) sync false]; rfl
  · have syncs : ∀ i : Instruction, i.sync.isSome = true → i.stays = true := by
      intro i sync
      obtain ⟨op,sync⟩ := Option.isSome_iff_exists.mp sync
      exact sync_stays sync
    rw [filter_stays syncs,kept,← filter_stays syncs]

theorem invoke_unserved (laid : ∀ block ∈ body, Laid block)
    (kept : (sources body).filter Instruction.stays = F.blocks.flatten.filter Instruction.stays)
    (complete : Complete F.blocks body) {i : Instruction} (member : i ∈ F.blocks.flatten) {name : String} {args : List Value}
    {normal unwind : ℕ} (kind : i.kind = .invoke (some name) args normal unwind) : named name = none := by
  cases exact_name : named name with
  | none => rfl
  | some op =>
    have sync : i.sync = some op := by
      unfold Instruction.sync Instruction.directCall
      rw [kind]; exact exact_name
    have inSources : i ∈ (sources body).filter Instruction.stays := by
      rw [kept]; exact List.mem_filter.mpr ⟨member,sync_stays sync⟩
    obtain ⟨b,k,unwinds,found⟩ := mem_sources.mp (List.mem_filter.mp inSources).1
    obtain ⟨address,_⟩ := i
    cases kind
    by_cases unlock : op = .unlock
    · subst unlock
      obtain ⟨n,before,v,flag,_,rfl⟩ := complete.before b k _ unwinds found sync
      unfold nodeBefore at before
      split at before
      · cases before
      · rename_i positive
        obtain ⟨block,at_b,at_k⟩ := nodeAt_block.mp before
        obtain ⟨n,next,requests⟩ := laid_unlock (laid block (List.mem_of_getElem? at_b)) at_k
        obtain ⟨block',at_b',at_k'⟩ := nodeAt_block.mp found
        rw [at_b,Option.some.injEq] at at_b'
        subst at_b'
        rw [show k - 1 + 1 = k by omega,at_k',Option.some.injEq] at next
        subst next
        cases requests
    · obtain ⟨n,after,v,flag,_,rfl⟩ := complete.after b k _ unwinds op found sync unlock
      unfold nodeAfter at after
      rw [found] at after
      obtain ⟨block,at_b,first⟩ := Option.bind_eq_some_iff.mp after
      exact absurd (laid_first (laid block (List.mem_of_getElem? at_b)) first) unlock

theorem served_of_complete (laid : ∀ block ∈ body, Laid block)
    (kept : (sources body).filter Instruction.stays = F.blocks.flatten.filter Instruction.stays)
    (supplied : Supplied F.blocks.flatten) (complete : Complete F.blocks body) : ∀ i ∈ F.blocks.flatten, i.Served := by
  have invokes : ∀ i ∈ F.blocks.flatten, ∀ name args normal unwind, i.kind = .invoke (some name) args normal unwind →
      named name = none := fun i member name args normal unwind kind => invoke_unserved laid kept complete member kind
  have only : ∀ i ∈ F.blocks.flatten, i.sync.isSome = true → (Node.request (.source i false)).isSome = true := by
    intro i member sync
    obtain ⟨op,sync⟩ := Option.isSome_iff_exists.mp sync
    rcases sync_cases sync with ⟨name,args,kind,exact_name⟩ | ⟨name,args,normal,unwind,kind,exact_name⟩
    · obtain ⟨address,_⟩ := i
      cases kind
      rw [named_some] at exact_name
      subst exact_name
      rw [show Node.request (.source ⟨address,.call (some op.function) args⟩ false) = some op from prefixed_function op]
      rfl
    · rw [invokes i member name args normal unwind kind] at exact_name; cases exact_name
  have same := complete.count
  rw [countP_callbacks laid kept] at same
  have exactly := countP_exact only same
  intro i member
  obtain ⟨address,kind⟩ := i
  cases kind with
  | call callee args =>
    cases callee with
    | none => trivial
    | some name =>
      intro found
      refine ⟨exactly _ member found,?_⟩
      rintro rfl
      cases supplied _ member found
  | invoke callee args normal unwind =>
    cases callee with
    | none => trivial
    | some name => exact invokes _ member name args normal unwind rfl
  | _ => trivial

end Completeness
section Verdict
variable {opts : Options} {escape : Escape}

instance (i : Instruction) : Decidable i.Served :=
  match h : i.kind with
  | .call (some name) args => decidable_of_iff ((prefixed name).isSome → (named name).isSome ∧ args ≠ []) (by simp [Instruction.Served,h])
  | .invoke (some name) .. => decidable_of_iff (named name = none) (by simp [Instruction.Served,h])
  | .call none _ | .invoke none .. | .load .. | .store .. | .atomicRMW .. | .atomicCmpXchg _ | .fence _ | .phi | .ret
  | .resume | .other => isTrue (by simp [Instruction.Served,h])

theorem sources_asNodes (blocks : List (List Instruction)) : sources (blocks.map asNodes) = blocks.flatten := by
  induction blocks with
  | nil => rfl
  | cons block rest ih =>
    have one : (asNodes block).filterMap Node.source? = block := by
      unfold asNodes
      rw [List.filterMap_map]
      exact List.filterMap_some
    rw [List.map_cons,sources_cons,ih,one]
    rfl

theorem complete_untouched (blocks : List (List Instruction)) :
    Complete blocks (blocks.map asNodes) ↔ ∀ i ∈ blocks.flatten, i.sync = none := by
  have silent : ∀ n ∈ (blocks.map asNodes).flatten, n.callback = none := by
    intro n member
    obtain ⟨block,inBody,inBlock⟩ := List.mem_flatten.mp member
    obtain ⟨is,_,rfl⟩ := List.mem_map.mp inBody
    obtain ⟨i,_,rfl⟩ := List.mem_map.mp inBlock
    rfl
  have none : (blocks.map asNodes).flatten.countP (·.callback.isSome) = 0 := by
    rw [List.countP_eq_zero]
    intro n member
    rw [silent n member]
    simp
  constructor
  · intro complete i member
    have counted := complete.count
    rw [none,eq_comm,List.countP_eq_zero] at counted
    simpa using counted i member
  · intro quiet
    have absent : ∀ {b k i unwinds op}, nodeAt (blocks.map asNodes) b k = some (.source i unwinds) → i.sync ≠ some op := by
      intro b k i unwinds op found sync
      have member := mem_sources.mpr ⟨b,k,unwinds,found⟩
      rw [sources_asNodes] at member
      rw [quiet i member] at sync; cases sync
    refine ⟨?_,?_,?_,by rw [sources_asNodes],by rw [sources_asNodes]⟩
    · exact fun _ _ _ _ _ found sync _ => absurd sync (absent found)
    · exact fun _ _ _ _ found sync => absurd sync (absent found)
    · rw [none,eq_comm,List.countP_eq_zero]
      intro i member
      simp [quiet i member]

-- The pass instruments the synchronizations of a function completely exactly when
-- it is served every one of them as a plain call under its own name.
theorem complete_iff_served (documented : escape.Documented) (F : Function) :
    (∃ body res, runOnFunction opts escape F = some (body,res) ∧ Complete F.blocks body) ↔
      if F.isTsanCtor then ∀ i ∈ F.blocks.flatten, i.sync = none else ∀ i ∈ F.blocks.flatten, i.Served := by
  cases ctor : F.isTsanCtor with
  | true =>
    have untouched : runOnFunction opts escape F = some (F.blocks.map asNodes,false) := by
      unfold runOnFunction
      rw [ctor]
      rfl
    rw [if_pos rfl,← complete_untouched,untouched]
    constructor
    · rintro ⟨body,res,ran,complete⟩
      cases ran; exact complete
    · exact fun complete => ⟨_,_,rfl,complete⟩
  | false =>
    rw [if_neg Bool.false_ne_true]
    rcases run_laid opts documented ctor with ⟨body,res,ran,laid,order,kept,supplied⟩ | ⟨stuck,missing⟩
    · constructor
      · rintro ⟨body',res',ran',complete⟩
        rw [ran,Option.some.injEq] at ran'
        cases ran'
        exact served_of_complete laid kept supplied complete
      · exact fun served => ⟨body,res,ran,complete_of_served laid order kept served⟩
    · constructor
      · rintro ⟨body,res,ran,_⟩
        rw [stuck] at ran; cases ran
      · intro served
        refine absurd (fun i member requests => ?_) missing
        exact (request_served (served i member) requests).2

-- Where no call may throw, a call is only put before each return and each resume.
def unthrowing : Escape := fun _ _ c body => body.map (insertAtExit c)

theorem unthrowing_documented : unthrowing.Documented := by
  intro F handles c body
  refine ⟨[],?_,by simp⟩
  rw [List.append_nil]
  exact List.forall₂_same.mpr fun block _ => List.forall₂_same.mpr fun n _ => .rfl n

def lockedStore : Function := ⟨"count",false,.sanitizeThread,
  [[⟨1,.call (some "pthread_mutex_lock") [5]⟩,⟨2,.store ⟨6,32,4,false,false,true,false,false⟩ false⟩,
    ⟨3,.call (some "pthread_mutex_unlock") [5]⟩,⟨4,.ret⟩]]⟩

theorem complete_iff_served_counter : ∃ body res,
    runOnFunction ⟨true,true,true,true,true⟩ unthrowing lockedStore = some (body,res) ∧ Complete lockedStore.blocks body :=
  (complete_iff_served unthrowing_documented _).mpr (by decide)

def invokedJoin : Function := ⟨"finish",false,.sanitizeThread,
  [[⟨1,.invoke (some "pthread_join") [7,0] 1 2⟩],[⟨2,.ret⟩],[⟨3,.other⟩,⟨4,.resume⟩]]⟩

theorem invoked_join_missed : unthrowing.Documented ∧ ¬ ∃ body res,
    runOnFunction ⟨true,true,true,true,true⟩ unthrowing invokedJoin = some (body,res) ∧ Complete invokedJoin.blocks body := by
  refine ⟨unthrowing_documented,?_⟩
  rintro ⟨body,res,ran,complete⟩
  have reached : runOnFunction ⟨true,true,true,true,true⟩ unthrowing invokedJoin =
      some ([[.inserted .funcEntry [] false,.source ⟨1,.invoke (some "pthread_join") [7,0] 1 2⟩ false],
        [.inserted .funcExit [] false,.source ⟨2,.ret⟩ false],
        [.source ⟨3,.other⟩ false,.inserted .funcExit [] false,.source ⟨4,.resume⟩ false]],true) := by decide
  rw [reached] at ran
  cases ran
  obtain ⟨n,next,v,flag,_,rfl⟩ := complete.after 0 1 _ _ .join rfl (by decide) (by decide)
  cases next

end Verdict
end ThreadSanitizer
