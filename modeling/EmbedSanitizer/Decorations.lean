import EmbedSanitizer.Expansion

namespace ThreadSanitizer

def Callback.frames : Callback → Bool
  | .funcEntry | .funcExit | .mainFuncExit | .ignoreThreadBegin | .ignoreThreadEnd => true
  | _ => false

-- A node as it was before the calls at the entry and the exits were put in.
def Node.core : Node → Option Node
  | .source i _ => some (.source i false)
  | .inserted callee args _ => if callee.frames then none else some (.inserted callee args false)
  | .landingPad | .resume => none

def coreOf (block : List Node) : List Node := block.filterMap Node.core

section Frames

theorem core_plain {callee : Callback} {args : List Value} {flag : Bool} {m : Node} (core : (Node.inserted callee args flag).core = some m) :
    callee.frames = false ∧ m = .inserted callee args false := by
  rw [Node.core] at core
  split at core
  · cases core
  · exact ⟨Bool.eq_false_iff.mpr ‹_›,(Option.some.inj core).symm⟩

theorem core_frames {callee : Callback} {args : List Value} {flag : Bool} (core : (Node.inserted callee args flag).core = none) :
    callee.frames = true := by
  by_contra plain
  rw [Node.core,if_neg plain] at core; cases core

theorem core_entry {callee : Callback} (frames : callee.frames = true) (body : Body) :
    (insertAtEntry callee body).map coreOf = body.map coreOf := by
  cases body with
  | nil => rfl
  | cons entry rest =>
    have same : coreOf (entry.takeWhile Node.isPhi ++ .inserted callee [] false :: entry.dropWhile Node.isPhi) = coreOf entry := by
      unfold coreOf
      rw [List.filterMap_append,List.filterMap_cons_none (by simp [Node.core,frames]),← List.filterMap_append,
        List.takeWhile_append_dropWhile]
    rw [insertAtEntry,List.map_cons,List.map_cons,same]

theorem core_exit {c : Node} (none : c.core = none) (block : List Node) : coreOf (insertAtExit c block) = coreOf block := by
  unfold coreOf
  induction block with
  | nil => rfl
  | cons n rest ih =>
    cases rest with
    | nil =>
      rw [insertAtExit]
      split
      · rw [List.filterMap_cons_none none]
      · rfl
    | cons m rest => rw [insertAtExit,List.filterMap_cons,List.filterMap_cons,ih]

theorem core_same {n n' : Node} (same : Same n n') : n'.core = n.core := by cases same <;> rfl

theorem core_forall₂ {block block' : List Node} (same : List.Forall₂ Same block block') : coreOf block' = coreOf block := by
  unfold coreOf
  induction same with
  | nil => rfl
  | cons first _ ih => rw [List.filterMap_cons,List.filterMap_cons,core_same first,ih]

def Framed (body body' : Body) : Prop := ∃ m, body'.map coreOf = body.map coreOf ++ List.replicate m []

theorem Framed.refl (body : Body) : Framed body body := ⟨0,by simp⟩

theorem Framed.trans {one two three : Body} (first : Framed one two) (second : Framed two three) : Framed one three := by
  obtain ⟨m,same⟩ := first
  obtain ⟨n,same'⟩ := second
  exact ⟨m + n,by rw [same',same,List.append_assoc,List.replicate_append_replicate]⟩

theorem framed_entry {callee : Callback} (frames : callee.frames = true) (body : Body) : Framed body (insertAtEntry callee body) :=
  ⟨0,by simp [core_entry frames]⟩

theorem framed_escape {escape : Escape} (documented : escape.Documented) (F : Function) (handles : Bool) (body : Body)
    {callee : Callback} (frames : callee.frames = true) : Framed body (escape F handles (.inserted callee [] false) body) := by
  have none : (Node.inserted callee [] false).core = none := by simp [Node.core,frames]
  obtain ⟨cleanup,same,pads⟩ := documented F handles (.inserted callee [] false) body
  refine ⟨cleanup.length,?_⟩
  have cores : (escape F handles (.inserted callee [] false) body).map coreOf =
      (body.map (insertAtExit (.inserted callee [] false)) ++ cleanup).map coreOf := by
    generalize escape F handles (.inserted callee [] false) body = body' at same
    generalize body.map (insertAtExit (.inserted callee [] false)) ++ cleanup = exits at same
    induction same with
    | nil => rfl
    | cons first _ ih => rw [List.map_cons,List.map_cons,core_forall₂ first,ih]
  have empty : cleanup.map coreOf = List.replicate cleanup.length [] := by
    refine List.eq_replicate_iff.mpr ⟨by simp,fun core member => ?_⟩
    obtain ⟨block,inside,rfl⟩ := List.mem_map.mp member
    rw [pads block inside]
    simp [coreOf,Node.core,frames]
  rw [cores,List.map_append,empty,List.map_map]
  exact congrArg (· ++ _) (List.map_congr_left fun block _ => core_exit none block)

end Frames

section Blocks
variable {opts : Options} {escape : Escape} {F : Function}

def Settled (nodes : List Node) : Prop := ∀ n ∈ nodes, n.core = some n

theorem settled_core {nodes : List Node} (settled : Settled nodes) : coreOf nodes = nodes := by
  unfold coreOf
  induction nodes with
  | nil => rfl
  | cons n rest ih =>
    rw [List.filterMap_cons_some (settled n List.mem_cons_self),ih fun m member => settled m (List.mem_cons_of_mem _ member)]

theorem settled_source (i : Instruction) : Settled [.source i false] := by simp [Settled,Node.core]

theorem settled_laidOut (i : Instruction) : Settled (laidOut i) := by
  unfold laidOut
  split
  · split <;> simp [Settled,Node.core,Callback.frames]
  · exact settled_source i

theorem settled_cons {n : Node} {nodes : List Node} (settled : n.core = some n) (rest : Settled nodes) : Settled (n :: nodes) := by
  intro m member
  rcases List.mem_cons.mp member with rfl | later
  · exact settled
  · exact rest m later

theorem settled_call {callee : Callback} (plain : callee.frames = false) (args : List Value) :
    (Node.inserted callee args false).core = some (.inserted callee args false) := by simp [Node.core,plain]

theorem loadOrStore_plain {kind : Kind} {callee : Callback} (found : loadOrStoreCallback kind = some callee) : callee.frames = false := by
  have access : ∀ p isWrite, loadOrStoreCallback.access p isWrite = some callee → callee.frames = false := by
    intro p isWrite found
    unfold loadOrStoreCallback.access at found
    repeat' split at found
    all_goals cases found
    all_goals rfl
  cases kind with
  | load p atomic => exact access p false found
  | store p atomic => exact access p true found
  | _ => cases found

theorem atomic_plain {kind : Kind} {callee : Callback} {replaces : Bool} (found : atomicCallback kind = some (callee,replaces)) :
    callee.frames = false := by
  cases kind with
  | load p atomic =>
    obtain ⟨idx,_,same⟩ := Option.map_eq_some_iff.mp found
    cases same; rfl
  | store p atomic =>
    obtain ⟨idx,_,same⟩ := Option.map_eq_some_iff.mp found
    cases same; rfl
  | atomicRMW p op =>
    simp only [atomicCallback] at found
    split at found <;> cases found
    rfl
  | atomicCmpXchg p =>
    obtain ⟨idx,_,same⟩ := Option.map_eq_some_iff.mp found
    cases same; rfl
  | fence singleThread => cases singleThread <;> cases found <;> rfl
  | _ => cases found

theorem memIntrinsic_plain {kind : Kind} {callee : Callback} (found : memIntrinsic kind = some callee) : callee.frames = false := by
  unfold memIntrinsic at found
  repeat' split at found
  all_goals cases found
  all_goals rfl

theorem settled_loadOrStore (i : Instruction) : Settled (loadOrStoreRewrite.nodes i (.source i false)) := by
  unfold loadOrStoreRewrite
  dsimp only
  split
  · exact settled_source i
  · rename_i callee found
    exact settled_cons (settled_call (loadOrStore_plain found) _) (settled_source i)

theorem settled_atomic (i : Instruction) : Settled (atomicRewrite.nodes i (.source i false)) := by
  unfold atomicRewrite
  dsimp only
  split
  · exact settled_source i
  · rename_i callee replaces found
    refine settled_cons (settled_call (atomic_plain found) _) ?_
    split
    · simp [Settled]
    · exact settled_source i

theorem settled_memIntrinsic (i : Instruction) : Settled (memIntrinsicRewrite.nodes i (.source i false)) := by
  unfold memIntrinsicRewrite
  dsimp only
  split
  · exact settled_source i
  · rename_i callee found
    exact settled_cons (settled_call (memIntrinsic_plain found) _) (by simp [Settled])

theorem settled_expandOne (sanitize : Bool) (i : Instruction) (rest : List Instruction) : Settled (expandOne opts sanitize i rest) := by
  unfold expandOne
  repeat' split
  all_goals first
    | exact settled_source i
    | exact settled_atomic i
    | exact settled_memIntrinsic i
    | exact settled_loadOrStore i
    | exact settled_laidOut i

theorem settled_expansion (sanitize : Bool) (block : List Instruction) : Settled (expansion opts sanitize block) := by
  induction block with
  | nil => simp [expansion,Settled]
  | cons i rest ih =>
    intro n member
    rw [expansion,List.mem_append] at member
    rcases member with here | later
    · exact settled_expandOne sanitize i rest n here
    · exact ih n later

theorem finished_core (documented : escape.Documented) : Framed (F.expanded opts) (F.finished opts escape).1 := by
  have around : ∀ {begins ends : Callback} (body : Body), begins.frames = true → ends.frames = true →
      Framed body (escape F opts.handleCxxExceptions (.inserted ends [] false) (insertAtEntry begins body)) :=
    fun body begins ends => (framed_entry begins body).trans (framed_escape documented F _ _ ends)
  have ignores : ∀ body, Framed body (insertRuntimeIgnores opts escape F body) := fun body => around body rfl rfl
  have crossings : ∀ body, Framed body (instrumentFuncEntryExit opts escape F body) := by
    intro body
    unfold instrumentFuncEntryExit
    split
    · exact (around body rfl rfl).trans (framed_escape documented F _ _ rfl)
    · exact around body rfl rfl
  unfold Function.finished
  dsimp only
  split <;> split
  · exact (ignores _).trans (crossings _)
  · exact crossings _
  · exact ignores _
  · exact .refl _

theorem finished_block (documented : escape.Documented) (k : ℕ) :
    coreOf ((F.finished opts escape).1.getD k []) = expansion opts F.sanitized (F.blocks.getD k []) := by
  obtain ⟨m,same⟩ : Framed (F.expanded opts) (F.finished opts escape).1 := finished_core documented
  have at_k := congrArg (fun cores => cores.getD k []) same
  have cores : ∀ body : Body, (body.map coreOf).getD k [] = coreOf (body.getD k []) := by
    intro body
    rw [List.getD_eq_getElem?_getD,List.getElem?_map,List.getD_eq_getElem?_getD]
    cases body[k]? <;> rfl
  have added : ((F.expanded opts).map coreOf ++ List.replicate m []).getD k [] = ((F.expanded opts).map coreOf).getD k [] := by
    rw [List.getD_eq_getElem?_getD,List.getD_eq_getElem?_getD,List.getElem?_append]
    split
    · rfl
    · rename_i beyond
      rw [List.getElem?_eq_none (Nat.not_lt.mp beyond),List.getElem?_replicate]
      split <;> rfl
  rw [cores] at at_k
  rw [at_k,added,cores,Function.expanded,List.getD_eq_getElem?_getD,List.getElem?_map,List.getD_eq_getElem?_getD]
  cases F.blocks[k]? with
  | none => rfl
  | some block => exact settled_core (settled_expansion _ block)

end Blocks
end ThreadSanitizer
