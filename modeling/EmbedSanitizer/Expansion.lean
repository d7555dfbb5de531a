import EmbedSanitizer.AccessChoice
import Mathlib.Data.List.Nodup
import Mathlib.Data.List.Pairwise

namespace ThreadSanitizer

section Loop

def laidOut (i : Instruction) : List Node :=
  match Node.request (.source i false),i.arg0 with
  | some op,some v =>
    if op = .unlock then [.inserted (.thread op) [v] false,.source i false] else [.source i false,.inserted (.thread op) [v] false]
  | _,_ => [.source i false]

-- A callback that has just been inserted after its call changes nothing of what is collected.
theorem visit_callback {i : Instruction} (breaks : i.breaks = true) (c : Collected) (op : Sync) (args : List Value) :
    (c.visit (.source i false)).visit (.inserted (.thread op) args false) = c.visit (.source i false) := by
  rcases visit_cases c i with ⟨_,_,goes,_⟩ | ⟨_,_,goes,_⟩ | ⟨_,_,ran⟩ | ⟨_,_,goes,_⟩
  · rw [goes] at breaks; cases breaks
  · rw [goes] at breaks; cases breaks
  · rw [ran,choose_foldr]
    simp only [Collected.visit,Node.isAtomic,Node.isLoadOrStore,Node.callInst,Node.source?,choose_foldr]
    simp
  · rw [goes] at breaks; cases breaks

theorem request_breaks {i : Instruction} {op : Sync} (requests : Node.request (.source i false) = some op) : i.breaks = true := by
  obtain ⟨name,args,kind,_⟩ := request_call requests
  simp [Instruction.breaks,kind]

theorem visitBlock_exact (block : List Instruction) {fuel : ℕ} (enough : 2 * block.length ≤ fuel) (c : Collected)
    (supplied : Supplied block) : visitBlock fuel c (asNodes block) =
      some (block.flatMap laidOut,chooseInstructionsToInstrument (visited c block)) := by
  induction block generalizing fuel c with
  | nil => cases fuel <;> rfl
  | cons i rest ih =>
    obtain ⟨fuel,rfl⟩ : ∃ n, fuel = n + 2 := ⟨fuel - 2,by simp at enough; omega⟩
    have enough : 2 * rest.length ≤ fuel := by simp at enough; omega
    have others : Supplied rest := fun j member => supplied j (List.mem_cons_of_mem _ member)
    have cons : asNodes (i :: rest) = .source i false :: asNodes rest := rfl
    have first : visited c (i :: rest) = visited (c.visit (.source i false)) rest := rfl
    rw [cons,first,List.flatMap_cons,laidOut]
    cases requests : Node.request (.source i false) with
    | none =>
      rw [visitBlock,instr_plain requests]
      simp [ih (Nat.le_succ_of_le enough) (c.visit (.source i false)) others]
    | some op =>
      obtain ⟨v,arg⟩ := Option.isSome_iff_exists.mp (supplied i List.mem_cons_self (by rw [requests]; rfl))
      rw [visitBlock,instr_request requests,arg]
      by_cases unlock : op = .unlock
      · simp [unlock,ih (Nat.le_succ_of_le enough) (c.visit (.source i false)) others]
      · have next : visitBlock (fuel+1) (c.visit (.source i false)) (.inserted (.thread op) [v] false :: asNodes rest) =
            (visitBlock fuel (c.visit (.source i false)) (asNodes rest)).map fun r => (.inserted (.thread op) [v] false :: r.1,r.2) := by
          rw [visitBlock,instr_callback,visit_callback (request_breaks requests),Option.map_eq_bind]
          rfl
        simp [unlock,next,ih enough (c.visit (.source i false)) others]

def visitedAll (c : Collected) (blocks : List (List Instruction)) : Collected :=
  blocks.foldl (fun c block => chooseInstructionsToInstrument (visited c block)) c

theorem visitBlocks_exact (blocks : List (List Instruction)) (c : Collected) (supplied : Supplied blocks.flatten) :
    visitBlocks c (blocks.map asNodes) = some (blocks.map fun block => block.flatMap laidOut,visitedAll c blocks) := by
  induction blocks generalizing c with
  | nil => rfl
  | cons block rest ih =>
    have here : Supplied block := fun i member => supplied i (by simp [member])
    have later : Supplied rest.flatten := fun i member => supplied i (by rw [List.flatten_cons]; exact List.mem_append_right _ member)
    have enough : 2 * block.length ≤ 2 * (asNodes block).length := by simp [asNodes]
    rw [List.map_cons,visitBlocks,visitBlock_exact block enough c here]
    simp [ih (chooseInstructionsToInstrument (visited c block)) later,visitedAll]

theorem gathered_all (blocks : List (List Instruction)) {c : Collected} (settled : c.localLoadsAndStores = []) :
    (visitedAll c blocks).allLoadsAndStores.Perm (c.allLoadsAndStores ++ blocks.flatMap choice) ∧
    (visitedAll c blocks).atomicAccesses = c.atomicAccesses ++ blocks.flatten.filter Instruction.isAtomic ∧
    (visitedAll c blocks).memIntrinCalls = c.memIntrinCalls ++ blocks.flatten.filter Instruction.isMemIntrinsic ∧
    (visitedAll c blocks).hasCalls = (c.hasCalls || blocks.flatten.any Instruction.breaks) := by
  induction blocks generalizing c with
  | nil => simp [visitedAll]
  | cons block rest ih =>
    have here := gathered block (c := c) (by rw [settled]; simp [Plain])
    obtain ⟨accesses,atomics,intrinsics,calls⟩ := ih here.settled
    refine ⟨accesses.trans ?_,?_,?_,?_⟩
    · rw [List.flatMap_cons,← List.append_assoc]
      refine List.Perm.append_right _ ?_
      have chosen := here.accesses
      rwa [settled,List.nil_append] at chosen
    · show (visitedAll (chooseInstructionsToInstrument (visited c block)) rest).atomicAccesses = _
      rw [atomics,here.atomics]
      simp
    · show (visitedAll (chooseInstructionsToInstrument (visited c block)) rest).memIntrinCalls = _
      rw [intrinsics,here.intrinsics]
      simp
    · show (visitedAll (chooseInstructionsToInstrument (visited c block)) rest).hasCalls = _
      rw [calls,here.calls]
      simp [Bool.or_assoc]

end Loop
section Rewriting

-- What an instrumentation puts in the place of the instruction i, which stands as n.
structure Rewrite where
  nodes : Instruction → Node → List Node
  changes : Instruction → Bool

structure Rewrite.Adds (r : Rewrite) : Prop where
  only : ∀ i n m, m ∈ r.nodes i n → m = n ∨ m.source? = none

def Rewrite.Of (r : Rewrite) (instrument : Body → Instruction → Body × Bool) : Prop :=
  ∀ body i, instrument body i = (replaceAt body i (r.nodes i),r.changes i)

def Rewrite.edit (r : Rewrite) (is : List Instruction) (n : Node) : List Node :=
  match n.source? with
  | some i => if i ∈ is then r.nodes i n else [n]
  | none => [n]

theorem flatMap_only {α : Type*} (xs : List α) (f : α → List α) (same : ∀ x ∈ xs, f x = [x]) : xs.flatMap f = xs := by
  induction xs with
  | nil => rfl
  | cons x xs ih =>
    rw [List.flatMap_cons,same x List.mem_cons_self,ih fun y member => same y (List.mem_cons_of_mem _ member)]
    rfl

theorem edit_nil (r : Rewrite) (n : Node) : r.edit [] n = [n] := by
  unfold Rewrite.edit
  split <;> simp

theorem edit_cons {r : Rewrite} (adds : r.Adds) {i : Instruction} {is : List Instruction} (fresh : i ∉ is) (n : Node) :
    (if n.source? = some i then r.nodes i n else [n]).flatMap (r.edit is) = r.edit (i :: is) n := by
  by_cases here : n.source? = some i
  · have kept : ∀ m ∈ r.nodes i n, r.edit is m = [m] := by
      intro m member
      unfold Rewrite.edit
      rcases adds.only i n m member with rfl | none
      · rw [here]; exact if_neg fresh
      · rw [none]
    rw [if_pos here,flatMap_only _ _ kept,Rewrite.edit,here]
    exact (if_pos List.mem_cons_self).symm
  · rw [if_neg here,List.flatMap_cons,List.flatMap_nil,List.append_nil,Rewrite.edit,Rewrite.edit]
    cases source : n.source? with
    | none => rfl
    | some j =>
      have other : j ≠ i := fun same => here (by rw [source,same])
      simp [other]

theorem instrumentEach_edit {r : Rewrite} (adds : r.Adds) {instrument : Body → Instruction → Body × Bool} (of : r.Of instrument)
    {is : List Instruction} (nodup : is.Nodup) (body : Body) :
    instrumentEach instrument body is = (body.map fun block => block.flatMap (r.edit is),is.any r.changes) := by
  have run : ∀ (is : List Instruction) (body : Body) (res : Bool), is.Nodup →
      is.foldl (fun r i => ((instrument r.1 i).1,r.2 || (instrument r.1 i).2)) (body,res) =
        (body.map fun block => block.flatMap (r.edit is),res || is.any r.changes) := by
    intro is
    induction is with
    | nil =>
      intro body res _
      have same : body.map (fun block => block.flatMap (r.edit [])) = body := by
        conv_rhs => rw [← List.map_id body]
        refine List.map_congr_left fun block _ => flatMap_only _ _ fun n _ => edit_nil r n
      simp [same]
    | cons i is ih =>
      intro body res distinct
      obtain ⟨fresh,distinct⟩ := List.nodup_cons.mp distinct
      rw [List.foldl_cons,of]
      dsimp only
      rw [ih _ _ distinct,List.any_cons,Bool.or_assoc]
      congr 1
      rw [replaceAt,List.map_map]
      refine List.map_congr_left fun block _ => ?_
      rw [Function.comp_apply,List.flatMap_assoc]
      exact congrArg block.flatMap (funext (edit_cons adds fresh))
  have whole : instrumentEach instrument body is = _ := run is body false nodup
  rwa [Bool.false_or] at whole

theorem replaceAt_same (body : Body) (i : Instruction) : replaceAt body i (fun n => [n]) = body := by
  unfold replaceAt
  conv_rhs => rw [← List.map_id body]
  exact List.map_congr_left fun block _ => flatMap_only _ _ fun n _ => by split <;> rfl

def loadOrStoreRewrite : Rewrite where
  nodes i n := match loadOrStoreCallback i.kind with
    | none => [n]
    | some callee => [.inserted callee i.kind.operands false,n]
  changes i := (loadOrStoreCallback i.kind).isSome

def atomicRewrite : Rewrite where
  nodes i n := match atomicCallback i.kind with
    | none => [n]
    | some (callee,replaces) => .inserted callee i.kind.operands false :: if replaces then [] else [n]
  changes i := (atomicCallback i.kind).isSome

def memIntrinsicRewrite : Rewrite where
  nodes i n := match memIntrinsic i.kind with
    | none => [n]
    | some callee => [.inserted callee (i.kind.operands.take 3) false]
  changes _ := false

theorem loadOrStore_adds : loadOrStoreRewrite.Adds := by
  refine ⟨fun i n m member => ?_⟩
  unfold loadOrStoreRewrite at member
  dsimp only at member
  split at member <;> simp at member
  · exact .inl member
  · rcases member with rfl | rfl
    · exact .inr rfl
    · exact .inl rfl

theorem atomic_adds : atomicRewrite.Adds := by
  refine ⟨fun i n m member => ?_⟩
  unfold atomicRewrite at member
  dsimp only at member
  split at member
  · exact .inl (by simpa using member)
  · rcases List.mem_cons.mp member with rfl | kept
    · exact .inr rfl
    · split at kept
      · cases kept
      · exact .inl (by simpa using kept)

theorem memIntrinsic_adds : memIntrinsicRewrite.Adds := by
  refine ⟨fun i n m member => ?_⟩
  unfold memIntrinsicRewrite at member
  dsimp only at member
  split at member <;> simp at member
  · exact .inl member
  · exact .inr (by rw [member]; rfl)

theorem loadOrStore_of : loadOrStoreRewrite.Of instrumentLoadOrStore := by
  intro body i
  unfold instrumentLoadOrStore loadOrStoreRewrite
  dsimp only
  cases loadOrStoreCallback i.kind with
  | none => simp only [replaceAt_same]; rfl
  | some callee => rfl

theorem atomic_of : atomicRewrite.Of instrumentAtomic := by
  intro body i
  unfold instrumentAtomic atomicRewrite
  dsimp only
  cases atomicCallback i.kind with
  | none => simp only [replaceAt_same]; rfl
  | some found => rfl

theorem memIntrinsic_of : memIntrinsicRewrite.Of instrumentMemIntrinsic := by
  intro body i
  unfold instrumentMemIntrinsic memIntrinsicRewrite
  dsimp only
  cases memIntrinsic i.kind with
  | none => simp only [replaceAt_same]
  | some callee => rfl

end Rewriting
section Expansion
variable (opts : Options) (sanitize : Bool)

-- What becomes of one instruction, in view of what follows it in its block.
def expandOne (i : Instruction) (rest : List Instruction) : List Node :=
  if i.isAtomic then
    if opts.instrumentAtomics then atomicRewrite.nodes i (.source i false) else [.source i false]
  else if i.isMemIntrinsic then
    if opts.instrumentMemIntrinsics && sanitize then memIntrinsicRewrite.nodes i (.source i false) else [.source i false]
  else if chosen i rest then
    if opts.instrumentMemoryAccesses && sanitize then loadOrStoreRewrite.nodes i (.source i false) else [.source i false]
  else laidOut i

def expansion : List Instruction → List Node
  | [] => []
  | i :: rest => expandOne opts sanitize i rest ++ expansion rest

variable {opts sanitize}

def Mine (i : Instruction) (nodes : List Node) : Prop := ∀ m ∈ nodes, m = .source i false ∨ m.source? = none

theorem mine_laidOut (i : Instruction) : Mine i (laidOut i) := by
  intro m member
  unfold laidOut at member
  split at member
  · split at member <;> simp at member <;> rcases member with rfl | rfl
    · exact .inr rfl
    · exact .inl rfl
    · exact .inl rfl
    · exact .inr rfl
  · exact .inl (by simpa using member)

theorem mine_nodes {r : Rewrite} (adds : r.Adds) (i : Instruction) : Mine i (r.nodes i (.source i false)) :=
  fun m member => adds.only i _ m member

theorem mine_out {r : Rewrite} {i : Instruction} {is : List Instruction} {nodes : List Node} (mine : Mine i nodes) (out : i ∉ is) :
    nodes.flatMap (r.edit is) = nodes := by
  refine flatMap_only _ _ fun m member => ?_
  unfold Rewrite.edit
  rcases mine m member with rfl | none
  · exact if_neg out
  · rw [none]

theorem edit_in {r : Rewrite} {i : Instruction} {is : List Instruction} (inside : i ∈ is) :
    [Node.source i false].flatMap (r.edit is) = r.nodes i (.source i false) := by
  rw [List.flatMap_cons,List.flatMap_nil,List.append_nil]
  exact if_pos inside

theorem laidOut_alone {i : Instruction} (silent : Node.request (.source i false) = none) : laidOut i = [.source i false] := by
  unfold laidOut
  rw [silent]

theorem atomic_alone {i : Instruction} (atomic : i.isAtomic = true) : i.place = none ∧ i.isMemIntrinsic = false ∧
    Node.request (.source i false) = none := by
  obtain ⟨address,kind⟩ := i
  cases kind with
  | load p flag => cases flag <;> first | exact ⟨rfl,rfl,rfl⟩ | cases atomic
  | store p flag => cases flag <;> first | exact ⟨rfl,rfl,rfl⟩ | cases atomic
  | atomicRMW p op => exact ⟨rfl,rfl,rfl⟩
  | atomicCmpXchg p => exact ⟨rfl,rfl,rfl⟩
  | fence single => exact ⟨rfl,rfl,rfl⟩
  | _ => cases atomic

theorem place_alone {i : Instruction} {p : Place} (access : i.place = some p) : i.isAtomic = false ∧ i.isMemIntrinsic = false ∧
    Node.request (.source i false) = none := by
  obtain ⟨address,kind⟩ := i
  cases kind with
  | load q flag => cases flag <;> first | exact ⟨rfl,rfl,rfl⟩ | cases access
  | store q flag => cases flag <;> first | exact ⟨rfl,rfl,rfl⟩ | cases access
  | _ => cases access

theorem intrinsic_alone {i : Instruction} (intrinsic : i.isMemIntrinsic = true) : i.isAtomic = false ∧ i.place = none ∧
    Node.request (.source i false) = none := by
  obtain ⟨callee,found⟩ := Option.isSome_iff_exists.mp intrinsic
  have silent : Node.request (.source i false) = none := memIntrinsic_request found
  obtain ⟨name,args,kind,_⟩ := memIntrinsic_name found
  obtain ⟨address,_⟩ := i
  cases kind
  exact ⟨rfl,rfl,silent⟩

theorem unchosen {i : Instruction} (none : i.place = none) (rest : List Instruction) : chosen i rest = false := by
  cases kept : chosen i rest with
  | false => rfl
  | true =>
    obtain ⟨p,access⟩ := chosen_place kept
    rw [none] at access; cases access

-- The three loops of the pass, where they have an instruction in their lists exactly
-- when they are on and it is theirs.
theorem edits_expandOne {i : Instruction} {rest loads atomics mems : List Instruction}
    (loads_iff : i ∈ loads ↔ (opts.instrumentMemoryAccesses && sanitize) = true ∧ chosen i rest = true)
    (atomics_iff : i ∈ atomics ↔ opts.instrumentAtomics = true ∧ i.isAtomic = true)
    (mems_iff : i ∈ mems ↔ (opts.instrumentMemIntrinsics && sanitize) = true ∧ i.isMemIntrinsic = true) :
    (((laidOut i).flatMap (loadOrStoreRewrite.edit loads)).flatMap (atomicRewrite.edit atomics)).flatMap (memIntrinsicRewrite.edit mems) =
      expandOne opts sanitize i rest := by
  unfold expandOne
  have single : Mine i [.source i false] := by simp [Mine]
  cases atomic : i.isAtomic with
  | true =>
    obtain ⟨none,plain,silent⟩ := atomic_alone atomic
    have load : i ∉ loads := by simp [loads_iff,unchosen none]
    have mem : i ∉ mems := by simp [mems_iff,plain]
    rw [laidOut_alone silent,mine_out single load,if_pos rfl]
    cases on : opts.instrumentAtomics with
    | true => rw [edit_in (atomics_iff.mpr ⟨on,atomic⟩),mine_out (mine_nodes atomic_adds i) mem]; rfl
    | false => rw [mine_out single (by simp [atomics_iff,on]),mine_out single mem]; rfl
  | false =>
    have atom : i ∉ atomics := by simp [atomics_iff,atomic]
    rw [if_neg Bool.false_ne_true]
    cases intrinsic : i.isMemIntrinsic with
    | true =>
      obtain ⟨_,none,silent⟩ := intrinsic_alone intrinsic
      have load : i ∉ loads := by simp [loads_iff,unchosen none]
      rw [laidOut_alone silent,mine_out single load,mine_out single atom,if_pos rfl]
      cases on : opts.instrumentMemIntrinsics && sanitize with
      | true => rw [edit_in (mems_iff.mpr ⟨on,intrinsic⟩)]; rfl
      | false => rw [mine_out single (by simp [mems_iff,on])]; rfl
    | false =>
      have mem : i ∉ mems := by simp [mems_iff,intrinsic]
      rw [if_neg Bool.false_ne_true]
      cases kept : chosen i rest with
      | true =>
        obtain ⟨p,access⟩ := chosen_place kept
        rw [laidOut_alone (place_alone access).2.2,if_pos rfl]
        cases on : opts.instrumentMemoryAccesses && sanitize with
        | true =>
          rw [edit_in (loads_iff.mpr ⟨on,kept⟩),mine_out (mine_nodes loadOrStore_adds i) atom,mine_out (mine_nodes loadOrStore_adds i) mem]
          rfl
        | false => rw [mine_out single (by simp [loads_iff,on]),mine_out single atom,mine_out single mem]; rfl
      | false =>
        have load : i ∉ loads := by simp [loads_iff,kept]
        rw [mine_out (mine_laidOut i) load,mine_out (mine_laidOut i) atom,mine_out (mine_laidOut i) mem]
        rfl

theorem flatMap_expansion {loads atomics mems : List Instruction} (block : List Instruction)
    (loads_iff : ∀ pre i rest, block = pre ++ i :: rest →
      (i ∈ loads ↔ (opts.instrumentMemoryAccesses && sanitize) = true ∧ chosen i rest = true))
    (atomics_iff : ∀ i ∈ block, i ∈ atomics ↔ opts.instrumentAtomics = true ∧ i.isAtomic = true)
    (mems_iff : ∀ i ∈ block, i ∈ mems ↔ (opts.instrumentMemIntrinsics && sanitize) = true ∧ i.isMemIntrinsic = true) :
    (((block.flatMap laidOut).flatMap (loadOrStoreRewrite.edit loads)).flatMap (atomicRewrite.edit atomics)).flatMap
      (memIntrinsicRewrite.edit mems) = expansion opts sanitize block := by
  induction block with
  | nil => rfl
  | cons i rest ih =>
    have later := ih (fun pre j after split => loads_iff (i :: pre) j after (by rw [split]; rfl))
      (fun j member => atomics_iff j (List.mem_cons_of_mem _ member)) (fun j member => mems_iff j (List.mem_cons_of_mem _ member))
    simp only [List.flatMap_cons,List.flatMap_append] at later ⊢
    rw [edits_expandOne (loads_iff [] i rest rfl) (atomics_iff i List.mem_cons_self) (mems_iff i List.mem_cons_self),later,expansion]

theorem choice_sublist (is : List Instruction) : (choice is).Sublist is := by
  induction is with
  | nil => exact .slnil
  | cons i rest ih =>
    rw [choice]
    split
    · exact ih.cons_cons i
    · exact ih.cons i

theorem choices_sublist (blocks : List (List Instruction)) : (blocks.flatMap choice).Sublist blocks.flatten := by
  induction blocks with
  | nil => exact .slnil
  | cons block rest ih =>
    rw [List.flatMap_cons,List.flatten_cons]
    exact (choice_sublist block).append ih

theorem mem_choice_at {pre rest : List Instruction} {i : Instruction} (nodup : (pre ++ i :: rest).Nodup) :
    i ∈ choice (pre ++ i :: rest) ↔ chosen i rest = true := by
  induction pre with
  | nil =>
    have fresh : i ∉ choice rest := fun member => (List.nodup_cons.mp nodup).1 (mem_choice member).1
    rw [List.nil_append,choice]
    split <;> simp_all
  | cons j pre ih =>
    obtain ⟨fresh,nodup⟩ := List.nodup_cons.mp nodup
    have other : i ≠ j := by
      rintro rfl
      exact fresh (by simp)
    rw [List.cons_append,choice]
    split
    · rw [List.mem_cons,ih nodup]; simp [other]
    · exact ih nodup

theorem mem_choices {blocks : List (List Instruction)} (nodup : blocks.flatten.Nodup) {pre rest : List Instruction} {i : Instruction}
    (member : pre ++ i :: rest ∈ blocks) : i ∈ blocks.flatMap choice ↔ chosen i rest = true := by
  obtain ⟨each,disjoint⟩ := List.nodup_flatten.mp nodup
  rw [← mem_choice_at (each _ member)]
  constructor
  · intro inside
    obtain ⟨block,found,kept⟩ := List.mem_flatMap.mp inside
    by_cases same : block = pre ++ i :: rest
    · rwa [← same]
    · have : Std.Symm (List.Disjoint (α := Instruction)) := ⟨fun _ _ apart _ left right => apart right left⟩
      have apart := disjoint.forall found member same
      exact absurd (show i ∈ pre ++ i :: rest by simp) (apart (mem_choice kept).1)
  · exact fun kept => List.mem_flatMap.mpr ⟨_,member,kept⟩

end Expansion

section Pass
variable {opts : Options} {escape : Escape} {F : Function}

def Function.sanitized (F : Function) : Bool := F.checking = .sanitizeThread

def Function.changed (opts : Options) (F : Function) : Bool :=
  ((opts.instrumentMemoryAccesses && F.sanitized) && (F.blocks.flatMap choice).any fun i => (loadOrStoreCallback i.kind).isSome) ||
    (opts.instrumentAtomics && (F.blocks.flatten.filter Instruction.isAtomic).any fun i => (atomicCallback i.kind).isSome)

def Function.expanded (opts : Options) (F : Function) : Body := F.blocks.map (expansion opts F.sanitized)

def Function.finished (opts : Options) (escape : Escape) (F : Function) : Body × Bool :=
  let hasCalls := F.blocks.flatten.any Instruction.breaks
  let body := if F.checking = .noCheckingAtRunTime ∧ hasCalls then insertRuntimeIgnores opts escape F (F.expanded opts) else F.expanded opts
  if (F.changed opts || hasCalls) && opts.instrumentFuncEntryExit then (instrumentFuncEntryExit opts escape F body,true)
  else (body,F.changed opts)

theorem instrumentEach_if {r : Rewrite} (adds : r.Adds) {instrument : Body → Instruction → Body × Bool} (of : r.Of instrument)
    {is : List Instruction} (nodup : is.Nodup) (body : Body) (p : Prop) [Decidable p] :
    (if p then instrumentEach instrument body is else (body,false)) =
      (body.map fun block => block.flatMap (r.edit (if p then is else [])),decide p && is.any r.changes) := by
  by_cases on : p
  · rw [if_pos on,if_pos on,instrumentEach_edit adds of nodup,decide_eq_true on,Bool.true_and]
  · have none := instrumentEach_edit adds of List.nodup_nil body
    rw [if_neg on,if_neg on,decide_eq_false on,Bool.false_and]
    exact none

theorem visited_expands (nodup : F.blocks.flatten.Nodup) :
    instrumentAccesses opts F (visitedAll ⟨[],[],[],[],false⟩ F.blocks) (F.blocks.map fun block => block.flatMap laidOut) =
      (F.expanded opts,F.changed opts) := by
  obtain ⟨accesses,atomics,intrinsics,_⟩ := gathered_all F.blocks (c := ⟨[],[],[],[],false⟩) rfl
  generalize visitedAll ⟨[],[],[],[],false⟩ F.blocks = c at accesses atomics intrinsics
  simp only [List.nil_append] at accesses atomics intrinsics
  have loadsNodup : c.allLoadsAndStores.Nodup := accesses.nodup_iff.mpr ((choices_sublist F.blocks).nodup nodup)
  have atomicsNodup : c.atomicAccesses.Nodup := by rw [atomics]; exact nodup.filter _
  have memsNodup : c.memIntrinCalls.Nodup := by rw [intrinsics]; exact nodup.filter _
  unfold instrumentAccesses
  simp only [instrumentEach_if loadOrStore_adds loadOrStore_of loadsNodup,instrumentEach_if atomic_adds atomic_of atomicsNodup,
    instrumentEach_if memIntrinsic_adds memIntrinsic_of memsNodup,List.map_map]
  refine Prod.ext ?_ ?_
  · unfold Function.expanded
    refine List.map_congr_left fun block member => ?_
    simp only [Function.comp_apply]
    have inside : ∀ i ∈ block, i ∈ F.blocks.flatten := fun i here => List.mem_flatten.mpr ⟨block,member,here⟩
    refine flatMap_expansion block ?_ ?_ ?_
    · rintro pre i rest rfl
      rw [← mem_choices nodup member,← accesses.mem_iff]
      cases opts.instrumentMemoryAccesses <;> by_cases on : F.checking = .sanitizeThread <;> simp [Function.sanitized,on]
    · intro i here
      have listed : i ∈ c.atomicAccesses ↔ i.isAtomic = true := by
        rw [atomics,List.mem_filter]
        exact and_iff_right (inside i here)
      cases opts.instrumentAtomics <;> simp [listed]
    · intro i here
      have listed : i ∈ c.memIntrinCalls ↔ i.isMemIntrinsic = true := by
        rw [intrinsics,List.mem_filter]
        exact and_iff_right (inside i here)
      cases opts.instrumentMemIntrinsics <;> by_cases on : F.checking = .sanitizeThread <;> simp [Function.sanitized,on,listed]
  · have same : c.allLoadsAndStores.any loadOrStoreRewrite.changes =
        (F.blocks.flatMap choice).any fun i => (loadOrStoreCallback i.kind).isSome := accesses.any_eq
    have none : c.memIntrinCalls.any memIntrinsicRewrite.changes = false := by simp [memIntrinsicRewrite]
    unfold Function.changed
    rw [same,none,atomics]
    simp [Function.sanitized,atomicRewrite,Bool.decide_and]

theorem finished_supplied (opts : Options) (escape : Escape) (ordinary : F.isTsanCtor = false) (nodup : F.blocks.flatten.Nodup)
    (supplied : Supplied F.blocks.flatten) : runOnFunction opts escape F = some (F.finished opts escape) := by
  have collected : visitBlocks ⟨[],[],[],[],false⟩ (F.blocks.map fun block => block.map fun i => Node.source i false) = _ :=
    visitBlocks_exact F.blocks ⟨[],[],[],[],false⟩ supplied
  obtain ⟨_,_,_,calls⟩ := gathered_all F.blocks (c := ⟨[],[],[],[],false⟩) rfl
  rw [Bool.false_or] at calls
  unfold runOnFunction Function.finished
  simp only [ordinary,Bool.false_eq_true,if_false,collected,Option.bind_eq_bind,Option.bind_some,visited_expands nodup,calls]
  split <;> rfl

theorem missing_stuck (opts : Options) (escape : Escape) (ordinary : F.isTsanCtor = false) (missing : ¬ Supplied F.blocks.flatten) :
    runOnFunction opts escape F = none := by
  rcases visitBlocks_laid F.blocks ⟨[],[],[],[],false⟩ with ⟨_,_,_,_,_,supplied⟩ | ⟨stuck,_⟩
  · exact absurd supplied missing
  · have none : visitBlocks ⟨[],[],[],[],false⟩ (F.blocks.map fun block => block.map fun i => Node.source i false) = none := stuck
    unfold runOnFunction
    simp only [ordinary,Bool.false_eq_true,if_false,none,Option.bind_eq_bind,Option.bind_none]

-- Collecting first and instrumenting then comes to expanding every instruction where
-- it stands.
theorem runOnFunction_expands (opts : Options) (escape : Escape) {F : Function} (ordinary : F.isTsanCtor = false)
    (nodup : F.blocks.flatten.Nodup) : (Supplied F.blocks.flatten → runOnFunction opts escape F = some (F.finished opts escape)) ∧
      (¬ Supplied F.blocks.flatten → runOnFunction opts escape F = none) :=
  ⟨finished_supplied opts escape ordinary nodup,missing_stuck opts escape ordinary⟩

instance (is : List Instruction) : Decidable (Supplied is) :=
  inferInstanceAs (Decidable (∀ i ∈ is, (Node.request (.source i false)).isSome → i.arg0.isSome))

def lockedCounter : Function := ⟨"count",false,.sanitizeThread,
  [[⟨1,.call (some "pthread_mutex_lock") [5]⟩,⟨2,.load ⟨6,32,4,false,false,true,false,false⟩ false⟩,
    ⟨3,.store ⟨6,32,4,false,false,true,false,false⟩ false⟩,⟨4,.call (some "pthread_mutex_unlock") [5]⟩,⟨5,.ret⟩]]⟩

theorem runOnFunction_expands_counter : runOnFunction ⟨true,true,true,true,true⟩ unthrowing lockedCounter =
    some (lockedCounter.finished ⟨true,true,true,true,true⟩ unthrowing) :=
  (runOnFunction_expands ⟨true,true,true,true,true⟩ unthrowing rfl (by decide)).1 (by decide)

end Pass
end ThreadSanitizer
