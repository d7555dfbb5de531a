import EmbedSanitizer.CallStacks
import EmbedSanitizer.FrameCalls

namespace ThreadSanitizer
open EmbedSanitizer NestedCalls

section Sights

-- What a thread shows of the functions that it is in: it enters or leaves one, or
-- makes another callback while some are active.
inductive Sight where
  | crossing (c : Crossing Address)
  | callback (active : List Address)

def Sight.crossing? : Sight → Option (Crossing Address)
  | .crossing c => some c
  | .callback _ => none

def Node.sights (name : Address) (active : List Address) : Node → List Sight
  | .inserted .funcEntry _ _ => [.crossing (.enter name)]
  | .inserted .funcExit _ _ => [.crossing (.leave name)]
  | .inserted callee _ _ => if callee.frames then [] else [.callback active]
  | _ => []

-- A call that throws goes on in the cleanup if it unwinds there; an invoke has a block
-- of its own for that.
def cleanupOf (body : Body) (F : Function) (block : ℕ) : Ending → List Node
  | .unwinds i => if i.isCall ∧ Node.source i true ∈ body.getD block [] then body.getD F.blocks.length [] else []
  | _ => []

variable (opts : Options) (escape : Escape) (pointer : Function → Address)

mutual

def Visit.sights (active : List Address) : Visit → List Sight
  | .through F block _ within ending =>
    (upTo (Node.ends ending.last) ((instrumented opts escape F).getD block []) ++
        cleanupOf (instrumented opts escape F) F block ending).flatMap fun n =>
      n.sights (pointer F) (active ++ [pointer F]) ++ match n.source? with
        | some i => if i.enters then sightsOf (active ++ [pointer F]) (within i) else []
        | none => []

def sightsOf (active : List Address) : List Visit → List Sight
  | [] => []
  | v :: rest => v.sights active ++ sightsOf active rest

end

end Sights

section Paths

def Instruction.leaves (i : Instruction) : Bool := (Node.source i false).escapes

def Function.leavesAt (F : Function) (k : ℕ) : Bool := (F.blocks.getD k []).getLast?.any Instruction.leaves

mutual

-- What a thread runs within a call: activations of functions, one after another, the
-- last of which need not be over.
inductive Runs (throws : Function → Instruction → Bool) : Bool → List Visit → Prop where
  | nothing : Runs throws true []
  | last {F gone path} (way : Path throws F 0 gone path) : Runs throws gone path
  | next {F gone path rest} (first : Path throws F 0 true path) (later : Runs throws gone rest) : Runs throws gone (path ++ rest)

-- The way of an activation from a block on: a function is left by a return, by a
-- resume or by a call that throws; nothing leads to its first block.
inductive Path (throws : Function → Instruction → Bool) : Function → ℕ → Bool → List Visit → Prop where
  | leaves {F k env within} (bound : k < F.blocks.length) (leaving : F.leavesAt k = true) (inner : ∀ i, Runs throws true (within i)) :
      Path throws F k true [.through F k env within .whole]
  | thrown {F k env within i} (bound : k < F.blocks.length) (member : i ∈ F.blocks.getD k []) (enters : i.enters = true)
      (call : i.isCall = true) (throwing : throws F i = true) (inner : ∀ j, Runs throws true (within j)) :
      Path throws F k true [.through F k env within (.unwinds i)]
  | inside {F k env within i gone} (bound : k < F.blocks.length) (member : i ∈ F.blocks.getD k []) (enters : i.enters = true)
      (inner : ∀ j, j ≠ i → Runs throws true (within j)) (current : Runs throws gone (within i)) :
      Path throws F k false [.through F k env within (.stays i)]
  | goes {F k m env within gone rest} (bound : k < F.blocks.length) (leaving : F.leavesAt k = false)
      (inner : ∀ i, Runs throws true (within i)) (later : Path throws F m gone rest) (inward : m ≠ 0) :
      Path throws F k gone (.through F k env within .whole :: rest)
  | caught {F k m env within i gone rest} (bound : k < F.blocks.length) (member : i ∈ F.blocks.getD k []) (enters : i.enters = true)
      (invoke : i.isCall = false) (inner : ∀ j, Runs throws true (within j)) (later : Path throws F m gone rest) (inward : m ≠ 0) :
      Path throws F k gone (.through F k env within (.unwinds i) :: rest)

end

end Paths

section Following

def follows : List Address → List Sight → Option (List Address)
  | stack,[] => some stack
  | stack,.crossing c :: rest => follows (cross stack c) rest
  | stack,.callback active :: rest => if active = stack then follows stack rest else none

theorem follows_append (stack : List Address) (first later : List Sight) :
    follows stack (first ++ later) = (follows stack first).bind fun next => follows next later := by
  induction first generalizing stack with
  | nil => rfl
  | cons sight rest ih =>
    cases sight with
    | crossing c => exact ih (cross stack c)
    | callback active =>
      rw [List.cons_append,follows,follows]
      split
      · exact ih stack
      · rfl

theorem follows_cross {stack next : List Address} {sights : List Sight} (led : follows stack sights = some next) :
    crossAll stack (sights.filterMap Sight.crossing?) = next := by
  induction sights generalizing stack with
  | nil => exact Option.some.inj led
  | cons sight rest ih =>
    cases sight with
    | crossing c =>
      have later : follows (cross stack c) rest = some next := led
      exact ih later
    | callback active =>
      rw [follows] at led
      split at led
      · exact ih led
      · cases led

-- Wherever a callback is seen, the active functions are those on the stack.
theorem follows_callback {stack active : List Address} {sights before after : List Sight} (led : (follows stack sights).isSome)
    (split : sights = before ++ .callback active :: after) : crossAll stack (before.filterMap Sight.crossing?) = active := by
  rw [split,follows_append] at led
  cases reached : follows stack before with
  | none => rw [reached] at led; cases led
  | some next =>
    rw [follows_cross reached]
    rw [reached,Option.bind_some,follows] at led
    split at led
    · exact (‹active = next›).symm
    · cases led

variable {g : Node → List Sight} {stack : List Address}

theorem follows_nodes {nodes : List Node} (each : ∀ n ∈ nodes, follows stack (g n) = some stack) :
    follows stack (nodes.flatMap g) = some stack := by
  induction nodes with
  | nil => rfl
  | cons n rest ih =>
    rw [List.flatMap_cons,follows_append,each n List.mem_cons_self,Option.bind_some,ih fun m member => each m (List.mem_cons_of_mem _ member)]

end Following

section Blocks
variable {opts : Options} {name : Address} {inside : List Address} {sub : Instruction → List Sight}

def seenAt (name : Address) (inside : List Address) (sub : Instruction → List Sight) (n : Node) : List Sight :=
  n.sights name inside ++ match n.source? with
    | some i => if i.enters then sub i else []
    | none => []

theorem enters_breaks {i : Instruction} (enters : i.enters = true) : i.breaks = true := (enters_cases enters).1

theorem seen_source (i : Instruction) (flag : Bool) : seenAt name inside sub (.source i flag) = if i.enters then sub i else [] := rfl

theorem seen_regular : Regular (seenAt name inside sub) where
  same same := by
    cases same with
    | inserted callee args u u' => cases callee <;> rfl
    | _ => rfl
  phi {n} phi := by
    cases n with
    | source i flag =>
      obtain ⟨address,kind⟩ := i
      cases kind <;> first | rfl | cases phi
    | _ => cases phi
  escape {n} escapes := by
    cases n with
    | source i flag =>
      obtain ⟨address,kind⟩ := i
      cases kind <;> first | rfl | cases escapes
    | inserted callee args flag => cases escapes
    | _ => rfl
  landing := rfl

theorem seen_inserted {callee : Callback} (plain : callee.frames = false) (args : List Value) (flag : Bool) :
    seenAt name inside sub (.inserted callee args flag) = [.callback inside] := by
  cases callee <;> first | rfl | cases plain

theorem settled_seen {n : Node} (settled : n.core = some n) (inner : ∀ i ∈ n.source?, follows inside (sub i) = some inside) :
    follows inside (seenAt name inside sub n) = some inside := by
  cases n with
  | source i flag =>
    rw [seen_source]
    split
    · exact inner i rfl
    · rfl
  | inserted callee args flag =>
    rw [seen_inserted (core_plain settled).1]
    exact if_pos rfl
  | _ => cases settled

theorem settled_follows {nodes : List Node} (settled : Settled nodes)
    (inner : ∀ i, follows inside (sub i) = some inside) : follows inside (nodes.flatMap (seenAt name inside sub)) = some inside :=
  follows_nodes fun n member => settled_seen (settled n member) fun i _ => inner i

theorem cut_follows {nodes : List Node} (settled : Settled nodes) {i : Instruction} (enters : i.enters = true)
    (member : ∃ flag, Node.source i flag ∈ nodes) (inner : ∀ j, j ≠ i → follows inside (sub j) = some inside) :
    follows inside (walk (seenAt name inside sub) (some i) nodes) = follows inside (sub i) := by
  induction nodes with
  | nil => obtain ⟨_,member⟩ := member; cases member
  | cons n rest ih =>
    rw [walk,upTo]
    by_cases ends : n.ends (some i) = true
    · obtain ⟨flag,rfl⟩ : ∃ flag, n = .source i flag := by
        cases n with
        | source j flag => exact ⟨flag,by rw [Option.some.inj (ends_iff.mp ends)]⟩
        | _ => cases ends
      rw [if_pos ends,List.flatMap_cons,List.flatMap_nil,List.append_nil,seen_source,if_pos enters]
    · have later : ∃ flag, Node.source i flag ∈ rest := by
        obtain ⟨flag,member⟩ := member
        rcases List.mem_cons.mp member with rfl | later
        · exact absurd source_ends ends
        · exact ⟨flag,later⟩
      have here : follows inside (seenAt name inside sub n) = some inside := by
        refine settled_seen (settled n List.mem_cons_self) fun j source => inner j fun same => ends ?_
        subst same
        simp [Node.ends,show n.source? = some j from source,Instruction.ends]
      rw [if_neg ends,List.flatMap_cons,follows_append,here,Option.bind_some]
      exact ih (fun m member => settled m (List.mem_cons_of_mem _ member)) later

theorem expandOne_ne (sanitize : Bool) (i : Instruction) (rest : List Instruction) : expandOne opts sanitize i rest ≠ [] := by
  unfold expandOne atomicRewrite memIntrinsicRewrite loadOrStoreRewrite laidOut
  dsimp only
  repeat' split
  all_goals simp

theorem expandOne_closes (sanitize : Bool) (i : Instruction) (rest : List Instruction) :
    closes (expandOne opts sanitize i rest) = i.leaves := by
  cases leaves : i.leaves with
  | true =>
    have alone : expandOne opts sanitize i rest = [.source i false] := by
      obtain ⟨address,kind⟩ := i
      cases kind <;> first | rfl | cases leaves
    rw [alone]
    exact leaves
  | false =>
    unfold closes
    cases last : (expandOne opts sanitize i rest).getLast? with
    | none => rfl
    | some n =>
      have member := List.mem_of_getLast? last
      have core := settled_expandOne sanitize i rest n member
      cases n with
      | source j flag =>
        have same : j = i := by
          have listed : ∀ m ∈ expandOne opts sanitize i rest, ∀ j flag, m = .source j flag → j = i := by
            intro m member j flag same
            rcases expandOne_mine sanitize i rest m member with own | none
            · rw [own] at same; cases same; rfl
            · rw [same] at none; cases none
          exact listed _ member j flag rfl
        subst same
        cases core
        exact leaves
      | inserted callee args flag => rfl
      | _ => cases core

theorem expansion_closes (sanitize : Bool) (block : List Instruction) :
    closes (expansion opts sanitize block) = block.getLast?.any Instruction.leaves := by
  have later : ∀ xs ys : List Node, ys ≠ [] → closes (xs ++ ys) = closes ys := by
    intro xs ys some
    rw [closes,closes,List.getLast?_append_of_ne_nil _ some]
  induction block with
  | nil => rfl
  | cons i rest ih =>
    rw [expansion]
    cases rest with
    | nil => rw [expansion,List.append_nil,expandOne_closes]; rfl
    | cons j rest =>
      have some : expansion opts sanitize (j :: rest) ≠ [] := by
        rw [expansion]
        exact List.append_ne_nil_of_left_ne_nil (expandOne_ne sanitize j rest) _
      rw [later _ _ some,ih,List.getLast?_cons_cons]

theorem enters_source (sanitize : Bool) {i : Instruction} (enters : i.enters = true) {block : List Instruction} (member : i ∈ block) :
    Node.source i false ∈ expansion opts sanitize block := by
  induction block with
  | nil => cases member
  | cons j rest ih =>
    rw [expansion,List.mem_append]
    rcases List.mem_cons.mp member with rfl | later
    · left
      obtain ⟨_,atomic,intrinsic,none,_⟩ := enters_cases enters
      simp only [expandOne,atomic,intrinsic,unchosen none,Bool.false_eq_true,if_false]
      unfold laidOut
      split
      · split <;> simp
      · simp
    · exact .inr (ih later)

end Blocks

section Threads
variable {opts : Options} {escape : Escape} {throws : Function → Instruction → Bool} {pointer : Function → Address}

structure Function.Ready (F : Function) : Prop where
  ordinary : F.isTsanCtor = false
  distinct : F.blocks.flatten.Nodup
  supplied : Supplied F.blocks.flatten

def Function.framed (opts : Options) (F : Function) : Bool := F.changed opts || F.blocks.flatten.any Instruction.breaks

theorem ready_instrumented {F : Function} (ready : F.Ready) : instrumented opts escape F = (F.finished opts escape).1 := by
  rw [instrumented,finished_supplied opts escape ready.ordinary ready.distinct ready.supplied]
  rfl

def blockSights (opts : Options) (escape : Escape) (pointer : Function → Address) (F : Function) (active : List Address)
    (sub : Instruction → List Sight) (k : ℕ) (ending : Ending) : List Sight :=
  walk (seenAt (pointer F) (active ++ [pointer F]) sub) ending.last ((instrumented opts escape F).getD k []) ++
    (cleanupOf (instrumented opts escape F) F k ending).flatMap (seenAt (pointer F) (active ++ [pointer F]) sub)

theorem visit_sights {F : Function} {k : ℕ} {env : Env} {within : Instruction → List Visit} {ending : Ending} (active : List Address) :
    (Visit.through F k env within ending).sights opts escape pointer active =
      blockSights opts escape pointer F active (fun i => sightsOf opts escape pointer (active ++ [pointer F]) (within i)) k ending := by
  rw [Visit.sights,List.flatMap_append]
  rfl

def startOf (pointer : Function → Address) (F : Function) (active : List Address) (k : ℕ) : List Address :=
  if k = 0 then active else active ++ [pointer F]

section Framed
variable {F : Function} {active : List Address} {sub : Instruction → List Sight} {k : ℕ}

theorem crossed_entry (active : List Address) (f : Address) (k : ℕ) (rest : List Sight) :
    follows (if k = 0 then active else active ++ [f]) ((if k = 0 then [.crossing (.enter f)] else []) ++ rest) = follows (active ++ [f]) rest := by
  split <;> rfl

theorem ready_framing (frames : opts.instrumentFuncEntryExit = true) (handles : opts.handleCxxExceptions = true)
    (catches : escape.Catches throws) (ready : F.Ready) (framed : F.framed opts = true) :
    Framing (seenAt (pointer F) (active ++ [pointer F]) sub) throws opts F [.crossing (.enter (pointer F))] [.crossing (.leave (pointer F))]
      (instrumented opts escape F) := by
  rw [ready_instrumented ready]
  exact finished_framing seen_regular catches frames handles framed rfl rfl rfl

variable (framing : Framing (seenAt (pointer F) (active ++ [pointer F]) sub) throws opts F
    [.crossing (.enter (pointer F))] [.crossing (.leave (pointer F))] (instrumented opts escape F)) (bound : k < F.blocks.length)
include framing bound

theorem whole_follows (inner : ∀ i, follows (active ++ [pointer F]) (sub i) = some (active ++ [pointer F])) :
    follows (startOf pointer F active k) (blockSights opts escape pointer F active sub k .whole) =
      some (if F.leavesAt k then active else active ++ [pointer F]) := by
  have code : follows (active ++ [pointer F]) (walk (seenAt (pointer F) (active ++ [pointer F]) sub) none (F.expandedAt opts k)) =
      some (active ++ [pointer F]) := by
    rw [walk_none]
    exact settled_follows (settled_expansion _ _) inner
  have cleanup : cleanupOf (instrumented opts escape F) F k .whole = [] := rfl
  rw [blockSights,cleanup,List.flatMap_nil,List.append_nil,startOf,Ending.last,framing.placed.whole k bound,List.append_assoc,
    crossed_entry,follows_append,code,Option.bind_some,Function.expandedAt,expansion_closes]
  unfold Function.leavesAt
  split
  · exact congrArg some (cross_matched active (pointer F))
  · rfl

theorem cut_block {i : Instruction} (member : i ∈ F.blocks.getD k []) (enters : i.enters = true)
    (inner : ∀ j, j ≠ i → follows (active ++ [pointer F]) (sub j) = some (active ++ [pointer F])) :
    follows (startOf pointer F active k) (walk (seenAt (pointer F) (active ++ [pointer F]) sub) (some i)
      ((instrumented opts escape F).getD k [])) = follows (active ++ [pointer F]) (sub i) := by
  have there : ∃ flag, Node.source i flag ∈ F.expandedAt opts k := ⟨false,enters_source _ enters member⟩
  rw [framing.placed.cut k bound i (enters_breaks enters) there,startOf,crossed_entry]
  exact cut_follows (settled_expansion _ _) enters there inner

theorem thrown_follows {i : Instruction} (member : i ∈ F.blocks.getD k []) (enters : i.enters = true)
    (call : i.isCall = true) (throwing : throws F i = true)
    (inner : ∀ j, follows (active ++ [pointer F]) (sub j) = some (active ++ [pointer F])) :
    follows (startOf pointer F active k) (blockSights opts escape pointer F active sub k (.unwinds i)) = some active := by
  have there : ∃ flag, Node.source i flag ∈ F.expandedAt opts k := ⟨false,enters_source _ enters member⟩
  have both : (i.isCall && throws F i) = true := by rw [call,throwing]; rfl
  have landed := framing.landed ⟨k,bound,i,there,both⟩
  obtain ⟨flag,stands⟩ := framing.placed.sources k bound i there
  have flagged := landed.flagged k bound i flag stands both
  subst flagged
  have cleanup : cleanupOf (instrumented opts escape F) F k (.unwinds i) = (instrumented opts escape F).getD F.blocks.length [] :=
    if_pos ⟨call,stands⟩
  rw [blockSights,cleanup,← walk_none,landed.landing,Ending.last,follows_append,cut_block framing bound member enters fun j _ => inner j,inner i]
  exact congrArg some (cross_matched active (pointer F))

theorem caught_follows {i : Instruction} (member : i ∈ F.blocks.getD k []) (enters : i.enters = true)
    (invoke : i.isCall = false) (inner : ∀ j, follows (active ++ [pointer F]) (sub j) = some (active ++ [pointer F])) :
    follows (startOf pointer F active k) (blockSights opts escape pointer F active sub k (.unwinds i)) = some (active ++ [pointer F]) := by
  have cleanup : cleanupOf (instrumented opts escape F) F k (.unwinds i) = [] := if_neg fun ⟨call,_⟩ => by rw [invoke] at call; cases call
  rw [blockSights,cleanup,List.flatMap_nil,List.append_nil,Ending.last,cut_block framing bound member enters fun j _ => inner j,inner i]

theorem inside_follows {i : Instruction} (member : i ∈ F.blocks.getD k []) (enters : i.enters = true)
    (inner : ∀ j, j ≠ i → follows (active ++ [pointer F]) (sub j) = some (active ++ [pointer F])) :
    follows (startOf pointer F active k) (blockSights opts escape pointer F active sub k (.stays i)) = follows (active ++ [pointer F]) (sub i) := by
  have cleanup : cleanupOf (instrumented opts escape F) F k (.stays i) = [] := rfl
  rw [blockSights,cleanup,List.flatMap_nil,List.append_nil,Ending.last,cut_block framing bound member enters inner]

end Framed

theorem visitsOf_append {P : Function → Prop} {first later : List Visit} :
    VisitsOf P (first ++ later) ↔ VisitsOf P first ∧ VisitsOf P later := by
  induction first with
  | nil => exact (and_iff_right trivial).symm
  | cons v rest ih => exact (and_congr_right fun _ => ih).trans and_assoc.symm

theorem sightsOf_append (active : List Address) (first later : List Visit) :
    sightsOf opts escape pointer active (first ++ later) = sightsOf opts escape pointer active first ++ sightsOf opts escape pointer active later := by
  induction first with
  | nil => rfl
  | cons v rest ih => rw [List.cons_append,sightsOf,sightsOf,ih,List.append_assoc]

theorem unframed_silent {F : Function} (ready : F.Ready) (unframed : F.framed opts = false) (active : List Address)
    (sub : Instruction → List Sight) (k : ℕ) : blockSights opts escape pointer F active sub k .whole = [] := by
  obtain ⟨same,plain⟩ : (F.finished opts escape).1 = F.expanded opts ∧ _ := unframed_plain ready.distinct unframed
  have cleanup : cleanupOf (instrumented opts escape F) F k .whole = [] := rfl
  rw [blockSights,cleanup,ready_instrumented ready,same,expanded_at,List.flatMap_nil,List.append_nil,Ending.last,walk_none]
  refine List.flatMap_eq_nil_iff.mpr fun n member => ?_
  obtain ⟨i,rfl,goes⟩ := plain k n member
  have outside : i.enters = false := by simp [Instruction.enters,goes]
  rw [seen_source,outside,if_neg Bool.false_ne_true]

theorem unframed_calls {F : Function} (unframed : F.framed opts = false) {k : ℕ} {i : Instruction} (member : i ∈ F.blocks.getD k [])
    (enters : i.enters = true) : False := by
  have silent := (Bool.or_eq_false_iff.mp unframed).2
  rw [List.any_eq_false] at silent
  exact silent i (block_within member) (enters_breaks enters)

mutual

theorem runs_follow (frames : opts.instrumentFuncEntryExit = true) (handles : opts.handleCxxExceptions = true)
    (catches : escape.Catches throws) : {gone : Bool} → {vs : List Visit} → Runs throws gone vs → VisitsOf Function.Ready vs →
      ∀ active, (follows active (sightsOf opts escape pointer active vs)).isSome = true ∧
        (gone = true → follows active (sightsOf opts escape pointer active vs) = some active)
  | _,_,.nothing,_,active => ⟨rfl,fun _ => rfl⟩
  | _,_,@Runs.last _ F _ _ way,ready,active => by
    obtain ⟨framed,unframed⟩ := path_follow frames handles catches way ready active
    cases framing : F.framed opts with
    | true => exact framed framing
    | false =>
      obtain ⟨ended,none⟩ := unframed framing
      rw [none]
      exact ⟨rfl,fun _ => rfl⟩
  | _,_,@Runs.next _ F _ path _ first later,ready,active => by
    obtain ⟨ready,ready'⟩ := visitsOf_append.mp ready
    obtain ⟨framed,unframed⟩ := path_follow frames handles catches first ready active
    have back : follows active (sightsOf opts escape pointer active path) = some active := by
      cases framing : F.framed opts with
      | true => exact (framed framing).2 rfl
      | false => rw [(unframed framing).2]; rfl
    rw [sightsOf_append,follows_append,back,Option.bind_some]
    exact runs_follow frames handles catches later ready' active

theorem path_follow (frames : opts.instrumentFuncEntryExit = true) (handles : opts.handleCxxExceptions = true)
    (catches : escape.Catches throws) : {F : Function} → {k : ℕ} → {gone : Bool} → {vs : List Visit} → Path throws F k gone vs →
      VisitsOf Function.Ready vs → ∀ active,
        (F.framed opts = true → (follows (startOf pointer F active k) (sightsOf opts escape pointer active vs)).isSome = true ∧
          (gone = true → follows (startOf pointer F active k) (sightsOf opts escape pointer active vs) = some active)) ∧
        (F.framed opts = false → gone = true ∧ sightsOf opts escape pointer active vs = [])
  | F,k,_,_,.leaves bound leaving inner,⟨⟨ready,_,below⟩,_⟩,active => by
    have back := fun i => (runs_follow frames handles catches (inner i) (below i) (active ++ [pointer F])).2 rfl
    rw [sightsOf,sightsOf,List.append_nil,visit_sights]
    constructor
    · intro framed
      rw [whole_follows (ready_framing frames handles catches ready framed) bound back,leaving]
      exact ⟨rfl,fun _ => rfl⟩
    · exact fun unframed => ⟨rfl,unframed_silent ready unframed active _ k⟩
  | F,k,_,_,.thrown bound member enters call throwing inner,⟨⟨ready,_,below⟩,_⟩,active => by
    have back := fun i => (runs_follow frames handles catches (inner i) (below i) (active ++ [pointer F])).2 rfl
    rw [sightsOf,sightsOf,List.append_nil,visit_sights]
    constructor
    · intro framed
      rw [thrown_follows (ready_framing frames handles catches ready framed) bound member enters call throwing back]
      exact ⟨rfl,fun _ => rfl⟩
    · exact fun unframed => (unframed_calls unframed member enters).elim
  | F,k,_,_,.inside bound member enters inner current,⟨⟨ready,_,below⟩,_⟩,active => by
    have back := fun j other => (runs_follow frames handles catches (inner j other) (below j) (active ++ [pointer F])).2 rfl
    rw [sightsOf,sightsOf,List.append_nil,visit_sights]
    constructor
    · intro framed
      rw [inside_follows (ready_framing frames handles catches ready framed) bound member enters back]
      exact ⟨(runs_follow frames handles catches current (below _) (active ++ [pointer F])).1,fun ended => by cases ended⟩
    · exact fun unframed => (unframed_calls unframed member enters).elim
  | F,k,_,_,.goes bound leaving inner later inward,⟨⟨ready,_,below⟩,ready'⟩,active => by
    obtain ⟨framed',unframed'⟩ := path_follow frames handles catches later ready' active
    have back := fun i => (runs_follow frames handles catches (inner i) (below i) (active ++ [pointer F])).2 rfl
    rw [startOf,if_neg inward] at framed'
    rw [sightsOf,visit_sights]
    constructor
    · intro framed
      rw [follows_append,whole_follows (ready_framing frames handles catches ready framed) bound back,leaving,Option.bind_some]
      exact framed' framed
    · intro unframed
      obtain ⟨ended,none⟩ := unframed' unframed
      exact ⟨ended,by rw [none,unframed_silent ready unframed active _ k]; rfl⟩
  | F,k,_,_,.caught bound member enters invoke inner later inward,⟨⟨ready,_,below⟩,ready'⟩,active => by
    obtain ⟨framed',_⟩ := path_follow frames handles catches later ready' active
    have back := fun i => (runs_follow frames handles catches (inner i) (below i) (active ++ [pointer F])).2 rfl
    rw [startOf,if_neg inward] at framed'
    rw [sightsOf,visit_sights]
    constructor
    · intro framed
      rw [follows_append,caught_follows (ready_framing frames handles catches ready framed) bound member enters invoke back,Option.bind_some]
      exact framed' framed
    · exact fun unframed => (unframed_calls unframed member enters).elim

end

-- In any interleaving, the stack that the runtime keeps for a thread has the functions
-- that the thread is in, whenever the thread makes a callback: after returns, after
-- exceptions that pass through calls and after those that are caught.
theorem stacks_are_active (frames : opts.instrumentFuncEntryExit = true) (handles : opts.handleCxxExceptions = true)
    (catches : escape.Catches throws) {gone : Bool} {vs : List Visit} (runs : Runs throws gone vs) (ready : VisitsOf Function.Ready vs)
    {text : Address → String} {past : List TraceAction} {s : Tracing} (tracing : Tracing.Run text past s) (t : ThreadID) :
    (∀ before active after, sightsOf opts escape pointer [] vs = before ++ .callback active :: after →
      crossings t past = before.filterMap Sight.crossing? → s.callStack.stackFrame t = active) ∧
    (gone = true → crossings t past = (sightsOf opts escape pointer [] vs).filterMap Sight.crossing? → s.callStack.stackFrame t = []) := by
  obtain ⟨led,back⟩ := runs_follow frames handles catches runs ready []
  rw [run_frame tracing t]
  constructor
  · intro before active after split crossed
    rw [crossed]
    exact follows_callback led split
  · intro ended crossed
    rw [crossed]
    exact follows_cross (back ended)

def risky : Function := ⟨"risky",false,.sanitizeThread,[[⟨1,.store ⟨6,32,4,false,false,true,false,false⟩ false⟩,
  ⟨2,.call (some "fail") []⟩,⟨3,.ret⟩]]⟩

def careful : Function := ⟨"careful",false,.sanitizeThread,[[⟨4,.invoke (some "risky") [] 1 2⟩],[⟨5,.ret⟩],
  [⟨6,.store ⟨6,32,4,false,false,true,false,false⟩ false⟩,⟨7,.ret⟩]]⟩

def carefulValues : Env := ⟨fun _ => 100,fun _ => 2,fun _ => ⟨10,0,0⟩,fun _ => 0⟩

def carefulVisits : List Visit :=
  [.through careful 0 carefulValues (fun _ => [.through risky 0 carefulValues (fun _ => []) (.unwinds ⟨2,.call (some "fail") []⟩)])
    (.unwinds ⟨4,.invoke (some "risky") [] 1 2⟩),.through careful 2 carefulValues (fun _ => []) .whole]

def failing (_ : Function) (i : Instruction) : Bool := i.isCall

theorem careful_runs : Runs failing true carefulVisits := by
  have fails : Runs failing true [.through risky 0 carefulValues (fun _ => []) (.unwinds ⟨2,.call (some "fail") []⟩)] :=
    .last (.thrown (by decide) (by decide) (by decide) rfl rfl fun _ => .nothing)
  have rest : Path failing careful 2 true [.through careful 2 carefulValues (fun _ => []) .whole] :=
    .leaves (by decide) (by decide) fun _ => .nothing
  exact .last (.caught (by decide) (by decide) (by decide) rfl (fun _ => fails) rest (by decide))

theorem careful_ready : VisitsOf Function.Ready carefulVisits := by
  have one : Function.Ready risky := ⟨rfl,by decide,by decide⟩
  have two : Function.Ready careful := ⟨rfl,by decide,by decide⟩
  exact ⟨⟨two,by decide,fun _ => ⟨⟨one,by decide,fun _ => trivial⟩,trivial⟩⟩,
    ⟨two,by decide,fun _ => trivial⟩,trivial⟩

theorem stacks_are_active_careful :
    (Tracing.start.afterAll (fun _ => "f") [.funcEntry 1 7,.funcEntry 1 5,.funcExit 1 5,.popBack 1 5]).callStack.stackFrame 1 = [7] := by
  have sights : sightsOf ⟨true,true,true,true,true⟩ (catching failing) (fun F => if F.funcName = "careful" then 7 else 5) [] carefulVisits =
      [.crossing (.enter 7),.crossing (.enter 5),.callback [7,5],.crossing (.leave 5)] ++ .callback [7] :: [.crossing (.leave 7)] := by
    rfl
  exact (stacks_are_active rfl rfl (catching_catches failing) careful_runs careful_ready (run_exact.mpr ⟨by decide,rfl⟩) 1).1
    _ _ _ sights (by decide)

end Threads
end ThreadSanitizer
