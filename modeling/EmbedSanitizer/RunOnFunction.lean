import Mathlib.Data.List.Forall2
import Mathlib.Tactic.Common

namespace ThreadSanitizer

abbrev Value := ℕ

-- The pointer operand of a load, a store or an atomic, and what the pass asks about it.
structure Place where
  addr : Value
  typeSize : ℕ
  alignment : ℕ
  isSwiftError : Bool
  isVtableAccess : Bool
  shouldInstrumentReadWriteFromAddress : Bool
  addrPointsToConstantData : Bool
  notCaptured : Bool
  deriving DecidableEq, Repr

inductive BinOp where
  | xchg | add | sub | and | nand | or | xor | max | min | umax | umin
  deriving DecidableEq, Repr

-- A load or a store is atomic where isAtomic says so. The callee of a call is the
-- one getCalledFunction names, none where the call is indirect.
inductive Kind where
  | load (p : Place) (atomic : Bool)
  | store (p : Place) (atomic : Bool)
  | atomicRMW (p : Place) (op : BinOp)
  | atomicCmpXchg (p : Place)
  | fence (singleThread : Bool)
  | call (callee : Option String) (args : List Value)
  | invoke (callee : Option String) (args : List Value) (normal unwind : ℕ)
  | phi
  | ret
  | resume
  | other
  deriving DecidableEq, Repr

structure Instruction where
  address : ℕ
  kind : Kind
  deriving DecidableEq, Repr

inductive Sync where
  | create | join | lock | unlock
  deriving DecidableEq, Repr

def Sync.function : Sync → String
  | .create => "pthread_create"
  | .join => "pthread_join"
  | .lock => "pthread_mutex_lock"
  | .unlock => "pthread_mutex_unlock"

inductive Callback where
  | thread (op : Sync)
  | access (write unaligned : Bool) (bytes : ℕ)
  | vptrUpdate
  | vptrRead
  | atomicLoad (bits : ℕ)
  | atomicStore (bits : ℕ)
  | atomicRMW (op : BinOp) (bits : ℕ)
  | atomicCompareExchange (bits : ℕ)
  | atomicThreadFence
  | atomicSignalFence
  | memset | memcpy | memmove
  | funcEntry | funcExit | mainFuncExit
  | ignoreThreadBegin | ignoreThreadEnd
  deriving DecidableEq, Repr

def BinOp.name : BinOp → Option String
  | .xchg => some "_exchange"
  | .add => some "_fetch_add"
  | .sub => some "_fetch_sub"
  | .and => some "_fetch_and"
  | .or => some "_fetch_or"
  | .xor => some "_fetch_xor"
  | .nand => some "_fetch_nand"
  | .max | .min | .umax | .umin => none

def Callback.name : Callback → String
  | .thread .create => "__tsan_thread_create"
  | .thread .join => "__tsan_thread_join"
  | .thread .lock => "__tsan_thread_lock"
  | .thread .unlock => "__tsan_thread_unlock"
  | .access write unaligned bytes => "__tsan_" ++ (if unaligned then "unaligned_" else "") ++
      (if write then "write" else "read") ++ toString bytes
  | .vptrUpdate => "__tsan_vptr_update"
  | .vptrRead => "__tsan_vptr_read"
  | .atomicLoad bits => "__tsan_atomic" ++ toString bits ++ "_load"
  | .atomicStore bits => "__tsan_atomic" ++ toString bits ++ "_store"
  | .atomicRMW op bits => "__tsan_atomic" ++ toString bits ++ op.name.getD ""
  | .atomicCompareExchange bits => "__tsan_atomic" ++ toString bits ++ "_compare_exchange_val"
  | .atomicThreadFence => "__tsan_atomic_thread_fence"
  | .atomicSignalFence => "__tsan_atomic_signal_fence"
  | .memset => "memset"
  | .memcpy => "memcpy"
  | .memmove => "memmove"
  | .funcEntry => "__tsan_func_entry"
  | .funcExit => "__tsan_func_exit"
  | .mainFuncExit => "__tsan_main_func_exit"
  | .ignoreThreadBegin => "__tsan_ignore_thread_begin"
  | .ignoreThreadEnd => "__tsan_ignore_thread_end"

-- What stands in a block while the pass runs: the program's own instructions, the
-- calls inserted so far, and the cleanup code of an escape. A call that unwinds to
-- a cleanup block goes on in its own block when it returns; the casts, constants
-- and strings that are made for the arguments of an inserted call are left out.
inductive Node where
  | source (i : Instruction) (unwinds : Bool)
  | inserted (callee : Callback) (args : List Value) (unwinds : Bool)
  | landingPad
  | resume
  deriving DecidableEq, Repr

abbrev Body := List (List Node)

-- The attribute that decides about the checks; an assertion of the pass excludes
-- that a function has both of them.
inductive Checking where
  | sanitizeThread | noCheckingAtRunTime | unmarked
  deriving DecidableEq, Repr

structure Function where
  funcName : String
  isTsanCtor : Bool
  checking : Checking
  blocks : List (List Instruction)

structure Options where
  instrumentMemoryAccesses : Bool
  instrumentFuncEntryExit : Bool
  handleCxxExceptions : Bool
  instrumentAtomics : Bool
  instrumentMemIntrinsics : Bool

def startswith (name pre : String) : Bool := pre.toList.isPrefixOf name.toList

section Nodes

def Node.callInst : Node → Option (Option String × List Value)
  | .source ⟨_,.call callee args⟩ _ => some (callee,args)
  | .inserted callee args _ => some (some callee.name,args)
  | _ => none

def Node.isInvoke : Node → Bool
  | .source ⟨_,.invoke ..⟩ _ => true
  | _ => false

def Node.isPhi : Node → Bool
  | .source ⟨_,.phi⟩ _ => true
  | _ => false

def Node.escapes : Node → Bool
  | .source ⟨_,.ret⟩ _ | .source ⟨_,.resume⟩ _ | .resume => true
  | _ => false

def Node.isAtomic : Node → Bool
  | .source ⟨_,.load _ atomic⟩ _ | .source ⟨_,.store _ atomic⟩ _ => atomic
  | .source ⟨_,.atomicRMW ..⟩ _ | .source ⟨_,.atomicCmpXchg _⟩ _ | .source ⟨_,.fence _⟩ _ => true
  | _ => false

def Node.isLoadOrStore : Node → Bool
  | .source ⟨_,.load ..⟩ _ | .source ⟨_,.store ..⟩ _ => true
  | _ => false

def memIntrinsic : Kind → Option Callback
  | .call (some name) _ =>
    if startswith name "llvm.memset." then some .memset
    else if startswith name "llvm.memcpy." then some .memcpy
    else if startswith name "llvm.memmove." then some .memmove
    else none
  | _ => none

def Node.source? : Node → Option Instruction
  | .source i _ => some i
  | _ => none

end Nodes

section Synchronizations

-- The callback goes before the call of pthread_mutex_unlock and after the calls of
-- the other three. What is returned is what is inserted before and after.
def instrIfSynchronization (inst : Node) : Option (List Node × List Node) :=
  match inst.callInst with
  | none => some ([],[])
  | some (none,_) => some ([],[])
  | some (some name,args) =>
    if startswith name "pthread_create" then do
      let threadIdPtr ← args[0]?
      some ([],[.inserted (.thread .create) [threadIdPtr] false])
    else if startswith name "pthread_join" then do
      let childThreadIdAddr ← args[0]?
      some ([],[.inserted (.thread .join) [childThreadIdAddr] false])
    else if startswith name "pthread_mutex_lock" then do
      let lockAddr ← args[0]?
      some ([],[.inserted (.thread .lock) [lockAddr] false])
    else if startswith name "pthread_mutex_unlock" then do
      let lockAddr ← args[0]?
      some ([.inserted (.thread .unlock) [lockAddr] false],[])
    else some ([],[])

end Synchronizations

section Collecting

structure Collected where
  allLoadsAndStores : List Instruction
  localLoadsAndStores : List Instruction
  atomicAccesses : List Instruction
  memIntrinCalls : List Instruction
  hasCalls : Bool

-- Local holds the loads and stores of one block between two calls, and is gone
-- through from the end.
def chooseInstructionsToInstrument (c : Collected) : Collected :=
  let chosen := c.localLoadsAndStores.reverse.foldl (fun (writeTargets,all) i =>
    match i.kind with
    | .store p _ =>
      if !p.shouldInstrumentReadWriteFromAddress then (writeTargets,all)
      else if p.notCaptured then (p.addr :: writeTargets,all)
      else (p.addr :: writeTargets,all ++ [i])
    | .load p _ =>
      if !p.shouldInstrumentReadWriteFromAddress then (writeTargets,all)
      else if writeTargets.contains p.addr then (writeTargets,all)
      else if p.addrPointsToConstantData then (writeTargets,all)
      else if p.notCaptured then (writeTargets,all)
      else (writeTargets,all ++ [i])
    | _ => (writeTargets,all)) ([],c.allLoadsAndStores)
  {c with allLoadsAndStores := chosen.2, localLoadsAndStores := []}

def Collected.visit (c : Collected) (inst : Node) : Collected :=
  if inst.isAtomic then {c with atomicAccesses := c.atomicAccesses ++ inst.source?.toList}
  else if inst.isLoadOrStore then {c with localLoadsAndStores := c.localLoadsAndStores ++ inst.source?.toList}
  else if inst.callInst.isSome || inst.isInvoke then
    let memIntrins := inst.source?.toList.filter fun i => (memIntrinsic i.kind).isSome
    chooseInstructionsToInstrument {c with memIntrinCalls := c.memIntrinCalls ++ memIntrins, hasCalls := true}
  else c

-- The loop over one block. What is inserted after the current instruction is
-- visited next, what is inserted before it is not.
def visitBlock : ℕ → Collected → List Node → Option (List Node × Collected)
  | _,c,[] => some ([],chooseInstructionsToInstrument c)
  | 0,_,_ :: _ => none
  | fuel+1,c,inst :: rest => do
    let (before,after) ← instrIfSynchronization inst
    let (done,c) ← visitBlock fuel (c.visit inst) (after ++ rest)
    some (before ++ inst :: done,c)

-- Every instruction is followed by at most one inserted call, so this is enough.
def visitBlocks : Collected → Body → Option (Body × Collected)
  | c,[] => some ([],c)
  | c,block :: rest => do
    let (block,c) ← visitBlock (2 * block.length) c block
    let (rest,c) ← visitBlocks c rest
    some (block :: rest,c)

end Collecting

section Accesses

def getMemoryAccessFuncIndex (p : Place) : Option ℕ :=
  if p.typeSize = 8 then some 0
  else if p.typeSize = 16 then some 1
  else if p.typeSize = 32 then some 2
  else if p.typeSize = 64 then some 3
  else if p.typeSize = 128 then some 4
  else none

def loadOrStoreCallback : Kind → Option Callback
  | .store p _ => access p true
  | .load p _ => access p false
  | _ => none
where
  access (p : Place) (isWrite : Bool) : Option Callback :=
    if p.isSwiftError then none
    else match getMemoryAccessFuncIndex p with
      | none => none
      | some idx =>
        if isWrite && p.isVtableAccess then some .vptrUpdate
        else if !isWrite && p.isVtableAccess then some .vptrRead
        else if p.alignment = 0 ∨ p.alignment ≥ 8 ∨ p.alignment % (p.typeSize / 8) = 0 then some (.access isWrite false (1 <<< idx))
        else some (.access isWrite true (1 <<< idx))

-- The callback for an atomic, and whether it takes the place of the instruction.
def atomicCallback : Kind → Option (Callback × Bool)
  | .load p _ => (getMemoryAccessFuncIndex p).map fun idx => (.atomicLoad ((1 <<< idx) * 8),false)
  | .store p _ => (getMemoryAccessFuncIndex p).map fun idx => (.atomicStore ((1 <<< idx) * 8),true)
  | .atomicRMW p op =>
    match getMemoryAccessFuncIndex p,op.name with
    | some idx,some _ => some (.atomicRMW op ((1 <<< idx) * 8),true)
    | _,_ => none
  | .atomicCmpXchg p => (getMemoryAccessFuncIndex p).map fun idx => (.atomicCompareExchange ((1 <<< idx) * 8),true)
  | .fence singleThread => some (if singleThread then .atomicSignalFence else .atomicThreadFence,true)
  | _ => none

def Kind.operands : Kind → List Value
  | .load p _ | .store p _ | .atomicRMW p _ | .atomicCmpXchg p => [p.addr]
  | .call _ args | .invoke _ args .. => args
  | _ => []

-- The builder stands before the instruction i.
def replaceAt (body : Body) (i : Instruction) (nodes : Node → List Node) : Body :=
  body.map fun block => block.flatMap fun n => if n.source? = some i then nodes n else [n]

def instrumentLoadOrStore (body : Body) (i : Instruction) : Body × Bool :=
  match loadOrStoreCallback i.kind with
  | none => (body,false)
  | some callee => (replaceAt body i fun n => [.inserted callee i.kind.operands false,n],true)

-- An unknown kind of instruction also returns true, but none is collected.
def instrumentAtomic (body : Body) (i : Instruction) : Body × Bool :=
  match atomicCallback i.kind with
  | none => (body,false)
  | some (callee,replaces) =>
    (replaceAt body i fun n => .inserted callee i.kind.operands false :: if replaces then [] else [n],true)

def instrumentMemIntrinsic (body : Body) (i : Instruction) : Body × Bool :=
  match memIntrinsic i.kind with
  | none => (body,false)
  | some callee => (replaceAt body i fun _ => [.inserted callee (i.kind.operands.take 3) false],false)

def instrumentEach (instrument : Body → Instruction → Body × Bool) (body : Body) (is : List Instruction) : Body × Bool :=
  is.foldl (fun (body,res) i => let (body,changed) := instrument body i; (body,res || changed)) (body,false)

end Accesses

section Function

def insertAtEntry (callee : Callback) : Body → Body
  | [] => []
  | entry :: rest => (entry.takeWhile Node.isPhi ++ .inserted callee [] false :: entry.dropWhile Node.isPhi) :: rest

-- EscapeEnumerator is not part of this repository: what becomes of a body when one
-- call is inserted at each of its escapes.
abbrev Escape := Function → Bool → Node → Body → Body

section Phases
variable (opts : Options) (escape : Escape) (F : Function)

def instrumentAccesses (c : Collected) (body : Body) : Body × Bool :=
  let sanitize := F.checking = .sanitizeThread
  let (body,loads) := if opts.instrumentMemoryAccesses ∧ sanitize
    then instrumentEach instrumentLoadOrStore body c.allLoadsAndStores else (body,false)
  let (body,atomics) := if opts.instrumentAtomics
    then instrumentEach instrumentAtomic body c.atomicAccesses else (body,false)
  let (body,mems) := if opts.instrumentMemIntrinsics ∧ sanitize
    then instrumentEach instrumentMemIntrinsic body c.memIntrinCalls else (body,false)
  (body,loads || atomics || mems)

def insertRuntimeIgnores (body : Body) : Body :=
  escape F opts.handleCxxExceptions (.inserted .ignoreThreadEnd [] false) (insertAtEntry .ignoreThreadBegin body)

-- The main function also reports the races at its exits.
def instrumentFuncEntryExit (body : Body) : Body :=
  let body := escape F opts.handleCxxExceptions (.inserted .funcExit [] false) (insertAtEntry .funcEntry body)
  if F.funcName = "main" then escape F opts.handleCxxExceptions (.inserted .mainFuncExit [] false) body else body

def runOnFunction : Option (Body × Bool) :=
  let body := F.blocks.map fun block => block.map fun i => Node.source i false
  if F.isTsanCtor then some (body,false)
  else do
    let (body,c) ← visitBlocks ⟨[],[],[],[],false⟩ body
    let (body,res) := instrumentAccesses opts F c body
    let body := if F.checking = .noCheckingAtRunTime ∧ c.hasCalls then insertRuntimeIgnores opts escape F body else body
    if (res || c.hasCalls) && opts.instrumentFuncEntryExit then some (instrumentFuncEntryExit opts escape F body,true)
    else some (body,res)

end Phases
end Function
end ThreadSanitizer
