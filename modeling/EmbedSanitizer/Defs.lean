import EmbedSanitizer.Packing
import EmbedSanitizer.UnorderedMap

namespace EmbedSanitizer

abbrev ThreadID := BitVec 32
abbrev Address := ℕ
abbrev VectorClock := List CInt

-- What C++ leaves open: the value of a subscript past the end, the effect of a
-- store there (none where the program is stopped), and which of two arguments of
-- a call is evaluated first.
inductive ArgumentOrder where
  | leftFirst | rightFirst
  deriving DecidableEq, Repr

structure Cpp where
  load : VectorClock → ℕ → Option CInt
  store : VectorClock → ℕ → CInt → Option VectorClock
  arguments : ArgumentOrder

def Cpp.get (cpp : Cpp) (V : VectorClock) (i : ℕ) : Option CInt :=
  match V[i]? with
  | some x => some x
  | none => cpp.load V i

def Cpp.set (cpp : Cpp) (V : VectorClock) (i : ℕ) (x : CInt) : Option VectorClock :=
  if i < V.length then some (V.set i x) else cpp.store V i x

def Cpp.checked (arguments : ArgumentOrder) : Cpp := ⟨fun _ _ => none,fun _ _ _ => none,arguments⟩

-- A store past the end leaves the size and the entries as they are.
def Cpp.lenient (arguments : ArgumentOrder) : Cpp := ⟨fun _ _ => none,fun V _ _ => some V,arguments⟩

structure ThreadState where
  tid : ℕ
  C : VectorClock
  epoch : CInt
  deriving DecidableEq, Repr

def ThreadState.updateEpoch (cpp : Cpp) (t : ThreadState) : Option ThreadState := do
  let epoch ← cpp.get t.C t.tid
  some {t with epoch}

-- The assertion at the end reads the slot back.
def ThreadState.increment (cpp : Cpp) (t : ThreadState) : Option ThreadState := do
  let epoch := t.epoch + 1
  let C ← cpp.set t.C t.tid epoch
  let stored ← cpp.get C t.tid
  if stored = epoch then some {t with C, epoch} else none

structure VarState where
  W : CInt
  R : CInt
  Rvc : VectorClock
  Racy : Bool
  deriving DecidableEq, Repr

structure LockState where
  L : VectorClock
  deriving DecidableEq, Repr

-- The globals: TS, VS, LS, NumThreads and isConcurrent. The mutexes that guard
-- them make each operation below one step.
structure Runtime where
  TS : UnorderedMap ThreadID ThreadState
  Vstates : UnorderedMap Address VarState
  reads : CInt
  writes : CInt
  LS : UnorderedMap Address LockState
  NumThreads : ℕ
  isConcurrent : CInt

def Runtime.empty : Runtime := ⟨.empty,.empty,0,0,.empty,0,0⟩

-- The slots from the end of the vector up to n, as the loops of
-- updateThreadClocks push them for the thread tid.
def updateThreadClock (n : ℕ) (t : ThreadState) : ThreadState :=
  {t with C := t.C ++ (List.range' t.C.length (n - t.C.length)).map fun idx =>
    if t.tid = idx then lane idx + 1 else lane idx}

def updateThreadClocks (s : Runtime) : Runtime :=
  {s with TS := s.TS.mapValues (updateThreadClock s.TS.size)}

-- The reference that getState returns is the entry of id in the result.
def getState (cpp : Cpp) (s : Runtime) (id : ThreadID) : Option Runtime :=
  match s.TS.find id with
  | some _ => some s
  | none => do
    let tid := (s.TS.insert id ⟨0,[],0⟩).size
    let epoch := lane tid + 1
    let s := updateThreadClocks {s with TS := s.TS.insert id ⟨tid,[],epoch⟩, NumThreads := tid}
    let st ← s.TS.find id
    let C ← cpp.set st.C st.tid st.epoch
    some {s with TS := s.TS.insert id {st with C}, NumThreads := s.TS.size + 1}

-- The calling thread is the one pthread_self names.
def getVarState (cpp : Cpp) (s : Runtime) (self : ThreadID) (addr : Address) (isWrite : Bool) : Option Runtime :=
  match s.Vstates.find addr with
  | some _ => some s
  | none => do
    let s ← getState cpp s self
    let t ← s.TS.find self
    let vs : VarState := ⟨lane t.tid,lane t.tid,[],false⟩
    let vs := if isWrite then {vs with W := t.epoch} else {vs with R := t.epoch}
    some {s with Vstates := s.Vstates.insert addr vs}

def resize (V : VectorClock) (size : ℕ) : VectorClock := V.take size ++ List.replicate (size - V.length) 0

def newVectorClock (cpp : Cpp) (VC : VectorClock) (size : ℕ) : Option VectorClock :=
  (List.range size).foldlM (fun VC t => cpp.set VC t (lane t)) (resize VC size)

def extendVectorClock (C : VectorClock) (totalThreads : ℕ) : VectorClock :=
  C ++ (List.range' C.length (totalThreads - C.length)).map lane

def extendVectorClocks (C1 C2 : VectorClock) : VectorClock × VectorClock :=
  let size := max C1.length C2.length
  (extendVectorClock C1 size,extendVectorClock C2 size)

def getLockState (cpp : Cpp) (s : Runtime) (lock : Address) : Option Runtime :=
  match s.LS.find lock with
  | some _ => some s
  | none => do
    let L ← newVectorClock cpp [] s.NumThreads
    some {s with LS := s.LS.insert lock ⟨L⟩}

end EmbedSanitizer
