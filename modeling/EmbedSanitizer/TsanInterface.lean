import EmbedSanitizer.Fasttrack
import EmbedSanitizer.ThreadEvents

namespace EmbedSanitizer
open ThreadEvents

abbrev Event := ThreadEvents.Event ThreadID Address Address

section Runtime
variable (cpp : Cpp)

-- The two arguments of a call, each an operation on the globals.
def Cpp.evaluate (left right : Runtime → Option Runtime) (s : Runtime) : Option Runtime :=
  match cpp.arguments with
  | .leftFirst => do let s ← left s; right s
  | .rightFirst => do let s ← right s; left s

def callRead (s : Runtime) (self : ThreadID) (addr : Address) : Option (Runtime × Bool) := do
  let s ← cpp.evaluate (getVarState cpp · self addr false) (getState cpp · self) s
  let x ← s.Vstates.find addr
  let t ← s.TS.find self
  let (x,isRace) ← ftRead cpp s.NumThreads x t
  some ({s with Vstates := s.Vstates.insert addr x, reads := s.reads + 1},isRace)

def callWrite (s : Runtime) (self : ThreadID) (addr : Address) (isWrite : Bool) : Option (Runtime × Bool) := do
  let s ← cpp.evaluate (getVarState cpp · self addr isWrite) (getState cpp · self) s
  let x ← s.Vstates.find addr
  let t ← s.TS.find self
  let (x,isRace) ← ftWrite cpp x t
  some ({s with Vstates := s.Vstates.insert addr x, writes := s.writes + 1},isRace)

def callFork (s : Runtime) (t u : ThreadID) : Option Runtime := do
  let s := {s with isConcurrent := s.isConcurrent + 1}
  let st ← s.TS.find t
  if t = u then
    let st ← ftSelf cpp st
    some {s with TS := s.TS.insert t st}
  else
    let su ← s.TS.find u
    let (st,su) ← ftFork cpp st su
    some {s with TS := (s.TS.insert t st).insert u su}

def callJoin (s : Runtime) (t u : ThreadID) : Option Runtime := do
  let s := {s with isConcurrent := if s.isConcurrent ≠ 0 then s.isConcurrent - 1 else s.isConcurrent}
  let st ← s.TS.find t
  if t = u then
    let st ← ftSelf cpp st
    some {s with TS := s.TS.insert t st}
  else
    let su ← s.TS.find u
    let (st,su) ← ftJoin cpp st su
    some {s with TS := (s.TS.insert t st).insert u su}

def tsanThreadCreate (s : Runtime) (self child : ThreadID) : Option Runtime := do
  let s ← cpp.evaluate (getState cpp · self) (getState cpp · child) s
  callFork cpp s self child

def tsanThreadJoin (s : Runtime) (self child : ThreadID) : Option Runtime := do
  let s ← cpp.evaluate (getState cpp · self) (getState cpp · child) s
  callJoin cpp s self child

def tsanThreadLock (s : Runtime) (self : ThreadID) (lock : Address) : Option Runtime := do
  let s ← cpp.evaluate (getState cpp · self) (getLockState cpp · lock) s
  let t ← s.TS.find self
  let l ← s.LS.find lock
  let (t,l) ← ftAcquire cpp t l
  some {s with TS := s.TS.insert self t, LS := s.LS.insert lock l}

def tsanThreadUnlock (s : Runtime) (self : ThreadID) (lock : Address) : Option Runtime := do
  let s ← cpp.evaluate (getState cpp · self) (getLockState cpp · lock) s
  let t ← s.TS.find self
  let l ← s.LS.find lock
  let (t,l) ← ftRelease cpp t l
  some {s with TS := s.TS.insert self t, LS := s.LS.insert lock l}

-- One event at the runtime and what the access check returns for it. The update is
-- the check that __tsan_vptr_read makes.
def perform (s : Runtime) : Event → Option (Runtime × Bool)
  | .fork t u => (tsanThreadCreate cpp s t u).map (·,false)
  | .join t u => (tsanThreadJoin cpp s t u).map (·,false)
  | .acquire t m => (tsanThreadLock cpp s t m).map (·,false)
  | .release t m => (tsanThreadUnlock cpp s t m).map (·,false)
  | .access t .read a => callRead cpp s t a
  | .access t .write a => callWrite cpp s t a true
  | .access t .update a => callWrite cpp s t a false
  | .skip _ => some (s,false)

def performAll (s : Runtime) : List Event → Option (Runtime × List Bool)
  | [] => some (s,[])
  | e :: rest => do
    let (s,verdict) ← perform cpp s e
    let (s,verdicts) ← performAll s rest
    some (s,verdict :: verdicts)

end Runtime

structure Site where
  lineNo : CInt
  objName : Address
  fileName : Address
  deriving DecidableEq, Repr

inductive Report where
  | reportRaceOnRead (site : Site)
  | reportRaceOnWrite (site : Site)
  deriving DecidableEq, Repr

section Callbacks
variable (cpp : Cpp) (s : Runtime) (self : ThreadID) (addr : Address) (site : Site)

def readCallback : Option (Runtime × Option Report) :=
  if s.isConcurrent ≠ 0 then do
    let (s,isRace) ← callRead cpp s self addr
    some (s,if isRace then some (.reportRaceOnRead site) else none)
  else some (s,none)

def writeCallback (isWrite : Bool) : Option (Runtime × Option Report) :=
  if s.isConcurrent ≠ 0 then do
    let (s,isRace) ← callWrite cpp s self addr isWrite
    some (s,if isRace then some (.reportRaceOnWrite site) else none)
  else some (s,none)

def tsanRead1 := readCallback cpp s self addr site
def tsanRead2 := readCallback cpp s self addr site
def tsanRead4 := readCallback cpp s self addr site
def tsanRead8 := readCallback cpp s self addr site
def tsanRead16 := readCallback cpp s self addr site
def tsanWrite1 := writeCallback cpp s self addr site true
def tsanWrite2 := writeCallback cpp s self addr site true
def tsanWrite4 := writeCallback cpp s self addr site true
def tsanWrite8 := writeCallback cpp s self addr site true
def tsanWrite16 := writeCallback cpp s self addr site true
def tsanUnalignedRead2 := readCallback cpp s self addr site
def tsanUnalignedRead4 := readCallback cpp s self addr site
def tsanUnalignedRead8 := readCallback cpp s self addr site
def tsanUnalignedRead16 := readCallback cpp s self addr site
def tsanUnalignedWrite2 := writeCallback cpp s self addr site true
def tsanUnalignedWrite4 := writeCallback cpp s self addr site true
def tsanUnalignedWrite8 := writeCallback cpp s self addr site true
def tsanUnalignedWrite16 := writeCallback cpp s self addr site true
-- The check of this one is ft_write, on a state opened as for a read.
def tsanVptrRead := writeCallback cpp s self addr site false
def tsanVptrUpdate (_newVal : Address) := writeCallback cpp s self addr site true

end Callbacks

inductive AccessCallback where
  | read1 | read2 | read4 | read8 | read16
  | write1 | write2 | write4 | write8 | write16
  | unalignedRead2 | unalignedRead4 | unalignedRead8 | unalignedRead16
  | unalignedWrite2 | unalignedWrite4 | unalignedWrite8 | unalignedWrite16
  | vptrRead
  | vptrUpdate (newVal : Address)
  deriving DecidableEq, Repr

-- The number in the callback's name; a virtual pointer has the four bytes of the target.
def AccessCallback.size : AccessCallback → ℕ
  | .read1 | .write1 => 1
  | .read2 | .write2 | .unalignedRead2 | .unalignedWrite2 => 2
  | .read4 | .write4 | .unalignedRead4 | .unalignedWrite4 => 4
  | .read8 | .write8 | .unalignedRead8 | .unalignedWrite8 => 8
  | .read16 | .write16 | .unalignedRead16 | .unalignedWrite16 => 16
  | .vptrRead | .vptrUpdate _ => 4

def AccessCallback.check : AccessCallback → Access
  | .read1 | .read2 | .read4 | .read8 | .read16 => .read
  | .unalignedRead2 | .unalignedRead4 | .unalignedRead8 | .unalignedRead16 => .read
  | .write1 | .write2 | .write4 | .write8 | .write16 => .write
  | .unalignedWrite2 | .unalignedWrite4 | .unalignedWrite8 | .unalignedWrite16 => .write
  | .vptrRead => .update
  | .vptrUpdate _ => .write

def AccessCallback.invoke (cpp : Cpp) (s : Runtime) (self : ThreadID) (addr : Address) (site : Site) :
    AccessCallback → Option (Runtime × Option Report)
  | .read1 => tsanRead1 cpp s self addr site
  | .read2 => tsanRead2 cpp s self addr site
  | .read4 => tsanRead4 cpp s self addr site
  | .read8 => tsanRead8 cpp s self addr site
  | .read16 => tsanRead16 cpp s self addr site
  | .write1 => tsanWrite1 cpp s self addr site
  | .write2 => tsanWrite2 cpp s self addr site
  | .write4 => tsanWrite4 cpp s self addr site
  | .write8 => tsanWrite8 cpp s self addr site
  | .write16 => tsanWrite16 cpp s self addr site
  | .unalignedRead2 => tsanUnalignedRead2 cpp s self addr site
  | .unalignedRead4 => tsanUnalignedRead4 cpp s self addr site
  | .unalignedRead8 => tsanUnalignedRead8 cpp s self addr site
  | .unalignedRead16 => tsanUnalignedRead16 cpp s self addr site
  | .unalignedWrite2 => tsanUnalignedWrite2 cpp s self addr site
  | .unalignedWrite4 => tsanUnalignedWrite4 cpp s self addr site
  | .unalignedWrite8 => tsanUnalignedWrite8 cpp s self addr site
  | .unalignedWrite16 => tsanUnalignedWrite16 cpp s self addr site
  | .vptrRead => tsanVptrRead cpp s self addr site
  | .vptrUpdate newVal => tsanVptrUpdate cpp s self addr site newVal

inductive Callback where
  | threadCreate (child : ThreadID)
  | threadJoin (child : ThreadID)
  | threadLock (lock : Address)
  | threadUnlock (lock : Address)
  | access (entry : AccessCallback) (addr : Address) (site : Site)
  deriving DecidableEq, Repr

structure Call where
  self : ThreadID
  callback : Callback
  deriving DecidableEq, Repr

def Call.invoke (cpp : Cpp) (s : Runtime) (c : Call) : Option (Runtime × Option Report) :=
  match c.callback with
  | .threadCreate child => (tsanThreadCreate cpp s c.self child).map (·,none)
  | .threadJoin child => (tsanThreadJoin cpp s c.self child).map (·,none)
  | .threadLock lock => (tsanThreadLock cpp s c.self lock).map (·,none)
  | .threadUnlock lock => (tsanThreadUnlock cpp s c.self lock).map (·,none)
  | .access entry addr site => entry.invoke cpp s c.self addr site

def invokeAll (cpp : Cpp) (s : Runtime) : List Call → Option (Runtime × List (Option Report))
  | [] => some (s,[])
  | c :: rest => do
    let (s,report) ← c.invoke cpp s
    let (s,reports) ← invokeAll cpp s rest
    some (s,report :: reports)

-- The event that a callback is while isConcurrent is n.
def Call.event (c : Call) (n : CInt) : Event :=
  match c.callback with
  | .threadCreate child => .fork c.self child
  | .threadJoin child => .join c.self child
  | .threadLock lock => .acquire c.self lock
  | .threadUnlock lock => .release c.self lock
  | .access entry addr _ => if n ≠ 0 then .access c.self entry.check addr else .skip c.self

def concurrentAfter (n : CInt) : Event → CInt
  | .fork .. => n + 1
  | .join .. => if n ≠ 0 then n - 1 else n
  | _ => n

def eventsFrom (n : CInt) : List Call → List Event
  | [] => []
  | c :: rest => c.event n :: eventsFrom (concurrentAfter n (c.event n)) rest

end EmbedSanitizer
