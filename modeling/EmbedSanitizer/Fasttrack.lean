import EmbedSanitizer.Defs

namespace EmbedSanitizer

-- TID(e) != t.tid && CLOCK(e) > CLOCK(t.C[TID(e)]), the subscript evaluated only
-- after the first test.
def aheadOf (cpp : Cpp) (e : CInt) (t : ThreadState) : Option Bool :=
  if TID e ≠ t.tid then do
    let c ← cpp.get t.C (TID e)
    some (decide (CLOCK e > CLOCK c))
  else some false

-- One call on the state x of an address by the thread t: the new state of the
-- address and the returned verdict.
def ftRead (cpp : Cpp) (NumThreads : ℕ) (x : VarState) (t : ThreadState) : Option (VarState × Bool) :=
  if x.Racy then some (x,false)
  else if x.R = t.epoch then some (x,false)
  else do
    let reportIsRacy ← aheadOf cpp x.W t
    if x.R = READ_SHARED then
      let Rvc ← cpp.set x.Rvc t.tid t.epoch
      some ({x with Rvc},reportIsRacy)
    else
      let c ← cpp.get t.C (TID x.R)
      if x.R.sle c then some ({x with R := t.epoch},reportIsRacy)
      else
        let Rvc ← (if x.Rvc.length = 0 then newVectorClock cpp x.Rvc NumThreads else some x.Rvc)
        let Rvc ← cpp.set Rvc (TID x.R) x.R
        let Rvc ← cpp.set Rvc t.tid t.epoch
        some ({x with Rvc, R := READ_SHARED},reportIsRacy)

def readersAhead (cpp : Cpp) (x : VarState) (t : ThreadState) (reportIsRacy : Bool) : Option Bool :=
  (List.range (min x.Rvc.length t.C.length)).foldlM (fun reportIsRacy u => do
    let r ← cpp.get x.Rvc u
    let c ← cpp.get t.C u
    some (if c.slt r then true else reportIsRacy)) reportIsRacy

def ftWrite (cpp : Cpp) (x : VarState) (t : ThreadState) : Option (VarState × Bool) :=
  if x.Racy then some (x,false)
  else if x.W = t.epoch then some (x,false)
  else do
    let reportIsRacy ← aheadOf cpp x.W t
    if x.R ≠ READ_SHARED then
      let readIsRacy ← aheadOf cpp x.R t
      some ({x with W := t.epoch},reportIsRacy || readIsRacy)
    else
      let reportIsRacy ← readersAhead cpp x t reportIsRacy
      some ({x with R := lane (TID t.epoch), W := t.epoch},reportIsRacy)

def joinInto (cpp : Cpp) (n : ℕ) (C D : VectorClock) : Option VectorClock :=
  (List.range n).foldlM (fun C i => do
    let c ← cpp.get C i
    let d ← cpp.get D i
    cpp.set C i (maxInt c d)) C

def copyInto (cpp : Cpp) (n : ℕ) (C D : VectorClock) : Option VectorClock :=
  (List.range n).foldlM (fun C i => do
    let d ← cpp.get D i
    cpp.set C i d) C

def ftAcquire (cpp : Cpp) (t : ThreadState) (lock : LockState) : Option (ThreadState × LockState) := do
  let (C,L) := extendVectorClocks t.C lock.L
  let C ← joinInto cpp L.length C L
  let t ← {t with C}.updateEpoch cpp
  some (t,{lock with L})

def ftRelease (cpp : Cpp) (t : ThreadState) (lock : LockState) : Option (ThreadState × LockState) := do
  let (C,L) := extendVectorClocks t.C lock.L
  let L ← copyInto cpp L.length L C
  let t ← {t with C}.updateEpoch cpp
  let t ← t.increment cpp
  some (t,{lock with L})

-- The clock part of ft_fork and of ft_join on two different thread states.
def ftFork (cpp : Cpp) (t u : ThreadState) : Option (ThreadState × ThreadState) := do
  let (tC,uC) := extendVectorClocks t.C u.C
  let uC ← joinInto cpp uC.length uC tC
  let u ← {u with C := uC}.updateEpoch cpp
  let t ← {t with C := tC}.increment cpp
  some (t,u)

def ftJoin (cpp : Cpp) (t u : ThreadState) : Option (ThreadState × ThreadState) := do
  let (tC,uC) := extendVectorClocks t.C u.C
  let tC ← joinInto cpp tC.length tC uC
  let t ← {t with C := tC}.updateEpoch cpp
  let u ← {u with C := uC}.increment cpp
  some (t,u)

-- Where both references name one thread, the vector is extended to its own size
-- and joined with itself; what is left of ft_fork and of ft_join is the same.
def ftSelf (cpp : Cpp) (t : ThreadState) : Option ThreadState := do
  let C ← joinInto cpp t.C.length t.C t.C
  let t ← {t with C}.updateEpoch cpp
  t.increment cpp

end EmbedSanitizer
