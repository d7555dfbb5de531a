import EmbedSanitizer.CallbackTypes
import EmbedSanitizer.CallbackRuns
import EmbedSanitizer.Preparation
import EmbedSanitizer.RaceReport
import Mathlib.Tactic.IntervalCases

namespace EmbedSanitizer
open ThreadSanitizer (IRValue MemoryAccess AccessCallee loadOrStoreCallback getMemoryAccessFuncIndex createIntCast)

-- An int that is narrower than a register is passed in a whole word: what the high
-- bits are is left to the calling convention.
inductive Widening where
  | zero | sign
  deriving DecidableEq, Repr

def Widening.word {bits : ℕ} (v : BitVec bits) : Widening → CInt
  | .zero => v.setWidth 32
  | .sign => v.signExtend 32

def Widening.limit : Widening → ℕ
  | .zero => 256
  | .sign => 128

def AccessCallback.name : AccessCallback → String
  | .read1 => "__tsan_read1"
  | .read2 => "__tsan_read2"
  | .read4 => "__tsan_read4"
  | .read8 => "__tsan_read8"
  | .read16 => "__tsan_read16"
  | .write1 => "__tsan_write1"
  | .write2 => "__tsan_write2"
  | .write4 => "__tsan_write4"
  | .write8 => "__tsan_write8"
  | .write16 => "__tsan_write16"
  | .unalignedRead2 => "__tsan_unaligned_read2"
  | .unalignedRead4 => "__tsan_unaligned_read4"
  | .unalignedRead8 => "__tsan_unaligned_read8"
  | .unalignedRead16 => "__tsan_unaligned_read16"
  | .unalignedWrite2 => "__tsan_unaligned_write2"
  | .unalignedWrite4 => "__tsan_unaligned_write4"
  | .unalignedWrite8 => "__tsan_unaligned_write8"
  | .unalignedWrite16 => "__tsan_unaligned_write16"
  | .vptrRead => "__tsan_vptr_read"
  | .vptrUpdate _ => "__tsan_vptr_update"

def accessFunctions : List AccessCallback :=
  [.read1,.read2,.read4,.read8,.read16,.write1,.write2,.write4,.write8,.write16,
    .unalignedRead2,.unalignedRead4,.unalignedRead8,.unalignedRead16,
    .unalignedWrite2,.unalignedWrite4,.unalignedWrite8,.unalignedWrite16,.vptrRead]

-- A call is bound to a function of the runtime by its name alone, which finds its
-- parameters where the call has put the arguments, and a whole int in each word.
def receive (widening : Widening) (name : String) : List IRValue → Option (AccessCallback × Address × Site)
  | [.pointer _ addr,.int _ lineNo,.pointer _ objName,.pointer _ fileName] =>
    (accessFunctions.find? fun entry => entry.name = name).map fun entry => (entry,addr,⟨widening.word lineNo,objName,fileName⟩)
  | [.pointer _ addr,.pointer _ newVal,.int _ lineNo,.pointer _ objName,.pointer _ fileName] =>
    if (AccessCallback.vptrUpdate newVal).name = name then some (.vptrUpdate newVal,addr,⟨widening.word lineNo,objName,fileName⟩) else none
  | _ => none

-- A load or a store that the pass has instrumented.
structure InstrumentedAccess extends MemoryAccess where
  instrumented : (loadOrStoreCallback kind).isSome

def InstrumentedAccess.line (a : InstrumentedAccess) : CInt := a.location.line

def InstrumentedAccess.call (a : InstrumentedAccess) (widening : Widening) (self : ThreadID) : Option Call := do
  let (callee,args) ← a.insertedCall
  let (entry,addr,site) ← receive widening callee.name args
  some ⟨self,.access entry addr site⟩

def InstrumentedAccess.Reported (a : InstrumentedAccess) (widening : Widening) (text : Address → String) (race : Race) : Prop :=
  ∃ (cpp : Cpp) (s s' : Runtime) (c : Call) (report : Report) (trace : List Address),
    a.call widening c.self = some c ∧ c.invoke cpp s = some (s',some report) ∧ race = report.race text c.self trace

section Words

theorem word_kept (widening : Widening) (line : CInt) : (widening.word (line.setWidth 8)).toInt = line.toNat ↔ line.toNat < widening.limit := by
  have bound := line.isLt
  cases widening with
  | zero =>
    change ((line.setWidth 8).setWidth 32).toInt = _ ↔ line.toNat < 256
    rw [BitVec.toInt_eq_toNat_cond,BitVec.toNat_setWidth,BitVec.toNat_setWidth]
    split <;> omega
  | sign =>
    change ((line.setWidth 8).signExtend 32).toInt = _ ↔ line.toNat < 128
    rw [BitVec.toInt_signExtend_of_le (by decide),BitVec.toInt_eq_toNat_cond,BitVec.toNat_setWidth]
    split <;> omega

end Words

section Calls
variable {a : InstrumentedAccess} {widening : Widening}

theorem entry_linked {callee : ThreadSanitizer.Callback} (accessed : AccessCallee callee) (four : callee ≠ .vptrUpdate) :
    (accessFunctions.find? fun entry => entry.name = callee.name).isSome := by
  cases accessed with
  | vptrUpdate => exact absurd rfl four
  | vptrRead => decide
  | access write unaligned idx bound split =>
    cases unaligned with
    | false => interval_cases idx <;> cases write <;> decide
    | true =>
      have large := split rfl
      interval_cases idx <;> cases write <;> decide

theorem call_made (a : InstrumentedAccess) (widening : Widening) (self : ThreadID) :
    ∃ entry, a.call widening self = some ⟨self,.access entry a.addr ⟨widening.word (a.line.setWidth 8),a.objName,a.fileName⟩⟩ := by
  obtain ⟨callee,chosen⟩ := Option.isSome_iff_exists.mp a.instrumented
  have inserted : a.insertedCall = some (callee,a.arguments callee) := by
    unfold MemoryAccess.insertedCall
    rw [chosen]
    rfl
  have accessed := ThreadSanitizer.loadOrStore_callee chosen
  unfold InstrumentedAccess.call
  rw [inserted]
  by_cases five : callee = .vptrUpdate
  · subst five
    obtain ⟨newVal,stored⟩ := ThreadSanitizer.stored_pointer a.toMemoryAccess
    refine ⟨.vptrUpdate newVal,?_⟩
    simp only [MemoryAccess.arguments,stored,Option.bind_eq_bind,Option.bind_some]
    rfl
  · obtain ⟨entry,linked⟩ := Option.isSome_iff_exists.mp (entry_linked accessed five)
    refine ⟨entry,?_⟩
    have four : a.arguments callee = [a.pointerArgument,a.lineArgument,.pointer 8 a.objName,.pointer 8 a.fileName] := by
      cases accessed with
      | vptrUpdate => exact absurd rfl five
      | vptrRead => rfl
      | access => rfl
    have received : receive widening callee.name (a.arguments callee) =
        some (entry,a.addr,⟨widening.word (a.line.setWidth 8),a.objName,a.fileName⟩) := by
      rw [four]
      exact congrArg (Option.map _) linked
    simp only [received,Option.bind_eq_bind,Option.bind_some]

theorem invoke_site {cpp : Cpp} {s s' : Runtime} {self : ThreadID} {entry : AccessCallback} {addr : Address} {site : Site} {report : Report}
    (ran : (Call.mk self (.access entry addr site)).invoke cpp s = some (s',some report)) : report = entry.report site := by
  rw [invoke_event] at ran
  obtain ⟨⟨_,isRace⟩,_,same⟩ := Option.map_eq_some_iff.mp ran
  cases isRace with
  | false => cases same
  | true => cases same; rfl

theorem race_lineNo (entry : AccessCallback) (site : Site) (text : Address → String) (self : ThreadID) (trace : List Address) :
    ((entry.report site).race text self trace).lineNo = site.lineNo := by
  unfold AccessCallback.report
  cases entry.check <;> rfl

theorem reported_lineNo {race : Race} {text : Address → String} (reported : a.Reported widening text race) :
    race.lineNo = widening.word (a.line.setWidth 8) := by
  obtain ⟨cpp,s,s',c,report,trace,called,ran,rfl⟩ := reported
  obtain ⟨entry,made⟩ := call_made a widening c.self
  have same := Option.some.inj (called.symm.trans made)
  rw [same] at ran
  rw [invoke_site ran,race_lineNo]

end Calls

-- The line of an access reaches the races that are reported of it, and keeps those of
-- other lines apart, exactly when it is one that the parameter can hold.
theorem line_numbers_survive (widening : Widening) (text : Address → String) (S : Set InstrumentedAccess) :
    ((∀ a ∈ S, ∀ self : ThreadID, ∃ entry addr site, a.call widening self = some ⟨self,.access entry addr site⟩ ∧
        site.lineNo.toInt = a.line.toNat) ∧
      (∀ a ∈ S, ∀ race, a.Reported widening text race → race.lineNo.toInt = a.line.toNat) ∧
      ∀ a ∈ S, ∀ b ∈ S, a.line ≠ b.line → ∀ race race', a.Reported widening text race → b.Reported widening text race' → ¬ SameRace race race') ↔
    ∀ a ∈ S, a.line.toNat < widening.limit := by
  constructor
  · rintro ⟨passed,_⟩ a member
    obtain ⟨entry,addr,site,called,kept⟩ := passed a member 0
    obtain ⟨entry',made⟩ := call_made a widening 0
    cases called.symm.trans made
    exact (word_kept widening a.line).mp kept
  · intro short
    have kept : ∀ a ∈ S, ∀ race, a.Reported widening text race → race.lineNo.toInt = a.line.toNat := by
      intro a member race reported
      rw [reported_lineNo reported]
      exact (word_kept widening a.line).mpr (short a member)
    refine ⟨?_,kept,?_⟩
    · intro a member self
      obtain ⟨entry,made⟩ := call_made a widening self
      exact ⟨entry,_,_,made,(word_kept widening a.line).mpr (short a member)⟩
    · intro a memberA b memberB different race race' reported reported' same
      have left := kept a memberA race reported
      have right := kept b memberB race' reported'
      rw [same.2.1,right] at left
      exact different (BitVec.eq_of_toNat_eq (by omega))

section Merged

def readAt (line : CInt) : InstrumentedAccess :=
  {kind := .load ⟨0,32,4,false,false,true,false,false⟩ false
   location := ⟨line,"queue.c".toList,"/src".toList⟩
   addr := 100
   storedValue := .scalar (.int 32 0)
   objName := 8
   fileName := 16
   instrumented := by decide}

def writtenByFirst : Runtime :=
  {Runtime.ofThreads [1,2] (by decide) with
    Vstates := UnorderedMap.empty.insert 100 ⟨lane 1 + 1,lane 1,[],false⟩
    isConcurrent := 1}

def mergedCall : Call := ⟨2,.access .read4 100 ⟨1,8,16⟩⟩

-- The reads of two lines that are 256 apart make one call, and are reported as one.
theorem lines_merged :
    ((readAt 1).call .zero 2 = some mergedCall ∧ (readAt 257).call .zero 2 = some mergedCall) ∧
    ((readAt 1).call .sign 2 = some mergedCall ∧ (readAt 257).call .sign 2 = some mergedCall) ∧
    (mergedCall.invoke (.checked .leftFirst) writtenByFirst).map Prod.snd = some (some (.reportRaceOnRead ⟨1,8,16⟩)) ∧
    (readAt 1).line = 1 ∧ (readAt 257).line = 257 := by decide

end Merged

end EmbedSanitizer
