import EmbedSanitizer.DebugInfo
import EmbedSanitizer.RunOnFunction

namespace ThreadSanitizer
open EmbedSanitizer

inductive IRType where
  | void
  | int (bits : ℕ)
  | pointer (bits : ℕ)
  deriving DecidableEq, Repr

structure FunctionType where
  result : IRType
  parameters : List IRType
  deriving DecidableEq, Repr

def int8PtrTy : IRType := .pointer 8
def int8Ty : IRType := .int 8
def OrdTy : IRType := .int 32

def Callback.functionType (IntptrTy : IRType) : Callback → FunctionType
  | .thread _ => ⟨.void,[int8PtrTy]⟩
  | .access .. => ⟨.void,[int8PtrTy,int8Ty,int8PtrTy,int8PtrTy]⟩
  | .vptrUpdate => ⟨.void,[int8PtrTy,int8PtrTy,int8Ty,int8PtrTy,int8PtrTy]⟩
  | .vptrRead => ⟨.void,[int8PtrTy,int8Ty,int8PtrTy,int8PtrTy]⟩
  | .atomicLoad bits => ⟨.int bits,[.pointer bits,OrdTy]⟩
  | .atomicStore bits => ⟨.void,[.pointer bits,.int bits,OrdTy]⟩
  | .atomicRMW _ bits => ⟨.int bits,[.pointer bits,.int bits,OrdTy]⟩
  | .atomicCompareExchange bits => ⟨.int bits,[.pointer bits,.int bits,.int bits,OrdTy,OrdTy]⟩
  | .atomicThreadFence | .atomicSignalFence => ⟨.void,[OrdTy]⟩
  | .memset => ⟨int8PtrTy,[int8PtrTy,.int 32,IntptrTy]⟩
  | .memcpy | .memmove => ⟨int8PtrTy,[int8PtrTy,int8PtrTy,IntptrTy]⟩
  | .funcEntry => ⟨.void,[int8PtrTy]⟩
  | .funcExit | .mainFuncExit | .ignoreThreadBegin | .ignoreThreadEnd => ⟨.void,[]⟩

-- A value of the compiled program; a pointer is the address that it holds in a run.
inductive IRValue where
  | int (bits : ℕ) (v : BitVec bits)
  | pointer (bits : ℕ) (addr : ℕ)
  deriving DecidableEq, Repr

def IRValue.type : IRValue → IRType
  | .int bits _ => .int bits
  | .pointer bits _ => .pointer bits

def createPointerCast : IRValue → IRValue
  | .pointer _ addr => .pointer 8 addr
  | v => v

def createIntToPtr : IRValue → IRValue
  | .int _ v => .pointer 8 v.toNat
  | v => v

-- A cast to a narrower type drops the high bits, signed or not.
def createIntCast (bits : ℕ) (isSigned : Bool) : IRValue → IRValue
  | .int _ v => .int bits (if isSigned then v.signExtend bits else v.setWidth bits)
  | v => v

-- The value operand of a store; where it is a vector, its first element and the rest.
inductive StoredValue where
  | scalar (v : IRValue)
  | vector (first : IRValue) (rest : List IRValue)

def StoredValue.first : StoredValue → IRValue
  | .scalar v | .vector v _ => v

structure MemoryAccess where
  kind : Kind
  location : DebugLoc
  addr : ℕ
  storedValue : StoredValue
  objName : ℕ
  fileName : ℕ

section Arguments
variable (a : MemoryAccess)

def MemoryAccess.pointerArgument : IRValue := .pointer 8 a.addr

def MemoryAccess.storedArgument : IRValue := createPointerCast (createIntToPtr a.storedValue.first)

def MemoryAccess.lineArgument : IRValue := createIntCast 8 false (.int 32 (getLineNumber (some a.location)))

def MemoryAccess.arguments : Callback → List IRValue
  | .vptrUpdate => [a.pointerArgument,a.storedArgument,a.lineArgument,.pointer 8 a.objName,.pointer 8 a.fileName]
  | .vptrRead => [a.pointerArgument,a.lineArgument,.pointer 8 a.objName,.pointer 8 a.fileName]
  | _ => [a.pointerArgument,a.lineArgument,.pointer 8 a.objName,.pointer 8 a.fileName]

def MemoryAccess.insertedCall : Option (Callback × List IRValue) :=
  (loadOrStoreCallback a.kind).map fun callee => (callee,a.arguments callee)

end Arguments

-- What is inserted before a load or a store; one byte is never taken as unaligned.
inductive AccessCallee : Callback → Prop where
  | vptrUpdate : AccessCallee .vptrUpdate
  | vptrRead : AccessCallee .vptrRead
  | access (write unaligned : Bool) (idx : ℕ) (bound : idx < 5) (split : unaligned = true → 0 < idx) :
      AccessCallee (.access write unaligned (1 <<< idx))

section Typing
variable {kind : Kind} {callee : Callback} {a : MemoryAccess} {p : Place} {idx : ℕ}

theorem funcIndex_lt (found : getMemoryAccessFuncIndex p = some idx) : idx < 5 ∧ p.typeSize / 8 = 1 <<< idx := by
  unfold getMemoryAccessFuncIndex at found
  split_ifs at found with size size size size size <;> cases found
  all_goals simp [size]

theorem access_callee (p : Place) (isWrite : Bool) (chosen : loadOrStoreCallback.access p isWrite = some callee) : AccessCallee callee := by
  unfold loadOrStoreCallback.access at chosen
  split at chosen
  · cases chosen
  cases found : getMemoryAccessFuncIndex p with
  | none => rw [found] at chosen; cases chosen
  | some idx =>
    obtain ⟨bound,size⟩ := funcIndex_lt found
    rw [found] at chosen
    dsimp only at chosen
    split at chosen
    · cases chosen; exact .vptrUpdate
    split at chosen
    · cases chosen; exact .vptrRead
    split at chosen
    · cases chosen
      exact .access _ _ idx bound (by simp)
    · rename_i misaligned
      cases chosen
      refine .access _ _ idx bound fun _ => ?_
      rw [size] at misaligned
      cases idx with
      | zero => exact absurd (.inr (.inr (Nat.mod_one _))) misaligned
      | succ idx => exact Nat.succ_pos _

theorem loadOrStore_callee (chosen : loadOrStoreCallback kind = some callee) : AccessCallee callee := by
  cases kind with
  | load p atomic => exact access_callee p false chosen
  | store p atomic => exact access_callee p true chosen
  | _ => cases chosen

theorem stored_pointer (a : MemoryAccess) : ∃ newVal, a.storedArgument = .pointer 8 newVal := by
  unfold MemoryAccess.storedArgument
  cases a.storedValue.first with
  | int bits v => exact ⟨v.toNat,rfl⟩
  | pointer bits addr => exact ⟨addr,rfl⟩

theorem arguments_typed {args : List IRValue} (IntptrTy : IRType) (inserted : a.insertedCall = some (callee,args)) :
    args.map IRValue.type = (callee.functionType IntptrTy).parameters := by
  obtain ⟨c,chosen,same⟩ := Option.map_eq_some_iff.mp inserted
  cases same
  cases loadOrStore_callee chosen with
  | vptrUpdate =>
    obtain ⟨newVal,stored⟩ := stored_pointer a
    unfold MemoryAccess.arguments
    rw [stored]
    rfl
  | vptrRead => rfl
  | access write unaligned idx bound split => rfl

end Typing

end ThreadSanitizer
