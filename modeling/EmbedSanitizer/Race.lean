import EmbedSanitizer.Defs
import Mathlib.Data.String.Basic
import Mathlib.Order.RelClasses

namespace EmbedSanitizer

-- A std::string is a String with one character for each byte.
structure Race where
  tid : ThreadID
  lineNo : CInt
  accessType : String
  objName : String
  fileName : String
  trace : List Address
  isMessageCreated : Bool
  deriving DecidableEq, Repr

def Race.make (tid : ThreadID) (lineNo : CInt) (accessType objName fileName : String) : Race :=
  ⟨tid,lineNo,accessType,objName,fileName,[],false⟩

section Messages
variable (text : Address → String)

-- The call stack of a race, four columns deeper with each function; text reads the
-- name that a char pointer leads to.
def printStackFrom (depth : ℕ) : List Address → String
  | [] => ""
  | func :: rest => String.ofList (List.replicate depth ' ') ++ " '--->" ++ text func ++ "(...)\n" ++ printStackFrom (depth + 4) rest

def Race.printStack (race : Race) : String := printStackFrom text 1 race.trace

def Race.message (race : Race) : String :=
  "=============================================\n" ++
  "\x1b[1;32mEMBEDSANITIZER Race report\x1b[m\n" ++
  "\x1b[1;31m A race detected at: " ++ race.fileName ++ "\x1b[m\n" ++
  "  At line number: " ++ toString race.lineNo.toInt ++ "\n" ++
  "  Thread (tid=" ++ toString race.tid.toNat ++ ") " ++
  race.accessType ++ " \"" ++ race.objName ++ "\"     \n" ++
  "                                             \n" ++
  "\x1b[1;33m Call stack:   \x1b[m              \n" ++
  race.printStack text ++
  "=============================================\n"

-- The race with its new flag, the text it is appended to, and whether the message
-- had been created before.
def Race.createRaceMessage (race : Race) (msg : String) : Race × String × Bool :=
  if race.isMessageCreated then (race,msg,true)
  else ({race with isMessageCreated := true},msg ++ race.message text,false)

def Holds (msg : String) : List String → Prop
  | [] => True
  | part :: rest => ∃ before after, msg = before ++ part ++ after ∧ Holds after rest

def Race.parts (race : Race) : List String :=
  [race.fileName,toString race.lineNo.toInt,toString race.tid.toNat,race.accessType,race.objName] ++ race.trace.map text

theorem holds_skip {parts : List String} (before : String) (holds : Holds msg parts) : Holds (before ++ msg) parts := by
  cases parts with
  | nil => trivial
  | cons part rest =>
    obtain ⟨between,after,rfl,later⟩ := holds
    exact ⟨before ++ between,after,by simp only [String.append_assoc],later⟩

theorem holds_next {parts : List String} (part : String) (holds : Holds msg parts) : Holds (part ++ msg) (part :: parts) :=
  ⟨"",msg,by rw [String.empty_append],holds⟩

theorem printStackFrom_holds (depth : ℕ) (trace : List Address) (rest : String) :
    Holds (printStackFrom text depth trace ++ rest) (trace.map text) := by
  induction trace generalizing depth with
  | nil => trivial
  | cons func trace ih =>
    simp only [printStackFrom,String.append_assoc,List.map_cons]
    exact holds_skip _ (holds_skip _ (holds_next _ (holds_skip _ (ih _))))

theorem message_holds (race : Race) : Holds (race.message text) (race.parts text) := by
  unfold Race.message Race.parts
  simp only [String.append_assoc]
  refine holds_skip _ (holds_skip _ (holds_skip _ (holds_next _ ?_)))
  refine holds_skip _ (holds_skip _ ?_)
  refine holds_next _ ?_
  refine holds_skip _ (holds_skip _ ?_)
  refine holds_next _ ?_
  refine holds_skip _ (holds_next _ (holds_skip _ (holds_next _ ?_)))
  refine holds_skip _ (holds_skip _ (holds_skip _ ?_))
  exact printStackFrom_holds text 1 race.trace _

end Messages

def boolOf (n : CInt) : Bool := n != 0

def raceCompare (lhs rhs : Race) : Bool :=
  if lhs.fileName = rhs.fileName then
    if lhs.lineNo.slt rhs.lineNo then boolOf (-1)
    else if rhs.lineNo.slt lhs.lineNo then boolOf 1
    else if lhs.accessType = rhs.accessType then boolOf 0
    else boolOf (-1)
  else decide (lhs.fileName < rhs.fileName)

def SameRace (lhs rhs : Race) : Prop :=
  lhs.fileName = rhs.fileName ∧ lhs.lineNo = rhs.lineNo ∧ lhs.accessType = rhs.accessType

section Comparison
variable {lhs rhs : Race}

theorem slt_connected {x y : CInt} (less : ¬ x.slt y = true) (more : ¬ y.slt x = true) : x = y := by
  rw [BitVec.slt_iff_toInt_lt] at less more
  exact BitVec.eq_of_toInt_eq (by omega)

theorem slt_ne {x y : CInt} (less : x.slt y = true) : x ≠ y := by
  rintro rfl
  rw [BitVec.slt_iff_toInt_lt] at less
  omega

theorem raceCompare_same_file (file : lhs.fileName = rhs.fileName) :
    raceCompare lhs rhs = true ↔ ¬ (lhs.lineNo = rhs.lineNo ∧ lhs.accessType = rhs.accessType) := by
  unfold raceCompare
  rw [if_pos file]
  by_cases less : lhs.lineNo.slt rhs.lineNo = true
  · have other := slt_ne less
    simp [less,other,boolOf]
  rw [if_neg less]
  by_cases more : rhs.lineNo.slt lhs.lineNo = true
  · have other := Ne.symm (slt_ne more)
    simp [more,other,boolOf]
  rw [if_neg more]
  have line := slt_connected less more
  by_cases access : lhs.accessType = rhs.accessType
  · simp [line,access,boolOf]
  · simp [access,boolOf]

theorem raceCompare_other_file (file : lhs.fileName ≠ rhs.fileName) : raceCompare lhs rhs = true ↔ lhs.fileName < rhs.fileName := by
  unfold raceCompare
  rw [if_neg file,decide_eq_true_iff]

end Comparison

-- The races of S are ordered as std::set needs them exactly when each file has at
-- most one line and one kind of access among them.
theorem race_compare_orders (S : Set Race) :
    (IsStrictWeakOrder S (fun a b => raceCompare a b = true) ∧
      ∀ a b : S, (¬ raceCompare a b = true ∧ ¬ raceCompare b a = true) ↔ SameRace a b) ↔
    ∀ a b : S, a.val.fileName = b.val.fileName → a.val.lineNo = b.val.lineNo ∧ a.val.accessType = b.val.accessType := by
  constructor
  · rintro ⟨order,_⟩ a b file
    by_contra differ
    have less := (raceCompare_same_file file).mpr differ
    have more := (raceCompare_same_file file.symm).mpr fun same => differ ⟨same.1.symm,same.2.symm⟩
    have both : raceCompare a a = true := order.trans a b a less more
    exact order.irrefl a both
  · intro alone
    have byFile : ∀ a b : S, raceCompare a b = true ↔ a.val.fileName < b.val.fileName := by
      intro a b
      by_cases file : a.val.fileName = b.val.fileName
      · rw [raceCompare_same_file file,not_iff_comm,file]
        simpa using alone a b file
      · exact raceCompare_other_file file
    constructor
    · have relation : (fun a b : S => raceCompare a b = true) = Order.Preimage (fun a : S => a.val.fileName) (· < ·) :=
        funext fun a => funext fun b => propext (byFile a b)
      have names : IsStrictWeakOrder String (· < ·) := isStrictWeakOrder_of_isOrderConnected
      rw [relation]
      infer_instance
    · intro a b
      rw [byFile,byFile,not_lt,not_lt]
      constructor
      · intro ⟨notLess,notMore⟩
        have file := le_antisymm notMore notLess
        exact ⟨file,alone a b file⟩
      · intro ⟨file,_⟩
        exact ⟨le_of_eq file.symm,le_of_eq file⟩

theorem lines_before_each_other :
    raceCompare (.make 1 1 "read" "x" "some_file.cpp") (.make 1 2 "read" "x" "some_file.cpp") = true ∧
    raceCompare (.make 1 2 "read" "x" "some_file.cpp") (.make 1 1 "read" "x" "some_file.cpp") = true ∧
    ¬ IsStrictWeakOrder Race (fun a b => raceCompare a b = true) := by
  refine ⟨by decide,by decide,fun order => ?_⟩
  have both := order.trans (.make 1 1 "read" "x" "some_file.cpp") (.make 1 2 "read" "x" "some_file.cpp")
    (.make 1 1 "read" "x" "some_file.cpp") (by decide) (by decide)
  exact order.irrefl _ both

end EmbedSanitizer
