import EmbedSanitizer.SyncPlacement

namespace ThreadSanitizer

section Choice

-- Calls end the stretch of code that chooseInstructionsToInstrument looks at.
def Instruction.breaks (i : Instruction) : Bool :=
  match i.kind with
  | .call .. | .invoke .. => true
  | _ => false

def Instruction.isMemIntrinsic (i : Instruction) : Bool := (memIntrinsic i.kind).isSome

def Instruction.isAtomic (i : Instruction) : Bool := (Node.source i false).isAtomic

def Instruction.place (i : Instruction) : Option Place :=
  match i.kind with
  | .load p false | .store p false => some p
  | _ => none

def overwritten (v : Value) : List Instruction → Bool
  | [] => false
  | i :: rest =>
    match i.kind with
    | .store q false => (q.shouldInstrumentReadWriteFromAddress && q.addr == v) || overwritten v rest
    | .call .. | .invoke .. => false
    | _ => overwritten v rest

-- Whether an access is instrumented, in view of what follows it in its block.
def chosen (i : Instruction) (rest : List Instruction) : Bool :=
  match i.kind with
  | .store p false => p.shouldInstrumentReadWriteFromAddress && !p.notCaptured
  | .load p false => p.shouldInstrumentReadWriteFromAddress && !overwritten p.addr rest && !p.addrPointsToConstantData && !p.notCaptured
  | _ => false

def choice : List Instruction → List Instruction
  | [] => []
  | i :: rest => if chosen i rest then i :: choice rest else choice rest

theorem chosen_place {i : Instruction} {rest : List Instruction} (kept : chosen i rest = true) : ∃ p, i.place = some p := by
  unfold chosen at kept
  unfold Instruction.place
  split at kept <;> simp_all

theorem mem_choice {is : List Instruction} {i : Instruction} (member : i ∈ choice is) : i ∈ is ∧ ∃ p, i.place = some p := by
  induction is with
  | nil => cases member
  | cons j rest ih =>
    unfold choice at member
    split at member
    · rename_i kept
      rcases List.mem_cons.mp member with rfl | later
      · exact ⟨List.mem_cons_self,chosen_place kept⟩
      · exact ⟨List.mem_cons_of_mem _ (ih later).1,(ih later).2⟩
    · exact ⟨List.mem_cons_of_mem _ (ih member).1,(ih member).2⟩

end Choice

section Stretches

def Plain (is : List Instruction) : Prop := ∀ i ∈ is, i.place.isSome

theorem place_kind {i : Instruction} (plain : i.place.isSome) : ∃ p, i.kind = .load p false ∨ i.kind = .store p false := by
  unfold Instruction.place at plain
  split at plain
  · exact ⟨_,.inl ‹_›⟩
  · exact ⟨_,.inr ‹_›⟩
  · cases plain

def chooseStep (i : Instruction) (state : List Value × List Instruction) : List Value × List Instruction :=
  match i.kind with
  | .store p _ =>
    if !p.shouldInstrumentReadWriteFromAddress then state
    else if p.notCaptured then (p.addr :: state.1,state.2)
    else (p.addr :: state.1,state.2 ++ [i])
  | .load p _ =>
    if !p.shouldInstrumentReadWriteFromAddress then state
    else if state.1.contains p.addr then state
    else if p.addrPointsToConstantData then state
    else if p.notCaptured then state
    else (state.1,state.2 ++ [i])
  | _ => state

theorem choose_foldr (c : Collected) : chooseInstructionsToInstrument c =
    {c with
      allLoadsAndStores := (c.localLoadsAndStores.foldr chooseStep ([],c.allLoadsAndStores)).2
      localLoadsAndStores := []} := by
  unfold chooseInstructionsToInstrument
  rw [List.foldl_reverse]
  congr 2

theorem chooseStep_load {i : Instruction} {p : Place} (kind : i.kind = .load p false) {rest : List Instruction}
    {targets : List Value} (exactly : ∀ v, targets.contains v = overwritten v rest) (all : List Instruction) :
    chooseStep i (targets,all) = (targets,if chosen i rest then all ++ [i] else all) := by
  simp only [chooseStep,chosen,kind,exactly]
  cases p.shouldInstrumentReadWriteFromAddress <;> cases overwritten p.addr rest <;>
    cases p.addrPointsToConstantData <;> cases p.notCaptured <;> rfl

theorem chooseStep_store {i : Instruction} {p : Place} (kind : i.kind = .store p false) (rest : List Instruction)
    (targets : List Value) (all : List Instruction) : chooseStep i (targets,all) =
      (if p.shouldInstrumentReadWriteFromAddress then p.addr :: targets else targets,if chosen i rest then all ++ [i] else all) := by
  simp only [chooseStep,chosen,kind]
  cases p.shouldInstrumentReadWriteFromAddress <;> cases p.notCaptured <;> rfl

-- Gone through from its end, a stretch has its stores as the write targets and has
-- chosen what is to be chosen of it.
theorem foldr_choice {is : List Instruction} (plain : Plain is) (all : List Instruction) : ∃ targets : List Value,
    is.foldr chooseStep ([],all) = (targets,all ++ (choice is).reverse) ∧ ∀ v, targets.contains v = overwritten v is := by
  induction is with
  | nil => exact ⟨[],by simp [choice],fun v => rfl⟩
  | cons i rest ih =>
    obtain ⟨targets,ran,exactly⟩ := ih fun j member => plain j (List.mem_cons_of_mem _ member)
    have kept : (if chosen i rest then (all ++ (choice rest).reverse) ++ [i] else all ++ (choice rest).reverse) =
        all ++ (choice (i :: rest)).reverse := by
      rw [choice]
      split <;> simp
    rw [List.foldr_cons,ran]
    obtain ⟨p,kind | kind⟩ := place_kind (plain i List.mem_cons_self)
    · rw [chooseStep_load kind exactly,kept]
      exact ⟨targets,rfl,fun v => by simp only [overwritten,kind,exactly]⟩
    · rw [chooseStep_store kind rest,kept]
      refine ⟨_,rfl,fun v => ?_⟩
      simp only [overwritten,kind,← exactly]
      split
      · rename_i open_
        rw [List.contains_cons,open_,Bool.true_and,Bool.beq_comm]
      · rename_i closed
        rw [Bool.eq_false_iff.mpr closed,Bool.false_and,Bool.false_or]

theorem choice_stop {is : List Instruction} (plain : Plain is) {i : Instruction} (breaks : i.breaks = true) (rest : List Instruction) :
    choice (is ++ i :: rest) = choice is ++ choice rest := by
  have ends : ∀ v js, overwritten v (js ++ i :: rest) = overwritten v js := by
    intro v js
    induction js with
    | nil =>
      unfold Instruction.breaks at breaks
      simp only [List.nil_append,overwritten]
      split at breaks <;> simp_all
    | cons j js ih => simp only [List.cons_append,overwritten,ih]
  have unchosen : ∀ js, chosen i js = false := by
    intro js
    unfold Instruction.breaks at breaks
    unfold chosen
    split at breaks <;> simp_all
  induction is with
  | nil => simp [choice,unchosen]
  | cons j is ih =>
    have later := ih fun k member => plain k (List.mem_cons_of_mem _ member)
    have same : chosen j (is ++ i :: rest) = chosen j is := by simp only [chosen,ends]
    simp only [List.cons_append,choice,same,later]
    split <;> rfl

theorem choice_skip {is : List Instruction} {i : Instruction} (other : i.place = none) (goes : i.breaks = false)
    (rest : List Instruction) : choice (is ++ i :: rest) = choice (is ++ rest) := by
  have through : ∀ v js, overwritten v (js ++ i :: rest) = overwritten v (js ++ rest) := by
    intro v js
    induction js with
    | nil =>
      unfold Instruction.breaks at goes
      unfold Instruction.place at other
      simp only [List.nil_append,overwritten]
      split at goes <;> split at other <;> simp_all
    | cons j js ih => simp only [List.cons_append,overwritten,ih]
  have unchosen : ∀ js, chosen i js = false := by
    intro js
    unfold Instruction.place at other
    unfold chosen
    split at other <;> simp_all
  induction is with
  | nil => simp [choice,unchosen]
  | cons j is ih =>
    have same : chosen j (is ++ i :: rest) = chosen j (is ++ rest) := by simp only [chosen,through]
    simp only [List.cons_append,choice,same,ih]

end Stretches
section Collecting

def visited (c : Collected) (block : List Instruction) : Collected := (asNodes block).foldl Collected.visit c

theorem visit_cases (c : Collected) (i : Instruction) :
    (i.isAtomic = true ∧ i.place = none ∧ i.breaks = false ∧ i.isMemIntrinsic = false ∧
      c.visit (.source i false) = {c with atomicAccesses := c.atomicAccesses ++ [i]}) ∨
    (i.isAtomic = false ∧ i.place.isSome ∧ i.breaks = false ∧ i.isMemIntrinsic = false ∧
      c.visit (.source i false) = {c with localLoadsAndStores := c.localLoadsAndStores ++ [i]}) ∨
    (i.isAtomic = false ∧ i.breaks = true ∧ c.visit (.source i false) = chooseInstructionsToInstrument
      {c with memIntrinCalls := c.memIntrinCalls ++ [i].filter Instruction.isMemIntrinsic, hasCalls := true}) ∨
    (i.isAtomic = false ∧ i.place = none ∧ i.breaks = false ∧ i.isMemIntrinsic = false ∧ c.visit (.source i false) = c) := by
  obtain ⟨address,kind⟩ := i
  cases kind with
  | load p atomic => cases atomic <;> simp [Collected.visit,Instruction.isAtomic,Node.isAtomic,Node.isLoadOrStore,Instruction.place,
      Instruction.breaks,Instruction.isMemIntrinsic,memIntrinsic,Node.source?]
  | store p atomic => cases atomic <;> simp [Collected.visit,Instruction.isAtomic,Node.isAtomic,Node.isLoadOrStore,Instruction.place,
      Instruction.breaks,Instruction.isMemIntrinsic,memIntrinsic,Node.source?]
  | call callee args => exact .inr (.inr (.inl ⟨rfl,rfl,rfl⟩))
  | invoke callee args normal unwind => exact .inr (.inr (.inl ⟨rfl,rfl,rfl⟩))
  | _ => simp [Collected.visit,Instruction.isAtomic,Node.isAtomic,Node.isLoadOrStore,Node.callInst,Node.isInvoke,Instruction.place,
      Instruction.breaks,Instruction.isMemIntrinsic,memIntrinsic,Node.source?]

structure Gathered (c : Collected) (block : List Instruction) (c' : Collected) : Prop where
  settled : c'.localLoadsAndStores = []
  accesses : c'.allLoadsAndStores.Perm (c.allLoadsAndStores ++ choice (c.localLoadsAndStores ++ block))
  atomics : c'.atomicAccesses = c.atomicAccesses ++ block.filter Instruction.isAtomic
  intrinsics : c'.memIntrinCalls = c.memIntrinCalls ++ block.filter Instruction.isMemIntrinsic
  calls : c'.hasCalls = (c.hasCalls || block.any Instruction.breaks)

theorem choose_gathered {c : Collected} (plain : Plain c.localLoadsAndStores) : Gathered c [] (chooseInstructionsToInstrument c) := by
  obtain ⟨targets,ran,_⟩ := foldr_choice plain c.allLoadsAndStores
  rw [choose_foldr,ran]
  refine ⟨rfl,?_,by simp,by simp,by simp⟩
  rw [List.append_nil]
  exact (List.reverse_perm _).append_left _

theorem gathered (block : List Instruction) {c : Collected} (plain : Plain c.localLoadsAndStores) :
    Gathered c block (chooseInstructionsToInstrument (visited c block)) := by
  induction block generalizing c with
  | nil => exact choose_gathered plain
  | cons i rest ih =>
    have first : visited c (i :: rest) = visited (c.visit (.source i false)) rest := rfl
    rw [first]
    rcases visit_cases c i with ⟨atomic,other,goes,call,ran⟩ | ⟨atomic,access,goes,call,ran⟩ | ⟨atomic,breaks,ran⟩ |
      ⟨atomic,other,goes,call,ran⟩
    · rw [ran]
      have later := ih (c := {c with atomicAccesses := c.atomicAccesses ++ [i]}) plain
      exact ⟨later.settled,by rw [choice_skip other goes]; exact later.accesses,
        by rw [later.atomics,List.filter_cons_of_pos atomic]; simp,
        by rw [later.intrinsics,List.filter_cons_of_neg (by simp [call])],
        by rw [later.calls,List.any_cons,goes,Bool.false_or]⟩
    · rw [ran]
      have later := ih (c := {c with localLoadsAndStores := c.localLoadsAndStores ++ [i]}) (by
        intro j member
        rcases List.mem_append.mp member with old | new
        · exact plain j old
        · rw [List.mem_singleton.mp new]; exact access)
      exact ⟨later.settled,by simpa using later.accesses,
        by rw [later.atomics,List.filter_cons_of_neg (by simp [atomic])],
        by rw [later.intrinsics,List.filter_cons_of_neg (by simp [call])],
        by rw [later.calls,List.any_cons,goes,Bool.false_or]⟩
    · have here := choose_gathered
        (c := {c with hasCalls := true, memIntrinCalls := c.memIntrinCalls ++ [i].filter Instruction.isMemIntrinsic}) plain
      rw [← ran] at here
      have later := ih (c := c.visit (.source i false)) (by rw [here.settled]; simp [Plain])
      refine ⟨later.settled,later.accesses.trans ?_,?_,?_,?_⟩
      · rw [choice_stop plain breaks,here.settled,List.nil_append,← List.append_assoc]
        exact (by simpa using here.accesses : List.Perm _ _).append_right _
      · rw [later.atomics,here.atomics,List.filter_cons_of_neg (p := Instruction.isAtomic) (by simp [atomic])]
        simp
      · rw [later.intrinsics,here.intrinsics]
        simp only [List.filter_cons,List.filter_nil,List.append_nil,List.append_assoc]
        split <;> simp
      · rw [later.calls,here.calls]
        simp [breaks]
    · rw [ran]
      have later := ih plain
      exact ⟨later.settled,by rw [choice_skip other goes]; exact later.accesses,
        by rw [later.atomics,List.filter_cons_of_neg (by simp [atomic])],
        by rw [later.intrinsics,List.filter_cons_of_neg (by simp [call])],
        by rw [later.calls,List.any_cons,goes,Bool.false_or]⟩

end Collecting
end ThreadSanitizer
