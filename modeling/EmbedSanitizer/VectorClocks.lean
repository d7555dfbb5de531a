import EmbedSanitizer.Fasttrack

namespace EmbedSanitizer

-- A vector stands for an unbounded clock: a missing entry i counts as i << 24.
def meaning (V : VectorClock) (i : ℕ) : CInt := V[i]?.getD (lane i)

def count (V : VectorClock) (i : ℕ) : ℕ := CLOCK (meaning V i)

def Lanes (V : VectorClock) : Prop := ∀ i, TID (meaning V i) = i % 256

def InLanes (V : VectorClock) : Prop := ∀ i x, V[i]? = some x → TID x = i

theorem meaning_in {V : VectorClock} (bound : i < V.length) : V[i]? = some (meaning V i) := by
  unfold meaning; rw [List.getElem?_eq_getElem bound]; rfl
theorem meaning_out {V : VectorClock} (beyond : V.length ≤ i) : meaning V i = lane i := by
  unfold meaning; rw [List.getElem?_eq_none beyond]; rfl

theorem inLanes_iff {V : VectorClock} : InLanes V ↔ Lanes V ∧ V.length ≤ 256 := by
  constructor
  · intro entries
    have short : V.length ≤ 256 := by
      by_contra long
      have beyond : 256 < V.length := Nat.lt_of_not_le long
      have own := entries 256 _ (meaning_in beyond)
      have less := TID_lt (meaning V 256)
      omega
    refine ⟨fun i => ?_,short⟩
    rcases Nat.lt_or_ge i V.length with inside | outside
    · rw [entries i _ (meaning_in inside)]
      exact (Nat.mod_eq_of_lt (by omega)).symm
    · rw [meaning_out outside]
      exact TID_lane i
  · intro ⟨lanes,short⟩ i x found
    have inside := (List.getElem?_eq_some_iff.mp found).1
    rw [meaning_in inside] at found
    cases found
    rw [lanes i]
    exact Nat.mod_eq_of_lt (by omega)

theorem lanes_iff_inside {V : VectorClock} : Lanes V ↔ ∀ i < V.length, TID (meaning V i) = i % 256 := by
  constructor
  · exact fun lanes i _ => lanes i
  · intro inside i
    rcases Nat.lt_or_ge i V.length with bound | outside
    · exact inside i bound
    · rw [meaning_out outside,TID_lane]

instance (V : VectorClock) : Decidable (Lanes V) := decidable_of_iff _ lanes_iff_inside.symm
instance (V : VectorClock) : Decidable (InLanes V) := decidable_of_iff _ inLanes_iff.symm

theorem get_in (cpp : Cpp) {V : VectorClock} (bound : i < V.length) : cpp.get V i = some (meaning V i) := by
  unfold Cpp.get; rw [meaning_in bound]
theorem set_in (cpp : Cpp) {V : VectorClock} (bound : i < V.length) (x : CInt) :
    cpp.set V i x = some (V.set i x) := by unfold Cpp.set; rw [if_pos bound]

theorem meaning_set {V : VectorClock} (bound : i < V.length) (x : CInt) (j : ℕ) :
    meaning (V.set i x) j = if j = i then x else meaning V j := by
  unfold meaning
  by_cases same : j = i
  · subst same; simp [bound]
  · simp [same,List.getElem?_set_ne (Ne.symm same)]

-- A loop that stores y i at every slot i below n, where the value may be computed
-- from what slot i held at the start.
theorem store_loop (cpp : Cpp) (value : VectorClock → ℕ → Option CInt) (y : ℕ → CInt) (V : VectorClock) (n : ℕ)
    (inRange : n ≤ V.length)
    (computed : ∀ U i, i < n → U.length = V.length → U[i]? = V[i]? → value U i = some (y i)) :
    ∃ U, (List.range n).foldlM (fun U i => do let x ← value U i; cpp.set U i x) V = some U ∧
      U.length = V.length ∧ ∀ i, U[i]? = if i < n then some (y i) else V[i]? := by
  induction n with
  | zero => exact ⟨V,rfl,rfl,by simp⟩
  | succ n ih =>
    obtain ⟨U,ran,length,entries⟩ := ih (Nat.le_of_succ_le inRange)
      (fun U i less => computed U i (Nat.lt_succ_of_lt less))
    have bound : n < U.length := by omega
    refine ⟨U.set n (y n),?_,by simpa using length,?_⟩
    · rw [List.range_succ,List.foldlM_append,ran]
      have now := computed U n (Nat.lt_succ_self n) length (by rw [entries]; simp)
      simp [now,set_in cpp bound]
    · intro i
      rcases Nat.lt_trichotomy i n with less | rfl | more
      · rw [List.getElem?_set_ne (by omega),entries]
        simp [less,Nat.lt_succ_of_lt less]
      · simp [bound]
      · rw [List.getElem?_set_ne (by omega),entries]
        simp [Nat.not_lt_of_lt more,show ¬ i < n + 1 by omega]

theorem meaning_loop {U V : VectorClock} {y : ℕ → CInt} (entries : ∀ i, U[i]? = if i < n then some (y i) else V[i]?) (i : ℕ) :
    meaning U i = if i < n then y i else meaning V i := by
  unfold meaning; rw [entries]; split <;> rfl

theorem extend_length (C : VectorClock) (n : ℕ) : (extendVectorClock C n).length = max C.length n := by
  simp [extendVectorClock]; omega

theorem extend_le (C : VectorClock) (n : ℕ) : C.length ≤ (extendVectorClock C n).length := by
  rw [extend_length]; exact Nat.le_max_left _ _

theorem meaning_extend (C : VectorClock) (n i : ℕ) : meaning (extendVectorClock C n) i = meaning C i := by
  unfold meaning extendVectorClock
  rcases Nat.lt_or_ge i C.length with inside | outside
  · rw [List.getElem?_append_left inside]
  · rw [List.getElem?_append_right outside,List.getElem?_map,List.getElem?_eq_none outside]
    rcases Nat.lt_or_ge (i - C.length) (n - C.length) with added | beyond
    · rw [List.getElem?_range' added]
      simp [show C.length + (i - C.length) = i by omega]
    · rw [List.getElem?_eq_none (by simpa using beyond)]; rfl

theorem newVectorClock_spec (cpp : Cpp) (VC : VectorClock) (size : ℕ) :
    ∃ V, newVectorClock cpp VC size = some V ∧ V.length = size ∧ ∀ i, meaning V i = lane i := by
  have length : (resize VC size).length = size := by simp [resize]; omega
  obtain ⟨V,ran,sameLength,entries⟩ := store_loop cpp (fun _ i => some (lane i)) lane (resize VC size) size
    (Nat.le_of_eq length.symm) (fun _ _ _ _ _ => rfl)
  refine ⟨V,ran,sameLength.trans length,fun i => ?_⟩
  rw [meaning_loop entries]
  split
  · rfl
  · rename_i outside; exact meaning_out (by omega)

theorem joinInto_spec (cpp : Cpp) {C D : VectorClock} (same : C.length = D.length) :
    ∃ V, joinInto cpp C.length C D = some V ∧ V.length = C.length ∧
      ∀ i, meaning V i = maxInt (meaning C i) (meaning D i) := by
  obtain ⟨V,ran,length,entries⟩ := store_loop cpp
    (fun U i => do let c ← cpp.get U i; let d ← cpp.get D i; some (maxInt c d))
    (fun i => maxInt (meaning C i) (meaning D i)) C C.length (Nat.le_refl _) (by
      intro U i less length entry
      have held : meaning U i = meaning C i := by unfold meaning; rw [entry]
      simp [get_in cpp (show i < U.length by omega),get_in cpp (show i < D.length by omega),held])
  refine ⟨V,by simpa [joinInto,Option.bind_assoc] using ran,length,fun i => ?_⟩
  rw [meaning_loop entries]
  split
  · rfl
  · rename_i outside
    rw [meaning_out (show C.length ≤ i by omega),meaning_out (show D.length ≤ i by omega)]
    simp [maxInt]

theorem copyInto_spec (cpp : Cpp) {C D : VectorClock} (same : C.length = D.length) :
    ∃ V, copyInto cpp C.length C D = some V ∧ V.length = C.length ∧ ∀ i, meaning V i = meaning D i := by
  obtain ⟨V,ran,length,entries⟩ := store_loop cpp (fun _ i => cpp.get D i) (meaning D) C C.length
    (Nat.le_refl _) (fun U i less _ _ => get_in cpp (by omega))
  refine ⟨V,ran,length,fun i => ?_⟩
  rw [meaning_loop entries]
  split
  · rfl
  · rename_i outside
    rw [meaning_out (show C.length ≤ i by omega),meaning_out (show D.length ≤ i by omega)]

structure ThreadState.Valid (t : ThreadState) : Prop where
  room : t.tid < t.C.length
  epoch : t.epoch = meaning t.C t.tid

theorem updateEpoch_spec (cpp : Cpp) {t : ThreadState} (room : t.tid < t.C.length) :
    t.updateEpoch cpp = some {t with epoch := meaning t.C t.tid} := by
  simp [ThreadState.updateEpoch,get_in cpp room]

theorem increment_spec (cpp : Cpp) {t : ThreadState} (room : t.tid < t.C.length) :
    t.increment cpp = some {t with C := t.C.set t.tid (t.epoch + 1), epoch := t.epoch + 1} := by
  have kept : t.tid < (t.C.set t.tid (t.epoch + 1)).length := by simpa using room
  simp only [ThreadState.increment]
  rw [set_in cpp room,Option.bind_eq_bind,Option.bind_some,get_in cpp kept,meaning_set room]
  simp

section Operations
variable (cpp : Cpp) {t u : ThreadState}

theorem extended_same (C D : VectorClock) : (extendVectorClock C (max C.length D.length)).length =
    (extendVectorClock D (max C.length D.length)).length := by simp only [extend_length]; omega

theorem ftAcquire_spec (lock : LockState) (room : t.tid < t.C.length) : ∃ t' lock', ftAcquire cpp t lock = some (t',lock') ∧
    t'.tid = t.tid ∧ t'.Valid ∧ t.C.length ≤ t'.C.length ∧
    (∀ i, meaning t'.C i = maxInt (meaning t.C i) (meaning lock.L i)) ∧
    ∀ i, meaning lock'.L i = meaning lock.L i := by
  let size := max t.C.length lock.L.length
  have same := extended_same t.C lock.L
  obtain ⟨V,joined,length,entries⟩ := joinInto_spec cpp same
  have grown : t.C.length ≤ V.length := by rw [length]; exact extend_le _ _
  have bound : t.tid < V.length := Nat.lt_of_lt_of_le room grown
  refine ⟨{t with C := V, epoch := meaning V t.tid},{lock with L := extendVectorClock lock.L size},?_,rfl,
    ⟨bound,rfl⟩,grown,?_,meaning_extend _ _⟩
  · rw [same] at joined
    simp [ftAcquire,extendVectorClocks,size,joined,updateEpoch_spec cpp (t := {t with C := V}) bound]
  · intro i; simp [entries,meaning_extend]

theorem ftRelease_spec (lock : LockState) (room : t.tid < t.C.length) : ∃ t' lock', ftRelease cpp t lock = some (t',lock') ∧
    t'.tid = t.tid ∧ t'.Valid ∧ t.C.length ≤ t'.C.length ∧
    (∀ i, meaning t'.C i = if i = t.tid then meaning t.C t.tid + 1 else meaning t.C i) ∧
    ∀ i, meaning lock'.L i = meaning t.C i := by
  let C := extendVectorClock t.C (max t.C.length lock.L.length)
  obtain ⟨V,copied,length,entries⟩ := copyInto_spec cpp (extended_same t.C lock.L).symm
  have grown : t.C.length ≤ C.length := extend_le _ _
  have bound : t.tid < C.length := Nat.lt_of_lt_of_le room grown
  have epoch : meaning C t.tid = meaning t.C t.tid := meaning_extend _ _ _
  let next := meaning t.C t.tid + 1
  refine ⟨{t with C := C.set t.tid next, epoch := next},{lock with L := V},?_,rfl,
    ⟨by simpa using bound,by simp [meaning_set bound]⟩,by simpa using grown,?_,?_⟩
  · simp only [ftRelease,extendVectorClocks,copied,Option.bind_eq_bind,Option.bind_some]
    rw [updateEpoch_spec cpp (t := {t with C := C}) bound,Option.bind_some,
      increment_spec cpp (t := {t with C := C, epoch := meaning C t.tid}) bound]
    simp [epoch,next]
  · intro i; simp [meaning_set bound,C,meaning_extend,next]
  · intro i; rw [entries,meaning_extend]

theorem ftFork_spec (room : t.tid < t.C.length) (roomU : u.tid < u.C.length) : ∃ t' u', ftFork cpp t u = some (t',u') ∧
    t'.tid = t.tid ∧ u'.tid = u.tid ∧ t'.Valid ∧ u'.Valid ∧ t.C.length ≤ t'.C.length ∧ u.C.length ≤ u'.C.length ∧
    (∀ i, meaning t'.C i = if i = t.tid then t.epoch + 1 else meaning t.C i) ∧
    ∀ i, meaning u'.C i = maxInt (meaning u.C i) (meaning t.C i) := by
  let C := extendVectorClock t.C (max t.C.length u.C.length)
  obtain ⟨V,joined,length,entries⟩ := joinInto_spec cpp (extended_same t.C u.C).symm
  have grown : t.C.length ≤ C.length := extend_le _ _
  have grownU : u.C.length ≤ V.length := by rw [length]; exact extend_le _ _
  have bound : t.tid < C.length := Nat.lt_of_lt_of_le room grown
  have boundU : u.tid < V.length := Nat.lt_of_lt_of_le roomU grownU
  refine ⟨{t with C := C.set t.tid (t.epoch + 1), epoch := t.epoch + 1},{u with C := V, epoch := meaning V u.tid},
    ?_,rfl,rfl,⟨by simpa using bound,by simp [meaning_set bound]⟩,⟨boundU,rfl⟩,by simpa using grown,grownU,?_,?_⟩
  · simp only [ftFork,extendVectorClocks,joined,Option.bind_eq_bind,Option.bind_some]
    rw [updateEpoch_spec cpp (t := {u with C := V}) boundU,Option.bind_some,
      increment_spec cpp (t := {t with C := C}) bound,Option.bind_some]
  · intro i; simp [meaning_set bound,C,meaning_extend]
  · intro i; simp [entries,meaning_extend]

theorem ftJoin_spec (room : t.tid < t.C.length) (roomU : u.tid < u.C.length) : ∃ t' u', ftJoin cpp t u = some (t',u') ∧
    t'.tid = t.tid ∧ u'.tid = u.tid ∧ t'.Valid ∧ u'.Valid ∧ t.C.length ≤ t'.C.length ∧ u.C.length ≤ u'.C.length ∧
    (∀ i, meaning t'.C i = maxInt (meaning t.C i) (meaning u.C i)) ∧
    ∀ i, meaning u'.C i = if i = u.tid then u.epoch + 1 else meaning u.C i := by
  let D := extendVectorClock u.C (max t.C.length u.C.length)
  obtain ⟨V,joined,length,entries⟩ := joinInto_spec cpp (extended_same t.C u.C)
  have grown : t.C.length ≤ V.length := by rw [length]; exact extend_le _ _
  have grownU : u.C.length ≤ D.length := extend_le _ _
  have bound : t.tid < V.length := Nat.lt_of_lt_of_le room grown
  have boundU : u.tid < D.length := Nat.lt_of_lt_of_le roomU grownU
  refine ⟨{t with C := V, epoch := meaning V t.tid},{u with C := D.set u.tid (u.epoch + 1), epoch := u.epoch + 1},
    ?_,rfl,rfl,⟨bound,rfl⟩,⟨by simpa using boundU,by simp [meaning_set boundU]⟩,grown,by simpa using grownU,?_,?_⟩
  · simp only [ftJoin,extendVectorClocks,joined,Option.bind_eq_bind,Option.bind_some]
    rw [updateEpoch_spec cpp (t := {t with C := V}) bound,Option.bind_some,
      increment_spec cpp (t := {u with C := D}) boundU,Option.bind_some]
  · intro i; simp [entries,meaning_extend]
  · intro i; simp [meaning_set boundU,D,meaning_extend]

theorem ftSelf_spec (room : t.tid < t.C.length) : ∃ t', ftSelf cpp t = some t' ∧
    t'.tid = t.tid ∧ t'.Valid ∧ t.C.length ≤ t'.C.length ∧
    ∀ i, meaning t'.C i = if i = t.tid then meaning t.C t.tid + 1 else meaning t.C i := by
  obtain ⟨V,joined,length,entries⟩ := joinInto_spec cpp (C := t.C) rfl
  have entries : ∀ i, meaning V i = meaning t.C i := by intro i; simp [entries,maxInt]
  have bound : t.tid < V.length := by omega
  let next := meaning t.C t.tid + 1
  refine ⟨{t with C := V.set t.tid next, epoch := next},?_,rfl,⟨by simpa using bound,by simp [meaning_set bound]⟩,
    by simp [length],?_⟩
  · simp only [ftSelf,joined,Option.bind_eq_bind,Option.bind_some]
    rw [updateEpoch_spec cpp (t := {t with C := V}) bound,Option.bind_some,
      increment_spec cpp (t := {t with C := V, epoch := meaning V t.tid}) bound]
    simp [entries,next]
  · intro i; simp [meaning_set bound,entries,next]

end Operations
end EmbedSanitizer
