import Mathlib.Data.Nat.Basic
import Mathlib.Tactic.Common

namespace EmbedSanitizer

-- int and unsigned int of the 32-bit target: one word, read as signed where the
-- source compares ints.
abbrev CInt := BitVec 32

def TID (x : CInt) : ℕ := ((x &&& 0xFF000000#32) >>> 24).toNat
def CLOCK (x : CInt) : ℕ := (x &&& 0x00FFFFFF#32).toNat
def READ_SHARED : CInt := 0xEFFFFFFF#32

def lane (i : ℕ) : CInt := BitVec.ofNat 32 i <<< 24

def maxInt (x y : CInt) : CInt := if x.slt y then y else x

theorem TID_eq (x : CInt) : TID x = x.toNat / 0x1000000 := by
  have bound := x.isLt
  unfold TID
  rw [BitVec.toNat_ushiftRight,BitVec.toNat_and,Nat.shiftRight_and_distrib,Nat.shiftRight_eq_div_pow]
  have mask : (0xFF000000#32).toNat >>> 24 = 2^8 - 1 := rfl
  rw [mask,Nat.and_two_pow_sub_one_eq_mod]
  omega

theorem CLOCK_eq (x : CInt) : CLOCK x = x.toNat % 0x1000000 := by
  unfold CLOCK
  rw [BitVec.toNat_and]
  exact Nat.and_two_pow_sub_one_eq_mod _ 24

theorem lane_toNat (i : ℕ) : (lane i).toNat = i % 256 * 0x1000000 := by
  unfold lane
  rw [BitVec.toNat_shiftLeft,BitVec.toNat_ofNat,Nat.shiftLeft_eq]
  omega

theorem TID_lt (x : CInt) : TID x < 256 := by
  have bound := x.isLt; rw [TID_eq]; omega

@[simp] theorem TID_lane (i : ℕ) : TID (lane i) = i % 256 := by rw [TID_eq,lane_toNat]; omega
@[simp] theorem CLOCK_lane (i : ℕ) : CLOCK (lane i) = 0 := by rw [CLOCK_eq,lane_toNat]; omega

theorem packed_ext (tid : TID x = TID y) (clock : CLOCK x = CLOCK y) : x = y := by
  rw [TID_eq,TID_eq] at tid
  rw [CLOCK_eq,CLOCK_eq] at clock
  exact BitVec.eq_of_toNat_eq (by omega)

-- Within one lane, comparing ints compares the clocks.
theorem slt_lane (same : TID x = TID y) : x.slt y = true ↔ CLOCK x < CLOCK y := by
  have left := x.isLt
  have right := y.isLt
  rw [TID_eq,TID_eq] at same
  rw [CLOCK_eq,CLOCK_eq,BitVec.slt_iff_toInt_lt,BitVec.toInt_eq_toNat_cond,BitVec.toInt_eq_toNat_cond]
  split <;> split <;> omega

theorem sle_lane (same : TID x = TID y) : x.sle y = true ↔ CLOCK x ≤ CLOCK y := by
  have left := x.isLt
  have right := y.isLt
  rw [TID_eq,TID_eq] at same
  rw [CLOCK_eq,CLOCK_eq,BitVec.sle_iff_toInt_le,BitVec.toInt_eq_toNat_cond,BitVec.toInt_eq_toNat_cond]
  split <;> split <;> omega

theorem sle_maxInt_left (x y : CInt) : x.sle (maxInt x y) = true := by
  unfold maxInt
  split
  · rename_i less
    rw [BitVec.sle_iff_toInt_le]
    exact Int.le_of_lt (BitVec.slt_iff_toInt_lt.mp less)
  · exact BitVec.sle_iff_toInt_le.mpr (Int.le_refl _)

theorem sle_maxInt_right (x y : CInt) : y.sle (maxInt x y) = true := by
  unfold maxInt
  split
  · exact BitVec.sle_iff_toInt_le.mpr (Int.le_refl _)
  · rename_i order
    rw [BitVec.sle_iff_toInt_le]
    exact Int.not_lt.mp (mt BitVec.slt_iff_toInt_lt.mpr order)

theorem TID_maxInt (same : TID x = TID y) : TID (maxInt x y) = TID x := by
  unfold maxInt; split <;> simp [same]

theorem CLOCK_maxInt (same : TID x = TID y) : CLOCK (maxInt x y) = max (CLOCK x) (CLOCK y) := by
  have order := slt_lane same
  unfold maxInt
  split <;> rename_i less
  · exact (Nat.max_eq_right (Nat.le_of_lt (order.mp less))).symm
  · exact (Nat.max_eq_left (Nat.le_of_not_lt (mt order.mpr less))).symm

theorem packed_succ (room : CLOCK x ≠ 0xFFFFFF) : TID (x+1) = TID x ∧ CLOCK (x+1) = CLOCK x + 1 := by
  have bound := x.isLt
  rw [CLOCK_eq] at room
  rw [TID_eq,TID_eq,CLOCK_eq,CLOCK_eq,BitVec.toNat_add]
  have one : (1 : CInt).toNat = 1 := rfl
  rw [one]
  omega

theorem first_tick (i : ℕ) : TID (lane i + 1) = i % 256 ∧ CLOCK (lane i + 1) = 1 := by
  obtain ⟨sameLane,next⟩ := packed_succ (x := lane i) (by rw [CLOCK_lane]; decide)
  exact ⟨sameLane.trans (TID_lane i),by rw [next,CLOCK_lane]⟩

end EmbedSanitizer
