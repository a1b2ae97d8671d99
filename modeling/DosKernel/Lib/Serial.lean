import Mathlib.Tactic.Common

namespace DosKernel.Lib

-- Serial numbers: differences of fixed-width counters read as signed integers.

theorem slt_zero_iff {x : BitVec 32} :
    (0 : BitVec 32).slt x = true ↔ 0 < x.toNat ∧ x.toNat < 2147483648 := by
  rw [BitVec.slt_iff_toInt_lt, BitVec.toInt_eq_toNat_cond, BitVec.toInt_eq_toNat_cond]
  simp only [BitVec.ofNat_eq_ofNat, BitVec.toNat_ofNat]
  split <;> omega

theorem sle_zero_iff {x : BitVec 32} : x.sle 0 = true ↔ x.toNat = 0 ∨ 2147483648 ≤ x.toNat := by
  rw [BitVec.sle_iff_toInt_le, BitVec.toInt_eq_toNat_cond, BitVec.toInt_eq_toNat_cond]
  simp only [BitVec.ofNat_eq_ofNat, BitVec.toNat_ofNat]
  split <;> omega

end DosKernel.Lib
