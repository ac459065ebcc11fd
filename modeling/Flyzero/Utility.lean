import Mathlib.Data.BitVec

/-! `next_pow2` of `utility.h`, with the cases C leaves undefined. -/
namespace Flyzero.Utility

/-- `__builtin_clzll` is undefined on zero. -/
def clzll (n : BitVec 64) : Option Nat := if n = 0#64 then none else some n.clz.toNat

/-- A shift by the width of the operand or more is undefined. -/
def shiftLeft (n : BitVec 64) (count : Nat) : Option (BitVec 64) :=
  if count < 64 then some (n <<< count) else none

def nextPow2 (n : BitVec 64) : Option (BitVec 64) :=
  if n = 0#64 then some 1#64 else (clzll (n - 1#64)).bind fun z => shiftLeft 1#64 (64 - z)

theorem one_shiftLeft (k : Nat) : 1#64 <<< k = BitVec.ofNat 64 (2 ^ k) := by
  apply BitVec.eq_of_toNat_eq
  rw [BitVec.toNat_shiftLeft, BitVec.toNat_ofNat, BitVec.toNat_ofNat, Nat.shiftLeft_eq]
  simp

theorem nextPow2_pow {n p : BitVec 64} (h : nextPow2 n = some p) :
    ∃ k ≤ 63, p = BitVec.ofNat 64 (2 ^ k) := by
  unfold nextPow2 at h
  split at h
  · cases h
    exact ⟨0, Nat.zero_le _, rfl⟩
  · obtain ⟨z, -, hshift⟩ := Option.bind_eq_some_iff.mp h
    obtain ⟨hlt, hp⟩ := Option.ite_none_right_eq_some.mp hshift
    cases hp
    exact ⟨64 - z, by omega, one_shiftLeft _⟩

/-- From 2 to `2 ^ 63`, the least power of two that is not below the argument. -/
theorem nextPow2_eq {n : BitVec 64} (hlo : 2 ≤ n.toNat) (hhi : n.toNat ≤ 2 ^ 63) :
    ∃ k, nextPow2 n = some (BitVec.ofNat 64 (2 ^ k)) ∧ 1 ≤ k ∧ k ≤ 63 ∧ n.toNat ≤ 2 ^ k ∧
      2 ^ k < 2 * n.toNat := by
  have hpred : (n - 1#64).toNat = n.toNat - 1 :=
    BitVec.toNat_sub_of_le (by rw [BitVec.le_def, BitVec.toNat_ofNat]; omega)
  have hn : n ≠ 0#64 := fun h => by simp [h] at hlo
  have hpred0 : n - 1#64 ≠ 0#64 := fun h => by simp [h] at hpred; omega
  have hlow := BitVec.two_pow_sub_clz_le_toNat_of_ne_zero (x := n - 1#64) (by decide) hpred0
  have hhigh := BitVec.toNat_lt_two_pow_sub_clz (x := n - 1#64)
  -- the top bit is clear, so at least one zero leads
  have hzero := (BitVec.clz_eq_zero_iff (x := n - 1#64) (by decide)).not.mpr (by omega)
  have hclz := BitVec.lt_def.mp (BitVec.clz_lt_iff_ne_zero.mpr hpred0)
  obtain ⟨z, hz⟩ : ∃ z, (n - 1#64).clz.toNat = z := ⟨_, rfl⟩
  have hz64 : z < 64 := by
    rw [← hz]
    exact hclz
  rw [hz] at hlow hhigh hzero
  refine ⟨64 - z, ?_, by omega, by omega, by omega, ?_⟩
  · rw [nextPow2, if_neg hn, clzll, if_neg hpred0, Option.bind_some, hz, shiftLeft,
      if_pos (by omega), one_shiftLeft]
  · have hsucc : 2 ^ (64 - z) = 2 * 2 ^ (64 - 1 - z) := by
      rw [← Nat.pow_succ', show (64 - 1 - z).succ = 64 - z by omega]
    omega

end Flyzero.Utility
