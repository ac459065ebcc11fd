import Mathlib.Algebra.Group.Nat.Defs
import Mathlib.Data.BitVec
import Mathlib.Data.List.Basic

/-! Ranges of machine addresses, which go on at zero behind the last address. -/

structure Arc (w : Nat) where
  start : BitVec w
  length : Nat

namespace Arc
variable {w : Nat} {a b : Arc w} {x : BitVec w}

def Mem (a : Arc w) (x : BitVec w) : Prop := (x - a.start).toNat < a.length

instance (a : Arc w) (x : BitVec w) : Decidable (a.Mem x) :=
  inferInstanceAs (Decidable ((x - a.start).toNat < a.length))

def Disjoint (a b : Arc w) : Prop := ∀ x, a.Mem x → ¬ b.Mem x

theorem Disjoint.symm (h : a.Disjoint b) : b.Disjoint a := fun x hb ha => h x ha hb

theorem mem_start (h : 0 < a.length) : a.Mem a.start := by
  rw [Mem, BitVec.sub_self, BitVec.toNat_zero]
  exact h

theorem mem_add {n : Nat} (h : n < a.length) : a.Mem (a.start + BitVec.ofNat w n) := by
  rw [Mem, BitVec.add_comm, BitVec.add_sub_cancel, BitVec.toNat_ofNat]
  exact Nat.lt_of_le_of_lt (Nat.mod_le n _) h

theorem mem_of_le (h : a.start.toNat ≤ x.toNat) (hlt : x.toNat < a.start.toNat + a.length) :
    a.Mem x := by
  rw [Mem, BitVec.toNat_sub_of_le (BitVec.le_def.mpr h)]
  omega

/-- A range that goes past the last address holds address zero. -/
theorem mem_zero (h : 2 ^ w < a.start.toNat + a.length) : a.Mem 0#w := by
  have hlt := a.start.isLt
  rw [Mem, BitVec.zero_sub, BitVec.toNat_neg]
  by_cases hzero : a.start.toNat = 0
  · rw [hzero, Nat.sub_zero, Nat.mod_self]
    omega
  · rw [Nat.mod_eq_of_lt (by omega)]
    omega

theorem mem_iff (h : a.start.toNat + a.length ≤ 2 ^ w) :
    a.Mem x ↔ a.start.toNat ≤ x.toNat ∧ x.toNat < a.start.toNat + a.length := by
  constructor
  · intro hmem
    rw [Mem] at hmem
    have hx := x.isLt
    have hstart := a.start.isLt
    by_cases hle : a.start.toNat ≤ x.toNat
    · rw [BitVec.toNat_sub_of_le (BitVec.le_def.mpr hle)] at hmem
      exact ⟨hle, by omega⟩
    · rw [BitVec.toNat_sub, Nat.mod_eq_of_lt (by omega)] at hmem
      omega
  · exact fun hx => mem_of_le hx.1 hx.2

theorem not_mem_of_length_eq_zero (h : a.length = 0) : ¬ a.Mem x := by
  rw [Mem, h]
  exact Nat.not_lt_zero _

theorem disjoint_of_le (h : a.start.toNat + a.length ≤ b.start.toNat)
    (hb : b.start.toNat + b.length ≤ 2 ^ w) : a.Disjoint b := by
  intro x hax hbx
  have hstart := b.start.isLt
  rw [mem_iff (by omega)] at hax
  rw [mem_iff hb] at hbx
  omega

theorem pairwise_disjoint {as : List (Arc w)}
    (horder : as.Pairwise fun a b => a.start.toNat + a.length ≤ b.start.toNat)
    (hlimit : ∀ a ∈ as, a.start.toNat + a.length ≤ 2 ^ w) : as.Pairwise Disjoint := by
  induction horder with
  | nil => exact .nil
  | @cons a as hfirst _ ih =>
    refine .cons (fun b hb => ?_) (ih fun b hb => hlimit b (List.mem_cons_of_mem a hb))
    exact disjoint_of_le (hfirst b hb) (hlimit b (List.mem_cons_of_mem a hb))

end Arc
