import Mathlib.Algebra.BigOperators.Group.Finset.Basic
import Mathlib.Order.Interval.Finset.Nat

/-! Intervals of natural numbers that do not overlap. -/
namespace Intervals

/-- Intervals of length `s` that fill an interval leave no gap at its start. -/
theorem exists_eq_start {lo n s count : Nat} (p : Nat → Nat) (hs : 0 < s) (hcount : 0 < count)
    (hin : ∀ i < count, lo ≤ p i ∧ p i + s ≤ lo + n)
    (hdisjoint : ∀ i < count, ∀ j < i, p j + s ≤ p i ∨ p i + s ≤ p j) (hn : n ≤ count * s) :
    ∃ i < count, p i = lo := by
  let cover := (Finset.range count).biUnion fun i => Finset.Ico (p i) (p i + s)
  have hpairwise : ∀ i ∈ Finset.range count, ∀ j ∈ Finset.range count, i ≠ j →
      Disjoint (Finset.Ico (p i) (p i + s)) (Finset.Ico (p j) (p j + s)) := by
    intro i hi j hj hne
    have hi := Finset.mem_range.mp hi
    have hj := Finset.mem_range.mp hj
    have hapart : p j + s ≤ p i ∨ p i + s ≤ p j := by
      rcases Nat.lt_or_gt_of_ne hne with h | h
      · exact (hdisjoint j hj i h).symm
      · exact hdisjoint i hi j h
    rw [Finset.disjoint_left]
    intro x hx hx'
    have hx := Finset.mem_Ico.mp hx
    have hx' := Finset.mem_Ico.mp hx'
    omega
  have hcard : cover.card = count * s := by
    rw [Finset.card_biUnion hpairwise]
    simp
  have hsub : cover ⊆ Finset.Ico lo (lo + n) := by
    intro x hx
    obtain ⟨i, hi, hx⟩ := Finset.mem_biUnion.mp hx
    have hi := hin i (Finset.mem_range.mp hi)
    have hx := Finset.mem_Ico.mp hx
    exact Finset.mem_Ico.mpr (by omega)
  have heq : cover = Finset.Ico lo (lo + n) :=
    Finset.eq_of_subset_of_card_le hsub (by rw [hcard, Nat.card_Ico]; omega)
  have hstart : lo ∈ cover := by
    have h0 := hin 0 hcount
    rw [heq]
    exact Finset.mem_Ico.mpr (by omega)
  obtain ⟨i, hi, hlo⟩ := Finset.mem_biUnion.mp hstart
  have hi := Finset.mem_range.mp hi
  have hlo := Finset.mem_Ico.mp hlo
  have hin := hin i hi
  exact ⟨i, hi, by omega⟩

end Intervals
