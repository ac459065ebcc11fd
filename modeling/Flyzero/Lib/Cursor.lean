import Mathlib.Data.List.Basic

/-! A list that is read from the front while elements are added and removed. -/
namespace Cursor
variable {α : Type*} [DecidableEq α] {xs read : List α} {next : Nat} {x y : α}

/-- The elements behind one that has been read and is removed move up, past the reader. -/
theorem drop_erase_of_mem (h : x ∈ xs.take next) : (xs.erase x).drop next = xs.drop (next + 1) := by
  induction xs generalizing next with
  | nil => simp
  | cons y ys ih =>
    cases next with
    | zero => simp at h
    | succ next =>
      by_cases hxy : y = x
      · subst hxy
        simp
      · have hrest : x ∈ ys.take next := by simpa [Ne.symm hxy] using h
        simpa [hxy] using ih hrest

theorem drop_erase_of_notMem (h : x ∉ xs.take next) :
    (xs.erase x).drop next = (xs.drop next).erase x := by
  induction xs generalizing next with
  | nil => simp
  | cons y ys ih =>
    cases next with
    | zero => rfl
    | succ next =>
      obtain ⟨hxy, hrest⟩ : x ≠ y ∧ x ∉ ys.take next := by simpa using h
      simpa [Ne.symm hxy] using ih hrest

theorem mem_drop_of_erase (h : x ∈ (xs.erase y).drop next) : x ∈ xs.drop next := by
  by_cases hy : y ∈ xs.take next
  · rw [drop_erase_of_mem hy, ← List.drop_drop] at h
    exact List.mem_of_mem_drop h
  · rw [drop_erase_of_notMem hy] at h
    exact List.mem_of_mem_erase h

omit [DecidableEq α] in
theorem mem_drop_of_append (h : x ∈ (xs ++ [y]).drop next) : x ∈ xs.drop next ∨ x = y := by
  rw [List.drop_append, List.mem_append] at h
  cases h with
  | inl h => exact .inl h
  | inr h => exact .inr (List.mem_singleton.mp (List.mem_of_mem_drop h))

theorem count_drop (xs : List α) (next : Nat) (x : α) :
    (xs.drop next).count x =
      (if xs[next]? = some x then 1 else 0) + (xs.drop (next + 1)).count x := by
  cases hget : xs[next]? with
  | none =>
    have hlen := List.getElem?_eq_none_iff.mp hget
    rw [List.drop_eq_nil_of_le hlen, List.drop_eq_nil_of_le (by omega)]
    rfl
  | some y =>
    obtain ⟨hlt, rfl⟩ := List.getElem?_eq_some_iff.mp hget
    rw [List.drop_eq_getElem_cons hlt, List.count_cons, Nat.add_comm]
    simp

/-- How often an element has been read, or is still to be read if nothing changes. -/
def owed (read xs : List α) (next : Nat) (x : α) : Nat := read.count x + (xs.drop next).count x

theorem owed_read (h : xs[next]? = some y) (x : α) :
    owed (read ++ [y]) xs (next + 1) x = owed read xs next x := by
  rw [owed, owed, count_drop xs next, h, List.count_append, List.count_singleton]
  simp [Nat.add_assoc]

theorem owed_append (h : y ≠ x) : owed read (xs ++ [y]) next x = owed read xs next x := by
  have hnone : ([y].drop (next - xs.length)).count x = 0 :=
    List.count_eq_zero_of_not_mem fun hx =>
      h (List.mem_singleton.mp (List.mem_of_mem_drop hx)).symm
  rw [owed, owed, List.drop_append, List.count_append, hnone, Nat.add_zero]

/-- An element is no longer read if it takes the place of one that has been. -/
theorem owed_erase (read xs : List α) (next : Nat) (h : y ≠ x) :
    owed read xs next x = owed read (xs.erase y) next x +
      if y ∈ xs.take next ∧ xs[next]? = some x then 1 else 0 := by
  unfold owed
  by_cases hy : y ∈ xs.take next
  · rw [drop_erase_of_mem hy, count_drop xs next]
    simp [hy, Nat.add_assoc, Nat.add_comm]
  · rw [drop_erase_of_notMem hy, List.count_erase_of_ne h.symm]
    simp [hy]

theorem owed_erase_le (h : y ≠ x) : owed read (xs.erase y) next x ≤ owed read xs next x := by
  have herase := owed_erase read xs next h
  omega

theorem owed_erase_eq_iff (h : y ≠ x) :
    owed read (xs.erase y) next x = owed read xs next x ↔
      (y ∈ xs.take next → xs[next]? ≠ some x) := by
  have herase := owed_erase read xs next h
  by_cases hskip : y ∈ xs.take next ∧ xs[next]? = some x
  · rw [if_pos hskip] at herase
    exact iff_of_false (by omega) fun hspared => hspared hskip.1 hskip.2
  · rw [if_neg hskip] at herase
    exact iff_of_true herase.symm fun hmem hget => hskip ⟨hmem, hget⟩

end Cursor
