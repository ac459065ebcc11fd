import Mathlib.Algebra.Order.Ring.Nat

/-! A store that doubles when it is full, and moves what it holds when it does. -/

structure Doubling where
  capacity : Nat
  size : Nat
  peak : Nat
  gained : Nat
  moved : Nat

namespace Doubling

def start (base : Nat) : Doubling :=
  { capacity := base, size := 0, peak := 0, gained := 0, moved := 0 }

def gain (d : Doubling) : Doubling :=
  let size := d.size + 1
  let full := size ≥ d.capacity
  { capacity := if full then d.capacity * 2 else d.capacity
    size
    peak := max d.peak size
    gained := d.gained + 1
    moved := d.moved + if full then size else 0 }

def lose (d : Doubling) (n : Nat) : Doubling := { d with size := d.size - n }

/-- The capacity is the least of the doubled ones above all sizes so far. -/
structure Grown (base : Nat) (d : Doubling) : Prop where
  room : d.size < d.capacity
  least : ∃ k, d.capacity = base * 2 ^ k ∧ d.peak < d.capacity ∧ ∀ j < k, base * 2 ^ j ≤ d.peak
  moved : d.moved + base = d.capacity
  size : d.size ≤ d.peak
  peak : d.peak ≤ d.gained

variable {base : Nat} {d : Doubling}

theorem start_grown (h : 0 < base) : Grown base (start base) :=
  ⟨h, ⟨0, by simp [start, h]⟩, Nat.zero_add base, Nat.le_refl 0, Nat.le_refl 0⟩

theorem Grown.gain (h : Grown base d) : Grown base d.gain := by
  obtain ⟨k, hk, hpeak, hleast⟩ := h.least
  have hroom := h.room
  have hmoved := h.moved
  have hsize := h.size
  have hgained := h.peak
  by_cases hfull : d.size + 1 ≥ d.capacity
  · have hcapacity : d.gain.capacity = d.capacity * 2 := if_pos hfull
    have hall : d.gain.moved = d.moved + (d.size + 1) := by simp [Doubling.gain, hfull]
    have htop : d.gain.peak = d.capacity := by
      change max d.peak (d.size + 1) = _
      omega
    refine ⟨?_, ⟨k + 1, ?_, ?_, fun j hj => ?_⟩, ?_, Nat.le_max_right .., ?_⟩
    · change d.size + 1 < d.gain.capacity
      omega
    · rw [hcapacity, hk, Nat.pow_succ, Nat.mul_assoc]
    · omega
    · rw [htop, hk]
      exact Nat.mul_le_mul_left base (Nat.pow_le_pow_right Nat.two_pos (Nat.lt_succ_iff.mp hj))
    · omega
    · change d.gain.peak ≤ d.gained + 1
      omega
  · have hcapacity : d.gain.capacity = d.capacity := if_neg hfull
    have hnone : d.gain.moved = d.moved := by simp [Doubling.gain, hfull]
    have htop : d.gain.peak = max d.peak (d.size + 1) := rfl
    refine ⟨?_, ⟨k, ?_, ?_, fun j hj => ?_⟩, ?_, Nat.le_max_right .., ?_⟩
    · change d.size + 1 < d.gain.capacity
      omega
    · rw [hcapacity, hk]
    · omega
    · rw [htop]
      exact Nat.le_trans (hleast j hj) (Nat.le_max_left ..)
    · omega
    · change d.gain.peak ≤ d.gained + 1
      omega

theorem Grown.lose (h : Grown base d) (n : Nat) : Grown base (d.lose n) :=
  ⟨Nat.lt_of_le_of_lt (Nat.sub_le ..) h.room, h.least, h.moved,
    Nat.le_trans (Nat.sub_le ..) h.size, h.peak⟩

/-- What has been moved is paid for by what has been added. -/
theorem Grown.moved_le (h : Grown base d) : d.moved ≤ 2 * d.gained := by
  obtain ⟨k, hk, -, hleast⟩ := h.least
  have hmoved := h.moved
  have hpeak := h.peak
  cases k with
  | zero =>
    rw [Nat.pow_zero, Nat.mul_one] at hk
    omega
  | succ k =>
    have hhalf := hleast k (Nat.lt_succ_self k)
    rw [Nat.pow_succ, ← Nat.mul_assoc] at hk
    omega

end Doubling
