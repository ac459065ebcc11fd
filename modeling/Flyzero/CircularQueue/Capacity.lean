import Flyzero.CircularQueue.Queue
import Mathlib.Data.Nat.Log
import Mathlib.Data.Set.Operations
import Mathlib.Order.Bounds.Defs
import Mathlib.Order.Interval.Set.Defs

/-! The capacity of a queue as the ceiling of what is asked for. -/
namespace Flyzero.CircularQueue
open Utility

/-- The index selects every object that has its place in the bytes asked for, and no other. -/
def Queue.Selects (q : Queue) (sizeof : Nat) (request : BitVec 64) : Prop :=
  Set.range (fun idx => (idx &&& q.mask).toNat) = {i | (i + 1) * sizeof ≤ request.toNat}

structure Ceils (sizeof : Nat) (n : BitVec 64) : Prop where
  /-- The bits are counted in a number other than zero, and the shift is one by less than 64. -/
  defined : n ≠ 0#64 → ∃ z, clzll (n - 1#64) = some z ∧ 64 - z < 64
  least : ∃ p, nextPow2 n = some p ∧
    IsLeast {m | (∃ k, m = 2 ^ k) ∧ max n.toNat 1 ≤ m} p.toNat
  selects : ∃ request, ∀ allocator, ∃ q, create sizeof allocator n = some q ∧
    q.buffer = allocator request ∧ q.Selects sizeof request

section
variable {sizeof k lo hi : Nat} {n : BitVec 64} {q : Queue}

theorem At.range_slots (h : At q k lo hi) :
    Set.range (fun idx => (idx &&& q.mask).toNat) = {i | i < 2 ^ k} := by
  ext i
  constructor
  · rintro ⟨idx, rfl⟩
    have hslot := h.slot idx.toNat
    rw [BitVec.ofNat_toNat, BitVec.setWidth_eq] at hslot
    dsimp only
    rw [hslot]
    exact Nat.mod_lt _ (Nat.two_pow_pos k)
  · intro hlt
    exact ⟨BitVec.ofNat 64 i, by simp only [h.slot, Nat.mod_eq_of_lt hlt]⟩

theorem At.fits_of_selects (h : At q k lo hi) {request : BitVec 64}
    (hselects : q.Selects sizeof request) : 2 ^ k * sizeof < 2 ^ 64 := by
  have hpos := Nat.two_pow_pos k
  rw [Queue.Selects, h.range_slots] at hselects
  have hlast : 2 ^ k - 1 ∈ {i | (i + 1) * sizeof ≤ request.toNat} := by
    rw [← hselects]
    exact Nat.sub_lt hpos Nat.one_pos
  have hle : (2 ^ k - 1 + 1) * sizeof ≤ request.toNat := hlast
  rw [Nat.sub_add_cancel hpos] at hle
  exact Nat.lt_of_le_of_lt hle request.isLt

theorem At.selects (h : At q k lo hi) (hsize : 0 < sizeof) (hfits : 2 ^ k * sizeof < 2 ^ 64) :
    q.Selects sizeof (q.capacity * BitVec.ofNat 64 sizeof) := by
  have hle : 1 * sizeof ≤ 2 ^ k * sizeof := Nat.mul_le_mul_right _ (Nat.two_pow_pos k)
  have hrequest : (q.capacity * BitVec.ofNat 64 sizeof).toNat = 2 ^ k * sizeof := by
    rw [BitVec.toNat_mul, h.cap, BitVec.toNat_ofNat, Nat.mod_eq_of_lt (by omega : sizeof < 2 ^ 64),
      Nat.mod_eq_of_lt hfits]
  rw [Queue.Selects, h.range_slots, hrequest]
  ext i
  exact (Nat.mul_le_mul_right_iff hsize).symm

theorem create_selects (hsize : 0 < sizeof) (hp : nextPow2 n = some (BitVec.ofNat 64 (2 ^ k)))
    (hk : k < 64) (hfits : 2 ^ k * sizeof < 2 ^ 64) :
    ∃ request, ∀ allocator, ∃ q, create sizeof allocator n = some q ∧
      q.buffer = allocator request ∧ q.Selects sizeof request := by
  refine ⟨BitVec.ofNat 64 (2 ^ k) * BitVec.ofNat 64 sizeof, fun allocator => ?_⟩
  have hcreate : create sizeof allocator n = some
      { capacity := BitVec.ofNat 64 (2 ^ k), mask := BitVec.ofNat 64 (2 ^ k) - 1#64,
        buffer := allocator (BitVec.ofNat 64 (2 ^ k) * BitVec.ofNat 64 sizeof), ridx := 0,
        widx := 0 } := by rw [create, hp, Option.map_some]
  have hcap : (BitVec.ofNat 64 (2 ^ k)).toNat = 2 ^ k := by
    rw [BitVec.toNat_ofNat, Nat.mod_eq_of_lt (Nat.pow_lt_pow_right (by decide) hk)]
  exact ⟨_, hcreate, rfl, At.selects ⟨hcap, rfl, rfl, rfl, Nat.le_refl 0, by omega⟩ hsize hfits⟩

end

theorem isLeast_pow {n k : Nat} (hn : 1 ≤ n) (hle : n ≤ 2 ^ k) (hlt : 2 ^ k < 2 * n) :
    IsLeast {m | (∃ j, m = 2 ^ j) ∧ max n 1 ≤ m} (2 ^ k) := by
  rw [Nat.max_eq_left hn]
  refine ⟨⟨⟨k, rfl⟩, hle⟩, ?_⟩
  rintro m ⟨⟨j, rfl⟩, hm⟩
  have hdouble : 2 ^ k < 2 ^ (j + 1) := by
    rw [Nat.pow_succ']
    omega
  have hkj := (Nat.pow_lt_pow_iff_right (by decide)).mp hdouble
  exact Nat.pow_le_pow_right (by decide) (by omega)

theorem clog_eq {n k : Nat} (hle : n ≤ 2 ^ k) (hlt : 2 ^ k < 2 * n) : Nat.clog 2 n = k := by
  apply Nat.le_antisymm
  · exact (Nat.clog_le_iff_le_pow (by decide)).mpr hle
  · cases k with
    | zero => exact Nat.zero_le _
    | succ k =>
      rw [Nat.pow_succ'] at hlt
      exact (Nat.lt_clog_iff_pow_lt (by decide)).mpr (by omega)

section
variable {sizeof : Nat} {n : BitVec 64}

theorem zero_ceils (hsize : 0 < sizeof) (hfits : sizeof < 2 ^ 64) : Ceils sizeof 0 where
  defined h := absurd rfl h
  least := by
    refine ⟨1, rfl, ⟨⟨0, rfl⟩, le_rfl⟩, ?_⟩
    rintro m ⟨-, hm⟩
    exact hm
  selects := create_selects (k := 0) hsize rfl (by decide) (by omega)

theorem not_one_ceils : ¬ Ceils sizeof 1 := by
  rintro ⟨hdefined, -, -⟩
  obtain ⟨z, hz, -⟩ := hdefined (by decide)
  cases hz

theorem ceils_of_two_le (hsize : 0 < sizeof) (hlo : 2 ≤ n.toNat) (hhi : n.toNat ≤ 2 ^ 63)
    (hfits : 2 ^ Nat.clog 2 n.toNat * sizeof < 2 ^ 64) : Ceils sizeof n := by
  obtain ⟨k, hk, -, hk63, hle, hlt⟩ := nextPow2_eq hlo hhi
  rw [clog_eq hle hlt] at hfits
  have hnat : (BitVec.ofNat 64 (2 ^ k)).toNat = 2 ^ k := by
    rw [BitVec.toNat_ofNat, Nat.mod_eq_of_lt (Nat.pow_lt_pow_right (by decide) (by omega))]
  refine ⟨fun hne => ?_, ⟨_, hk, ?_⟩, create_selects hsize hk (by omega) hfits⟩
  · rw [nextPow2, if_neg hne] at hk
    obtain ⟨z, hz, hshift⟩ := Option.bind_eq_some_iff.mp hk
    exact ⟨z, hz, (Option.ite_none_right_eq_some.mp hshift).1⟩
  · rw [hnat]
    exact isLeast_pow (by omega) hle hlt

theorem Ceils.fits (h : Ceils sizeof n) : 2 ^ Nat.clog 2 n.toNat * sizeof < 2 ^ 64 := by
  obtain ⟨p, hp, hleast⟩ := h.least
  obtain ⟨request, hselects⟩ := h.selects
  obtain ⟨q, hq, -, hq'⟩ := hselects fun _ => 0
  obtain ⟨k, hat⟩ := create_at hq
  have hcap : p = q.capacity := by
    rw [create, hp, Option.map_some] at hq
    cases hq
    rfl
  rw [hcap, hat.cap] at hleast
  have hle : n.toNat ≤ 2 ^ k := (Nat.le_max_left _ _).trans hleast.1.2
  have hclog : 2 ^ Nat.clog 2 n.toNat ≤ 2 ^ k :=
    Nat.pow_le_pow_right (by decide) ((Nat.clog_le_iff_le_pow (by decide)).mpr hle)
  exact (Nat.mul_le_mul_right sizeof hclog).trans_lt (hat.fits_of_selects hq')

/-- For 1 the bits of zero are counted, and what is asked for is a product modulo `2 ^ 64`. -/
theorem ceils_iff (hsize : 0 < sizeof) (hhi : n.toNat ≤ 2 ^ 63) :
    Ceils sizeof n ↔ n ≠ 1 ∧ 2 ^ Nat.clog 2 n.toNat * sizeof < 2 ^ 64 := by
  constructor
  · intro h
    refine ⟨?_, h.fits⟩
    rintro rfl
    exact not_one_ceils h
  · rintro ⟨hne, hfits⟩
    have hnat : n.toNat ≠ 1 := fun h => hne (BitVec.eq_of_toNat_eq h)
    by_cases hzero : n = 0
    · subst hzero
      exact zero_ceils hsize (by simpa using hfits)
    · have hpos := BitVec.toNat_pos_of_ne_zero hzero
      exact ceils_of_two_le hsize (by omega) hhi hfits

end

theorem five_ceils : Ceils 8 5 := by
  refine (ceils_iff (by decide) (by decide)).mpr ⟨by decide, ?_⟩
  rw [show (5 : BitVec 64).toNat = 5 from rfl, clog_eq (by decide : 5 ≤ 2 ^ 3) (by decide)]
  decide

/-- For 1 nothing is made, and for `2 ^ 62` objects of eight bytes no bytes are asked for. -/
theorem one_undefined : (clzll (1 - 1) = none ∧ nextPow2 1 = none ∧
    create 8 (fun _ => 4096) 1 = none ∧ ¬ Ceils 8 1) ∧
    create 8 BitVec.toNat 0x4000000000000000 =
      some { capacity := 0x4000000000000000, mask := 0x3fffffffffffffff, buffer := 0, ridx := 0,
             widx := 0 } ∧ ¬ Ceils 8 0x4000000000000000 := by
  refine ⟨⟨rfl, rfl, rfl, not_one_ceils⟩, by decide, fun h => ?_⟩
  obtain ⟨request, hselects⟩ := h.selects
  obtain ⟨q, hq, -, hq'⟩ := hselects fun _ => 4096
  obtain ⟨k, hat⟩ := create_at hq
  have hfits := hat.fits_of_selects hq'
  have hcap := hat.cap
  have hmade : create 8 (fun _ => 4096) 0x4000000000000000 =
      some { capacity := 0x4000000000000000, mask := 0x3fffffffffffffff, buffer := 4096, ridx := 0,
             widx := 0 } := by decide
  rw [hmade] at hq
  cases hq
  rw [← hcap] at hfits
  exact absurd hfits (by decide)

end Flyzero.CircularQueue
