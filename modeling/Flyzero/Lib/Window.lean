import Mathlib.Data.BitVec
import Mathlib.Data.Nat.ModEq
import Mathlib.Tactic.Linarith

/-! Positions of an unbounded stream laid over a ring of `n` cells, and the
machine cursors of `w` bits that count them modulo `2 ^ w`. -/
namespace Window
variable {β : Type*}

theorem slot_inj {n p q : Nat} (hp : p < q + n) (hq : q < p + n)
    (h : p % n = q % n) : p = q := by
  rcases Nat.le_total p q with hle | hle
  · obtain ⟨c, hc⟩ := (Nat.modEq_iff_dvd' hle).mp h
    rcases Nat.eq_zero_or_pos c with rfl | hpos
    · omega
    · have := Nat.le_mul_of_pos_right n hpos
      omega
  · obtain ⟨c, hc⟩ := (Nat.modEq_iff_dvd' hle).mp h.symm
    rcases Nat.eq_zero_or_pos c with rfl | hpos
    · omega
    · have := Nat.le_mul_of_pos_right n hpos
      omega

theorem cursor_sub {w lo hi : Nat} (hle : lo ≤ hi) (hlt : hi - lo < 2 ^ w) :
    (BitVec.ofNat w hi - BitVec.ofNat w lo).toNat = hi - lo := by
  obtain ⟨d, rfl⟩ := Nat.exists_eq_add_of_le hle
  have hd : lo + d - lo = d := by omega
  have hsub : BitVec.ofNat w (lo + d) - BitVec.ofNat w lo = BitVec.ofNat w d := by
    rw [BitVec.ofNat_add, BitVec.add_comm, BitVec.add_sub_cancel]
  rw [hsub, hd, BitVec.toNat_ofNat]
  exact Nat.mod_eq_of_lt (hd ▸ hlt)

theorem cursor_add {w : Nat} (p : Nat) (n : BitVec w) :
    BitVec.ofNat w p + n = BitVec.ofNat w (p + n.toNat) := by
  rw [BitVec.ofNat_add, BitVec.ofNat_toNat, BitVec.setWidth_eq]

theorem lt_width_of_toNat_eq {w k : Nat} {cap : BitVec w} (hcap : cap.toNat = 2 ^ k) : k < w := by
  have h := cap.isLt
  rw [hcap] at h
  exact (Nat.pow_lt_pow_iff_right (by omega)).mp h

theorem mask_toNat {w k : Nat} {cap : BitVec w} (hcap : cap.toNat = 2 ^ k) :
    (cap - 1#w).toNat = 2 ^ k - 1 := by
  have hk := lt_width_of_toNat_eq hcap
  have hpos := Nat.two_pow_pos k
  have hw : 1 < 2 ^ w := Nat.one_lt_two_pow (by omega)
  have hone : (1#w).toNat = 1 := by rw [BitVec.toNat_ofNat, Nat.mod_eq_of_lt hw]
  rw [BitVec.toNat_sub_of_le (by rw [BitVec.le_def]; omega), hcap, hone]

/-- Masking a wrapped cursor with a power of two selects the cell of the unbounded position. -/
theorem cursor_mask {w k : Nat} {cap : BitVec w} (hcap : cap.toNat = 2 ^ k) (p : Nat) :
    (BitVec.ofNat w p &&& (cap - 1#w)).toNat = p % 2 ^ k := by
  have hk := lt_width_of_toNat_eq hcap
  rw [BitVec.toNat_and, mask_toNat hcap, Nat.and_two_pow_sub_one_eq_mod, BitVec.toNat_ofNat,
    Nat.mod_mod_of_dvd _ (Nat.pow_dvd_pow 2 hk.le)]

theorem align_toNat {w k : Nat} {p : BitVec w} (hp : p.toNat = 2 ^ k) (x : BitVec w) :
    (x &&& ~~~(p - 1#w)).toNat = x.toNat / 2 ^ k * 2 ^ k := by
  have hk := lt_width_of_toNat_eq hp
  have heq : x &&& ~~~(p - 1#w) = (x >>> k) <<< k := by
    ext i hi
    have hmask : (p - 1#w).getLsbD i = decide (i < k) := by
      rw [BitVec.getLsbD, mask_toNat hp, Nat.testBit_two_pow_sub_one]
    rw [← BitVec.getLsbD_eq_getElem, ← BitVec.getLsbD_eq_getElem]
    simp only [BitVec.getLsbD_and, BitVec.getLsbD_not, hmask, BitVec.getLsbD_shiftLeft,
      BitVec.getLsbD_ushiftRight, hi]
    by_cases hik : i < k
    · simp [hik]
    · simp [hik, Nat.add_sub_cancel' (Nat.not_lt.mp hik)]
  have hle := Nat.div_mul_le_self x.toNat (2 ^ k)
  rw [heq, BitVec.toNat_shiftLeft, BitVec.toNat_ushiftRight, Nat.shiftLeft_eq,
    Nat.shiftRight_eq_div_pow, Nat.mod_eq_of_lt (Nat.lt_of_le_of_lt hle x.isLt)]

/-- Rounded up to a multiple of `p`, a word is not less, unless the sum wraps around to zero. -/
theorem roundUp_eq_zero_or {w k : Nat} {p : BitVec w} (hp : p.toNat = 2 ^ k) (x : BitVec w) :
    (x + (p - 1#w)) &&& ~~~(p - 1#w) = 0#w ∨
      x.toNat ≤ ((x + (p - 1#w)) &&& ~~~(p - 1#w)).toNat := by
  have hpos := Nat.two_pow_pos k
  have hx := x.isLt
  have hmask := mask_toNat hp
  have hpw := p.isLt
  rw [← BitVec.toNat_inj, align_toNat hp, BitVec.toNat_add, hmask]
  by_cases hwrap : x.toNat + (2 ^ k - 1) < 2 ^ w
  · right
    rw [Nat.mod_eq_of_lt hwrap]
    have hdiv := Nat.div_add_mod (x.toNat + (2 ^ k - 1)) (2 ^ k)
    have hmod := Nat.mod_lt (x.toNat + (2 ^ k - 1)) hpos
    rw [Nat.mul_comm] at hdiv
    omega
  · left
    have hlt : (x.toNat + (2 ^ k - 1)) % 2 ^ w < 2 ^ k := by
      rw [Nat.mod_eq_sub_mod (Nat.not_lt.mp hwrap), Nat.mod_eq_of_lt (by omega)]
      omega
    rw [Nat.div_eq_of_lt hlt, Nat.zero_mul]
    rfl

theorem and_mask_eq_zero_iff {w k : Nat} {p : BitVec w} (hp : p.toNat = 2 ^ k) (x : BitVec w) :
    x &&& (p - 1#w) = 0#w ↔ x.toNat % 2 ^ k = 0 := by
  rw [← BitVec.toNat_inj, BitVec.toNat_and, mask_toNat hp, Nat.and_two_pow_sub_one_eq_mod]
  simp

theorem roundUp_of_aligned {w k : Nat} {p : BitVec w} (hp : p.toNat = 2 ^ k) {x : BitVec w}
    (h : x &&& (p - 1#w) = 0#w) : (x + (p - 1#w)) &&& ~~~(p - 1#w) = x := by
  have hpos := Nat.two_pow_pos k
  have hlt := x.isLt
  obtain ⟨q, hq⟩ := Nat.dvd_of_mod_eq_zero ((and_mask_eq_zero_iff hp x).mp h)
  obtain ⟨n, hn⟩ := Nat.pow_dvd_pow 2 (lt_width_of_toNat_eq hp).le
  rw [hq, hn] at hlt
  have hroom : 2 ^ k * (q + 1) ≤ 2 ^ k * n :=
    Nat.mul_le_mul_left _ (Nat.lt_of_mul_lt_mul_left hlt)
  rw [Nat.mul_succ] at hroom
  rw [← BitVec.toNat_inj, align_toNat hp, BitVec.toNat_add, mask_toNat hp,
    Nat.mod_eq_of_lt (by omega), hq, Nat.mul_add_div hpos, Nat.div_eq_of_lt (by omega),
    Nat.add_zero, Nat.mul_comm]

theorem roundUp_eq_iff {w k : Nat} {p : BitVec w} (hp : p.toNat = 2 ^ k) (x : BitVec w) :
    (x + (p - 1#w)) &&& ~~~(p - 1#w) = p ↔ x ≠ 0#w ∧ x.toNat ≤ p.toNat := by
  have hpos := Nat.two_pow_pos k
  have hx := x.isLt
  have hpw := p.isLt
  have htwice : 2 ^ k * 2 ≤ 2 ^ w := by
    rw [← Nat.pow_succ]
    exact Nat.pow_le_pow_right (by decide) (lt_width_of_toNat_eq hp)
  have hone (y : Nat) : y / 2 ^ k * 2 ^ k = 2 ^ k ↔ 2 ^ k ≤ y ∧ y < 2 ^ k * 2 := by
    rw [Nat.mul_eq_right hpos.ne', Nat.div_eq_iff hpos]
    omega
  rw [← BitVec.toNat_inj, align_toNat hp, BitVec.toNat_add, mask_toNat hp, hp, hone,
    ← BitVec.toNat_ne_iff_ne]
  have hzero : (0#w).toNat = 0 := by simp
  rw [hzero]
  by_cases hwrap : x.toNat + (2 ^ k - 1) < 2 ^ w
  · rw [Nat.mod_eq_of_lt hwrap]
    omega
  · rw [Nat.mod_eq_sub_mod (Nat.not_lt.mp hwrap), Nat.mod_eq_of_lt (by omega)]
    omega

def cells (ring : Nat → β) (n lo len : Nat) : List β :=
  (List.range len).map fun j => ring ((lo + j) % n)

@[simp] theorem cells_length (ring : Nat → β) (n lo len : Nat) :
    (cells ring n lo len).length = len := by
  simp [cells]

@[simp] theorem cells_zero (ring : Nat → β) (n lo : Nat) : cells ring n lo 0 = [] := rfl

@[simp] theorem cells_getElem (ring : Nat → β) (n lo len j : Nat)
    (h : j < (cells ring n lo len).length) :
    (cells ring n lo len)[j] = ring ((lo + j) % n) := by
  simp [cells]

theorem cells_add (ring : Nat → β) (n lo a b : Nat) :
    cells ring n lo (a + b) = cells ring n lo a ++ cells ring n (lo + a) b := by
  simp [cells, List.range_add, Function.comp_def, Nat.add_assoc]

theorem cells_take (ring : Nat → β) (n lo : Nat) {k len : Nat} (h : k ≤ len) :
    (cells ring n lo len).take k = cells ring n lo k := by
  obtain ⟨d, rfl⟩ := Nat.exists_eq_add_of_le h
  rw [cells_add, List.take_left' (cells_length ..)]

theorem cells_drop (ring : Nat → β) (n lo : Nat) {k len : Nat} (h : k ≤ len) :
    (cells ring n lo len).drop k = cells ring n (lo + k) (len - k) := by
  obtain ⟨d, rfl⟩ := Nat.exists_eq_add_of_le h
  rw [cells_add, List.drop_left' (cells_length ..), Nat.add_sub_cancel_left]

theorem cells_congr {ring ring' : Nat → β} {n lo len : Nat}
    (h : ∀ j < len, ring ((lo + j) % n) = ring' ((lo + j) % n)) :
    cells ring n lo len = cells ring' n lo len := by
  simpa [cells] using h

def fill (ring : Nat → β) (n lo : Nat) : List β → Nat → β
  | [] => ring
  | b :: bs => fill (Function.update ring (lo % n) b) n (lo + 1) bs

theorem fill_of_ne (ring : Nat → β) (n lo : Nat) (bs : List β) (c : Nat)
    (h : ∀ j < bs.length, (lo + j) % n ≠ c) : fill ring n lo bs c = ring c := by
  induction bs generalizing ring lo with
  | nil => rfl
  | cons b bs ih =>
    have h0 : lo % n ≠ c := h 0 (by simp)
    rw [fill, ih, Function.update_of_ne (Ne.symm h0)]
    intro j hj
    have := h (j + 1) (by simpa using hj)
    rwa [show lo + 1 + j = lo + (j + 1) by omega]

theorem fill_same (ring : Nat → β) (n lo : Nat) (bs : List β) (hlen : bs.length ≤ n)
    (j : Nat) (hj : j < bs.length) : fill ring n lo bs ((lo + j) % n) = bs[j] := by
  induction bs generalizing ring lo j with
  | nil => simp at hj
  | cons b bs ih =>
    simp only [List.length_cons] at hlen hj
    cases j with
    | zero =>
      rw [fill, fill_of_ne, Nat.add_zero, Function.update_self, List.getElem_cons_zero]
      -- a later byte falls less than a lap behind the first one
      intro i hi he
      have := slot_inj (by omega) (by omega) he
      omega
    | succ j =>
      have := ih (Function.update ring (lo % n) b) (lo + 1) (by omega) j (by omega)
      rwa [show lo + 1 + j = lo + (j + 1) by omega] at this

theorem cells_fill (ring : Nat → β) (n lo : Nat) (bs : List β) (hlen : bs.length ≤ n) :
    cells (fill ring n lo bs) n lo bs.length = bs := by
  apply List.ext_getElem (cells_length ..)
  intro j hj hj'
  rw [cells_getElem]
  exact fill_same ring n lo bs hlen j hj'

theorem cells_fill_ahead (ring : Nat → β) {n lo len pos : Nat} (bs : List β)
    (hbelow : lo + len ≤ pos) (hlap : pos + bs.length ≤ lo + n) :
    cells (fill ring n pos bs) n lo len = cells ring n lo len := by
  apply cells_congr
  intro j hj
  apply fill_of_ne
  intro i hi he
  have := slot_inj (by omega) (by omega) he
  omega

end Window
