import Flyzero.Lib.ByteMem

/-! A byte string as little-endian words of eight bytes, and their exclusive or. -/
namespace ByteMem

def wordAt (bytes : List UInt8) (i : Nat) : BitVec 64 :=
  BitVec.ofNat 64 (ofBytes ((bytes.drop (8 * i)).take 8))

def words (bytes : List UInt8) : List (BitVec 64) :=
  (List.range (bytes.length / 8)).map (wordAt bytes)

def tail (bytes : List UInt8) : List UInt8 := bytes.drop (8 * (bytes.length / 8))

def padded (bytes : List UInt8) : List UInt8 :=
  bytes ++ List.replicate ((8 - bytes.length % 8) % 8) 0

def xorAll (ws : List (BitVec 64)) : BitVec 64 := ws.foldl (· ^^^ ·) 0

@[simp] theorem xorAll_nil : xorAll [] = 0 := rfl

@[simp] theorem xorAll_concat (ws : List (BitVec 64)) (w : BitVec 64) :
    xorAll (ws ++ [w]) = xorAll ws ^^^ w := by
  rw [xorAll, List.foldl_append, List.foldl_cons, List.foldl_nil, xorAll]

@[simp] theorem ofBytes_zeros (n : Nat) : ofBytes (List.replicate n 0) = 0 := by
  induction n with
  | zero => rfl
  | succ n ih => rw [List.replicate_succ, ofBytes, ih]; rfl

/-- Numbers whose bits lie apart are added without a carry. -/
theorem ofNat_add_shifted {x k : Nat} (h : x < 2 ^ k) (y : Nat) :
    BitVec.ofNat 64 (x + 2 ^ k * y) = BitVec.ofNat 64 x ^^^ (BitVec.ofNat 64 y <<< k) := by
  apply BitVec.eq_of_getLsbD_eq
  intro j hj
  rw [BitVec.getLsbD_xor, BitVec.getLsbD_shiftLeft, BitVec.getLsbD_ofNat, BitVec.getLsbD_ofNat,
    BitVec.getLsbD_ofNat, Nat.add_comm, Nat.testBit_two_pow_mul_add y h]
  by_cases hlow : j < k
  · simp [hj, hlow]
  · have hzero : x.testBit j = false :=
      Nat.testBit_lt_two_pow (Nat.lt_of_lt_of_le h (Nat.pow_le_pow_right (by decide) (by omega)))
    simp [hj, hlow, hzero]
    omega

theorem tail_length (bytes : List UInt8) : (tail bytes).length = bytes.length % 8 := by
  rw [tail, List.length_drop]
  omega

theorem tail_eq_nil {bytes : List UInt8} (h : bytes.length % 8 = 0) : tail bytes = [] :=
  List.length_eq_zero_iff.mp (by rw [tail_length, h])

theorem wordAt_append {bytes : List UInt8} {i : Nat} (h : i < bytes.length / 8)
    (rest : List UInt8) : wordAt (bytes ++ rest) i = wordAt bytes i := by
  rw [wordAt, wordAt, List.drop_append_of_le_length (by omega),
    List.take_append_of_le_length (by rw [List.length_drop]; omega)]

theorem padded_eq {bytes : List UInt8} (h : bytes.length % 8 = 0) : padded bytes = bytes := by
  rw [padded, h]
  exact List.append_nil bytes

theorem padded_length (bytes : List UInt8) :
    (padded bytes).length = bytes.length + (8 - bytes.length % 8) % 8 := by
  rw [padded, List.length_append, List.length_replicate]

theorem padded_whole (bytes : List UInt8) : (padded bytes).length % 8 = 0 := by
  rw [padded_length]
  omega

/-- The padding adds the word of the bytes that are left. -/
theorem words_padded {bytes : List UInt8} (h : bytes.length % 8 ≠ 0) :
    words (padded bytes) = words bytes ++ [BitVec.ofNat 64 (ofBytes (tail bytes))] := by
  have hcount : (padded bytes).length / 8 = bytes.length / 8 + 1 := by
    rw [padded_length]
    omega
  have hwhole (i : Nat) (hi : i ∈ List.range (bytes.length / 8)) :
      wordAt (padded bytes) i = wordAt bytes i :=
    wordAt_append (List.mem_range.mp hi) _
  have hlast : wordAt (padded bytes) (bytes.length / 8) =
      BitVec.ofNat 64 (ofBytes (tail bytes)) := by
    have hdrop : (padded bytes).drop (8 * (bytes.length / 8)) =
        tail bytes ++ List.replicate ((8 - bytes.length % 8) % 8) 0 := by
      rw [padded, List.drop_append_of_le_length (by omega), tail]
    have hlen := tail_length bytes
    rw [wordAt, hdrop, List.take_of_length_le, ofBytes_append, ofBytes_zeros, Nat.mul_zero,
      Nat.add_zero]
    rw [List.length_append, List.length_replicate]
    omega
  rw [words, hcount, List.range_succ, List.map_append, List.map_congr_left hwhole,
    List.map_singleton, hlast, words]

theorem xorAll_padded (bytes : List UInt8) :
    xorAll (words (padded bytes)) =
      xorAll (words bytes) ^^^ BitVec.ofNat 64 (ofBytes (tail bytes)) := by
  by_cases h : bytes.length % 8 = 0
  · rw [padded_eq h, tail_eq_nil h]
    exact (BitVec.xor_zero).symm
  · rw [words_padded h, xorAll_concat]

end ByteMem
