import Flyzero.Lib.Words

/-! `hash_bytes` of `hash.cpp`, where a word is eight bytes, the least significant first. -/
namespace Flyzero.Hash
open ByteMem

/-- `c << s` for an `unsigned char`, which becomes an `int` before it is shifted; `none` where the
behaviour is undefined. -/
def shiftByte (c : UInt8) (s : Nat) : Option (BitVec 32) :=
  if s < 32 then some (c.toBitVec.setWidth 32 <<< s) else none

/-- The second loop from the index `i` on; `int` becomes `size_t` with its sign. -/
def tailLoop : Nat → List UInt8 → BitVec 64 → Option (BitVec 64)
  | _, [], res => some res
  | i, c :: cs, res =>
    (shiftByte c (i <<< 3)).bind fun x => tailLoop (i + 1) cs (res ^^^ x.signExtend 64)

def hashBytes (bytes : List UInt8) : Option (BitVec 64) :=
  let n := bytes.length / 8
  let res := (List.range n).foldl (fun res i => res ^^^ wordAt bytes i) 0
  tailLoop 0 (bytes.drop (8 * n)) res

theorem hashBytes_eq (bytes : List UInt8) :
    hashBytes bytes = tailLoop 0 (tail bytes) (xorAll (words bytes)) := by
  rw [hashBytes, xorAll, words, List.foldl_map, tail]

theorem shiftByte_index {c : UInt8} {i : Nat} (h : i ≤ 3) :
    shiftByte c (i <<< 3) = some (c.toBitVec.setWidth 32 <<< (8 * i)) := by
  have hindex : i <<< 3 = 8 * i := by rw [Nat.shiftLeft_eq, Nat.mul_comm]
  rw [shiftByte, hindex, if_pos (by omega)]

theorem shiftByte_undefined {c : UInt8} {i : Nat} (h : 4 ≤ i) : shiftByte c (i <<< 3) = none := by
  have hindex : i <<< 3 = 8 * i := by rw [Nat.shiftLeft_eq, Nat.mul_comm]
  rw [shiftByte, hindex, if_neg (by omega)]

theorem toNat_shift {c : UInt8} {i : Nat} (h : c.toNat * 2 ^ (8 * i) < 2 ^ 32) :
    (c.toBitVec.setWidth 32 <<< (8 * i)).toNat = c.toNat * 2 ^ (8 * i) := by
  have hc := c.toNat_lt
  have hsmall : c.toNat % 2 ^ 32 = c.toNat := Nat.mod_eq_of_lt (by omega)
  rw [BitVec.toNat_shiftLeft, BitVec.toNat_setWidth, UInt8.toNat_toBitVec, hsmall,
    Nat.shiftLeft_eq, Nat.mod_eq_of_lt h]

theorem signExtend_shift {c : UInt8} {i : Nat} (h : c.toNat * 2 ^ (8 * i) < 2 ^ 31) :
    (c.toBitVec.setWidth 32 <<< (8 * i)).signExtend 64 =
      BitVec.ofNat 64 c.toNat <<< (8 * i) := by
  have hc := c.toNat_lt
  have hvalue := toNat_shift (i := i) (c := c) (by omega)
  have hsign : (c.toBitVec.setWidth 32 <<< (8 * i)).msb = false := by
    rw [BitVec.msb_eq_decide, hvalue]
    exact decide_eq_false (by omega)
  have hwide : c.toNat % 2 ^ 64 = c.toNat := Nat.mod_eq_of_lt (by omega)
  rw [BitVec.signExtend_eq_setWidth_of_msb_false hsign]
  apply BitVec.eq_of_toNat_eq
  rw [BitVec.toNat_setWidth, hvalue, BitVec.toNat_shiftLeft, BitVec.toNat_ofNat, hwide,
    Nat.shiftLeft_eq]

theorem signExtend_fourth (c : UInt8) :
    (c.toBitVec.setWidth 32 <<< (8 * 3)).signExtend 64 = BitVec.ofNat 64 c.toNat <<< (8 * 3) ↔
      c < 0x80 := by
  have hc := c.toNat_lt
  constructor
  · intro h
    refine UInt8.not_le.mp fun hhigh => ?_
    have hhigh : 128 ≤ c.toNat := hhigh
    have hsign : (c.toBitVec.setWidth 32 <<< (8 * 3)).msb = true := by
      rw [BitVec.msb_eq_decide, toNat_shift (by omega)]
      exact decide_eq_true (by omega)
    have hzero : c.toNat.testBit 39 = false := Nat.testBit_lt_two_pow (by omega)
    have hleft : ((c.toBitVec.setWidth 32 <<< (8 * 3)).signExtend 64).getLsbD 63 = true := by
      rw [BitVec.getLsbD_signExtend, hsign]
      rfl
    have hright : (BitVec.ofNat 64 c.toNat <<< (8 * 3)).getLsbD 63 = false := by
      rw [BitVec.getLsbD_shiftLeft, BitVec.getLsbD_ofNat]
      simp [hzero]
    rw [h, hright] at hleft
    cases hleft
  · intro h
    have hc : c.toNat < 128 := h
    exact signExtend_shift (by omega)

theorem tailLoop_short {i : Nat} {cs : List UInt8} (h : i + cs.length ≤ 3) (res : BitVec 64) :
    tailLoop i cs res = some (res ^^^ (BitVec.ofNat 64 (ofBytes cs) <<< (8 * i))) := by
  induction cs generalizing i res with
  | nil => simp [tailLoop, ofBytes]
  | cons c cs ih =>
    rw [List.length_cons] at h
    have hc : c.toNat < 256 := c.toNat_lt
    have hpow : c.toNat * 2 ^ (8 * i) < 2 ^ 31 := by
      have hi : 2 ^ (8 * i) ≤ 2 ^ 16 := Nat.pow_le_pow_right (by decide) (by omega)
      have hmul : c.toNat * 2 ^ (8 * i) ≤ 255 * 2 ^ 16 := Nat.mul_le_mul (by omega) hi
      omega
    have hsplit : BitVec.ofNat 64 (c.toNat + 256 * ofBytes cs) =
        BitVec.ofNat 64 c.toNat ^^^ (BitVec.ofNat 64 (ofBytes cs) <<< 8) :=
      ofNat_add_shifted (k := 8) hc (ofBytes cs)
    rw [tailLoop, shiftByte_index (by omega), Option.bind_some, ih (by omega),
      signExtend_shift hpow, ofBytes, hsplit, BitVec.shiftLeft_xor_distrib, ← BitVec.shiftLeft_add,
      BitVec.xor_assoc]
    congr 4
    omega

theorem tailLoop_concat (i : Nat) (cs : List UInt8) (c : UInt8) (res : BitVec 64) :
    tailLoop i (cs ++ [c]) res = (tailLoop i cs res).bind (tailLoop (i + cs.length) [c]) := by
  induction cs generalizing i res with
  | nil => rfl
  | cons d cs ih =>
    rw [List.cons_append, tailLoop, tailLoop]
    cases hd : shiftByte d (i <<< 3) with
    | none => rfl
    | some x =>
      rw [Option.bind_some, Option.bind_some, ih, List.length_cons, Nat.add_right_comm,
        Nat.add_assoc]

theorem tailLoop_undefined {i : Nat} {cs : List UInt8} (hi : i ≤ 4) (h : 4 < i + cs.length)
    (res : BitVec 64) : tailLoop i cs res = none := by
  induction cs generalizing i res with
  | nil => exact absurd h (by rw [List.length_nil]; omega)
  | cons c cs ih =>
    rw [List.length_cons] at h
    rw [tailLoop]
    cases Nat.eq_or_lt_of_le hi with
    | inl hlast => rw [shiftByte_undefined (by omega), Option.bind_none]
    | inr hlt => rw [shiftByte_index (by omega), Option.bind_some, ih (by omega) (by omega)]

/-- The hash is the exclusive or of the words of the padded string, and so the padding does not
change it. -/
def FoldsWords (bytes : List UInt8) : Prop :=
  hashBytes bytes = some (xorAll (words (padded bytes))) ∧
    hashBytes (padded bytes) = hashBytes bytes

theorem hashBytes_short {bytes : List UInt8} (h : bytes.length % 8 ≤ 3) :
    hashBytes bytes = some (xorAll (words (padded bytes))) := by
  have hlen := tail_length bytes
  rw [hashBytes_eq, tailLoop_short (by omega), xorAll_padded, Nat.mul_zero,
    BitVec.shiftLeft_zero]

theorem hashBytes_padded (bytes : List UInt8) :
    hashBytes (padded bytes) = some (xorAll (words (padded bytes))) := by
  have hwhole := padded_whole bytes
  have hsame := padded_eq hwhole
  rw [hashBytes_short (by omega), hsame]

theorem foldsWords_iff_hash (bytes : List UInt8) :
    FoldsWords bytes ↔ hashBytes bytes = some (xorAll (words (padded bytes))) := by
  rw [FoldsWords, hashBytes_padded]
  exact ⟨And.left, fun h => ⟨h, h.symm⟩⟩

theorem tail_getLast? {bytes : List UInt8} (h : bytes.length % 8 ≠ 0) :
    (tail bytes).getLast? = bytes.getLast? := by
  rw [tail, List.getLast?_drop, if_neg (by omega)]

theorem hashBytes_four {bytes : List UInt8} (h : bytes.length % 8 = 4) :
    hashBytes bytes = some (xorAll (words (padded bytes))) ↔ ∀ c ∈ bytes.getLast?, c < 0x80 := by
  have hlen := (tail_length bytes).trans h
  have hne : tail bytes ≠ [] := List.ne_nil_of_length_eq_add_one hlen
  obtain ⟨cs, c, heq⟩ : ∃ cs c, tail bytes = cs ++ [c] :=
    ⟨_, _, (List.dropLast_concat_getLast hne).symm⟩
  have hcs : cs.length = 3 := by
    rw [heq, List.length_append, List.length_singleton] at hlen
    omega
  have hlast : bytes.getLast? = some c := by
    rw [← tail_getLast? (by omega), heq, List.getLast?_concat]
  have hfirst : ofBytes cs < 2 ^ 24 := by
    have hlt := ofBytes_lt cs
    rwa [hcs] at hlt
  have hsplit : BitVec.ofNat 64 (ofBytes cs + 256 ^ 3 * ofBytes [c]) =
      BitVec.ofNat 64 (ofBytes cs) ^^^ (BitVec.ofNat 64 (ofBytes [c]) <<< 24) :=
    ofNat_add_shifted (k := 24) hfirst (ofBytes [c])
  have hone : ofBytes [c] = c.toNat := rfl
  rw [hashBytes_eq, xorAll_padded, heq, tailLoop_concat, tailLoop_short (by omega),
    ofBytes_append, hcs, hsplit, hone, Option.bind_some, tailLoop, shiftByte_index (by omega),
    Option.bind_some, tailLoop, Option.some_inj, Nat.mul_zero, BitVec.shiftLeft_zero, hlast,
    BitVec.xor_assoc, BitVec.xor_right_inj, BitVec.xor_right_inj]
  simpa using signExtend_fourth c

theorem hashBytes_undefined {bytes : List UInt8} (h : 4 < bytes.length % 8) :
    hashBytes bytes = none := by
  have hlen := tail_length bytes
  rw [hashBytes_eq, tailLoop_undefined (by omega) (by omega)]

/-- The tail is folded only where its bytes stay in an `int`. -/
theorem foldsWords_iff (bytes : List UInt8) :
    FoldsWords bytes ↔ bytes.length % 8 ≤ 3 ∨
      bytes.length % 8 = 4 ∧ ∀ c ∈ bytes.getLast?, c < 0x80 := by
  rw [foldsWords_iff_hash]
  by_cases hshort : bytes.length % 8 ≤ 3
  · exact iff_of_true (hashBytes_short hshort) (Or.inl hshort)
  · by_cases hfour : bytes.length % 8 = 4
    · rw [hashBytes_four hfour]
      exact ⟨fun h => Or.inr ⟨hfour, h⟩, fun h => (h.resolve_left hshort).2⟩
    · rw [hashBytes_undefined (by omega)]
      exact iff_of_false nofun fun h => hfour (h.resolve_left hshort).1

theorem fiveBytes_undefined :
    hashBytes [1, 2, 3, 4, 5] = none ∧ hashBytes [0, 0, 0, 0x80] = some 0xffffffff80000000 ∧
      ¬ ∀ bytes, FoldsWords bytes := by
  have hfive : hashBytes [1, 2, 3, 4, 5] = none := by decide
  refine ⟨hfive, by decide, fun hall => ?_⟩
  have hfolds := (hall [1, 2, 3, 4, 5]).1
  rw [hfive] at hfolds
  cases hfolds

end Flyzero.Hash
