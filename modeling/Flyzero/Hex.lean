import Flyzero.Lib.ByteMem
import Mathlib.Data.Nat.Digits.Defs

/-! The decoders of `hex.cpp`. The `length` characters at `str` are a list, and `char` is signed. -/
namespace Flyzero.Hex
open ByteMem

inductive Errcode where
  | ok
  | noBuffer
  | noMemory
  | invalidParam
  deriving DecidableEq

def hexMap : List Int := [
  -1, -1, -1, -1, -1, -1, -1, -1, -1, -1, -1, -1, -1, -1, -1, -1,
  -1, -1, -1, -1, -1, -1, -1, -1, -1, -1, -1, -1, -1, -1, -1, -1,
  -1, -1, -1, -1, -1, -1, -1, -1, -1, -1, -1, -1, -1, -1, -1, -1,
   0,  1,  2,  3,  4,  5,  6,  7,  8,  9, -1, -1, -1, -1, -1, -1,
  -1, 10, 11, 12, 13, 14, 15, -1, -1, -1, -1, -1, -1, -1, -1, -1,
  -1, -1, -1, -1, -1, -1, -1, -1, -1, -1, -1, -1, -1, -1, -1, -1,
  -1, 10, 11, 12, 13, 14, 15, -1, -1, -1, -1, -1, -1, -1, -1, -1,
  -1, -1, -1, -1, -1, -1, -1, -1, -1, -1, -1, -1, -1, -1, -1, -1,
  -1, -1, -1, -1, -1, -1, -1, -1, -1, -1, -1, -1, -1, -1, -1, -1,
  -1, -1, -1, -1, -1, -1, -1, -1, -1, -1, -1, -1, -1, -1, -1, -1,
  -1, -1, -1, -1, -1, -1, -1, -1, -1, -1, -1, -1, -1, -1, -1, -1,
  -1, -1, -1, -1, -1, -1, -1, -1, -1, -1, -1, -1, -1, -1, -1, -1,
  -1, -1, -1, -1, -1, -1, -1, -1, -1, -1, -1, -1, -1, -1, -1, -1,
  -1, -1, -1, -1, -1, -1, -1, -1, -1, -1, -1, -1, -1, -1, -1, -1,
  -1, -1, -1, -1, -1, -1, -1, -1, -1, -1, -1, -1, -1, -1, -1, -1,
  -1, -1, -1, -1, -1, -1, -1, -1, -1, -1, -1, -1, -1, -1, -1, -1]

/-- `hex_map[c]`; `none` where the index is outside the table. -/
def lookup (c : Int8) : Option Int :=
  if 0 ≤ c.toInt then hexMap[c.toInt.toNat]? else none

def hexLoop : List Int8 → BitVec 64 → Option (Errcode × BitVec 64)
  | [], val => some (.ok, val)
  | c :: cs, val =>
    (lookup c).bind fun entry =>
      let tmp : BitVec 32 := BitVec.ofInt 32 entry
      if BitVec.ofInt 32 (-1) = tmp then some (.invalidParam, val)
      else hexLoop cs (tmp.setWidth 64 + val <<< 4)

def hexStr (str : List Int8) : Option (Errcode × BitVec 64) := hexLoop str 0

/-- What the scalar overloads share: each reads its own member of the union. A variable without a
value has not been initialised. -/
def hexStrScalar (w : Nat) (str : List Int8) (val : Option (BitVec w)) :
    Option (Errcode × Option (BitVec w)) :=
  (hexStr str).map fun r => if r.1 = .ok then (r.1, some (r.2.setWidth w)) else (r.1, val)

def hexStrU64 := hexStrScalar 64

def hexStrU32 := hexStrScalar 32

def hexStrU8 := hexStrScalar 8

/-- What the buffer overload returns, what it has written to the buffer, and `size`. -/
structure Decoded where
  ret : Errcode
  out : List (Option (BitVec 8))
  size : Nat
  deriving DecidableEq

/-- The loop over the pairs of characters, with the characters it leaves. -/
def pairLoop : List Int8 → Option (List (Option (BitVec 8)) × List Int8)
  | a :: b :: rest =>
    -- the error code of the pair is not looked at
    (hexStrU8 [a, b] none).bind fun r =>
      (pairLoop rest).map fun s => (r.2 :: s.1, s.2)
  | left => some ([], left)

def hexStrBuffer (str : List Int8) (size : Nat) : Option Decoded :=
  if str.length / 2 > size then some { ret := .noBuffer, out := [], size }
  else
    (pairLoop str).map fun s =>
      if s.2.length = 0 then { ret := .ok, out := s.1, size := s.1.length }
      else { ret := .invalidParam, out := s.1, size }

def IsHex (c : Int8) : Prop :=
  48 ≤ c.toInt ∧ c.toInt ≤ 57 ∨ 65 ≤ c.toInt ∧ c.toInt ≤ 70 ∨ 97 ≤ c.toInt ∧ c.toInt ≤ 102

instance (c : Int8) : Decidable (IsHex c) :=
  inferInstanceAs (Decidable (_ ∨ _ ∨ _))

def digitValue (c : Int8) : Nat :=
  if c.toInt ≤ 57 then (c.toInt - 48).toNat
  else if c.toInt ≤ 70 then (c.toInt - 55).toNat
  else (c.toInt - 87).toNat

def hexValue (str : List Int8) : Nat := Nat.ofDigits 16 (str.map digitValue).reverse

theorem digitValue_lt {c : Int8} (h : IsHex c) : digitValue c < 16 := by
  unfold IsHex at h
  unfold digitValue
  split
  · omega
  · split <;> omega

theorem hexMap_take : hexMap.take 128 = (List.range 128).map fun n : Nat =>
    if 48 ≤ n ∧ n ≤ 57 then (n : Int) - 48
    else if 65 ≤ n ∧ n ≤ 70 then (n : Int) - 55
    else if 97 ≤ n ∧ n ≤ 102 then (n : Int) - 87
    else -1 := by decide +kernel

theorem hexMap_ascii {n : Nat} (h : n < 128) : hexMap[n]? =
    some (if 48 ≤ n ∧ n ≤ 57 then (n : Int) - 48
    else if 65 ≤ n ∧ n ≤ 70 then (n : Int) - 55
    else if 97 ≤ n ∧ n ≤ 102 then (n : Int) - 87
    else -1) := by
  rw [← List.getElem?_take_of_lt h, hexMap_take, List.getElem?_map, List.getElem?_range h,
    Option.map_some]

theorem lookup_negative {c : Int8} (h : c.toInt < 0) : lookup c = none :=
  if_neg (Int.not_le.mpr h)

theorem lookup_ascii {c : Int8} (h : 0 ≤ c.toInt) :
    lookup c = some (if IsHex c then (digitValue c : Int) else -1) := by
  have hlt : c.toInt < 128 := c.toInt_lt
  obtain ⟨n, hn⟩ := Int.eq_ofNat_of_zero_le h
  have htable := @hexMap_ascii n (by omega)
  rw [lookup, if_pos h, hn, Int.toNat_natCast, htable]
  congr 1
  by_cases hhex : IsHex c
  · rw [if_pos hhex, digitValue, hn]
    unfold IsHex at hhex
    split_ifs <;> omega
  · rw [if_neg hhex]
    unfold IsHex at hhex
    split_ifs <;> omega

theorem hexValue_append (xs ys : List Int8) :
    hexValue (xs ++ ys) = hexValue ys + 16 ^ ys.length * hexValue xs := by
  rw [hexValue, List.map_append, List.reverse_append, Nat.ofDigits_append, List.length_reverse,
    List.length_map, hexValue, hexValue]

theorem hexValue_singleton (c : Int8) : hexValue [c] = digitValue c := by
  simp [hexValue]

theorem IsHex.nonneg {c : Int8} (h : IsHex c) : 0 ≤ c.toInt := by
  unfold IsHex at h
  omega

theorem hexLoop_digit {c : Int8} (h : IsHex c) (cs : List Int8) (val : BitVec 64) :
    hexLoop (c :: cs) val = hexLoop cs (BitVec.ofNat 64 (digitValue c) + val <<< 4) := by
  have hlt := digitValue_lt h
  have hentry : lookup c = some (digitValue c : Int) := by rw [lookup_ascii h.nonneg, if_pos h]
  have htmp : BitVec.ofInt 32 (digitValue c : Int) = BitVec.ofNat 32 (digitValue c) :=
    BitVec.ofInt_natCast 32 (digitValue c)
  have hvalid : BitVec.ofInt 32 (-1) ≠ BitVec.ofNat 32 (digitValue c) := by
    intro heq
    have hnat := congrArg BitVec.toNat heq
    have hones : (BitVec.ofInt 32 (-1)).toNat = 4294967295 := rfl
    rw [BitVec.toNat_ofNat, Nat.mod_eq_of_lt (by omega)] at hnat
    omega
  have hwide : (BitVec.ofNat 32 (digitValue c)).setWidth 64 = BitVec.ofNat 64 (digitValue c) := by
    apply BitVec.eq_of_toNat_eq
    rw [BitVec.toNat_setWidth, BitVec.toNat_ofNat, BitVec.toNat_ofNat,
      Nat.mod_eq_of_lt (by omega : digitValue c < 2 ^ 32)]
  rw [hexLoop, hentry, Option.bind_some]
  dsimp only
  rw [htmp, if_neg hvalid, hwide]

theorem hexLoop_other {c : Int8} (h : ¬ IsHex c) (cs : List Int8) (val : BitVec 64) :
    hexLoop (c :: cs) val = if 0 ≤ c.toInt then some (.invalidParam, val) else none := by
  rw [hexLoop]
  by_cases hpos : 0 ≤ c.toInt
  · rw [lookup_ascii hpos, if_neg h, Option.bind_some, if_pos hpos]
    exact if_pos rfl
  · rw [lookup_negative (by omega), if_neg hpos]
    rfl

theorem hexLoop_digits {str : List Int8} (h : ∀ c ∈ str, IsHex c) (n : Nat) :
    hexLoop str (BitVec.ofNat 64 n) =
      some (.ok, BitVec.ofNat 64 (hexValue str + 16 ^ str.length * n)) := by
  induction str generalizing n with
  | nil => simp [hexLoop, hexValue]
  | cons c cs ih =>
    obtain ⟨hc, hcs⟩ := List.forall_mem_cons.mp h
    have hvalue := hexValue_append [c] cs
    rw [List.singleton_append, hexValue_singleton] at hvalue
    have hval : BitVec.ofNat 64 (digitValue c) + BitVec.ofNat 64 n <<< 4 =
        BitVec.ofNat 64 (digitValue c + 16 * n) := by
      apply BitVec.eq_of_toNat_eq
      simp [BitVec.toNat_shiftLeft, Nat.shiftLeft_eq]
      omega
    rw [hexLoop_digit hc, hval, ih hcs, hvalue, List.length_cons, Nat.pow_succ,
      Nat.mul_add, Nat.add_assoc, Nat.mul_assoc]

def firstOther (str : List Int8) : Option Int8 := str.find? fun c => ¬ IsHex c

theorem firstOther_eq_none {str : List Int8} : firstOther str = none ↔ ∀ c ∈ str, IsHex c := by
  simp [firstOther]

theorem hexLoop_stops {str : List Int8} {c : Int8} (h : firstOther str = some c)
    (val : BitVec 64) :
    ∃ val', hexLoop str val = if 0 ≤ c.toInt then some (.invalidParam, val') else none := by
  induction str generalizing val with
  | nil => cases h
  | cons d ds ih =>
    by_cases hd : IsHex d
    · rw [hexLoop_digit hd]
      exact ih (by simpa [firstOther, hd] using h) _
    · have hsame : d = c := by simpa [firstOther, hd] using h
      exact ⟨val, hsame ▸ hexLoop_other hd ds val⟩

variable {w : Nat} {str : List Int8}

theorem hexStrScalar_digits (h : ∀ c ∈ str, IsHex c) (hw : w ≤ 64) (val : Option (BitVec w)) :
    hexStrScalar w str val = some (.ok, some (BitVec.ofNat w (hexValue str))) := by
  have hloop := hexLoop_digits h 0
  have hwidth : (BitVec.ofNat 64 (hexValue str)).setWidth w = BitVec.ofNat w (hexValue str) :=
    BitVec.setWidth_ofNat_of_le hw (hexValue str)
  rw [Nat.mul_zero, Nat.add_zero] at hloop
  rw [hexStrScalar, hexStr, show (0 : BitVec 64) = BitVec.ofNat 64 0 from rfl, hloop,
    Option.map_some, if_pos rfl, hwidth]

theorem hexStrScalar_stops {c : Int8} (h : firstOther str = some c) (val : Option (BitVec w)) :
    hexStrScalar w str val = if 0 ≤ c.toInt then some (.invalidParam, val) else none := by
  obtain ⟨val', hloop⟩ := hexLoop_stops h 0
  rw [hexStrScalar, hexStr, hloop]
  split_ifs <;> rfl

/-- The decoder stores the value of a string of digits modulo `2 ^ w`; it rejects every other
string and leaves the variable as it is. No character is looked up outside the table. -/
structure Decodes (decoder : List Int8 → Option (BitVec w) → Option (Errcode × Option (BitVec w)))
    (str : List Int8) : Prop where
  accepts : (∀ c ∈ str, IsHex c) → ∀ val,
    decoder str val = some (.ok, some (BitVec.ofNat w (hexValue str)))
  rejects : (¬ ∀ c ∈ str, IsHex c) → ∀ val, decoder str val = some (.invalidParam, val)

theorem decodes_iff (str : List Int8) (hw : w ≤ 64) :
    Decodes (hexStrScalar w) str ↔ ∀ c ∈ firstOther str, 0 ≤ c.toInt := by
  cases hfirst : firstOther str with
  | none =>
    have hall := firstOther_eq_none.mp hfirst
    exact iff_of_true ⟨fun _ => hexStrScalar_digits hall hw, fun hother => absurd hall hother⟩ nofun
  | some c =>
    have hother : ¬ ∀ c ∈ str, IsHex c := fun hall => by
      rw [firstOther_eq_none.mpr hall] at hfirst
      cases hfirst
    by_cases hpos : 0 ≤ c.toInt
    · refine iff_of_true ⟨fun hall => absurd hall hother, fun _ val => ?_⟩ (by simpa using hpos)
      rw [hexStrScalar_stops hfirst, if_pos hpos]
    · refine iff_of_false (fun h => ?_) (by simpa using hpos)
      have hval := h.rejects hother none
      rw [hexStrScalar_stops hfirst, if_neg hpos] at hval
      cases hval

theorem scalars_decode_iff (str : List Int8) :
    Decodes hexStrU64 str ∧ Decodes hexStrU32 str ∧ Decodes hexStrU8 str ↔
      ∀ c ∈ firstOther str, 0 ≤ c.toInt := by
  have h64 := decodes_iff str (show 64 ≤ 64 by decide)
  have h32 := decodes_iff str (show 32 ≤ 64 by decide)
  have h8 := decodes_iff str (show 8 ≤ 64 by decide)
  rw [hexStrU64, hexStrU32, hexStrU8, h64, h32, h8, and_self, and_self]

theorem highByte_undefined :
    hexStrU8 [-128] none = none ∧ ¬ ∀ str, Decodes hexStrU8 str := by
  have hnone : hexStrU8 [-128] none = none := by decide
  have hother : ¬ ∀ c ∈ [(-128 : Int8)], IsHex c := fun hall =>
    absurd (hall (-128) List.mem_cons_self) (by decide)
  refine ⟨hnone, fun hall => ?_⟩
  have h := (hall [-128]).rejects hother none
  rw [hnone] at h
  cases h

def pair (str : List Int8) (i : Nat) : List Int8 := (str.drop (2 * i)).take 2

def pairBytes (str : List Int8) : List UInt8 :=
  (List.range (str.length / 2)).map fun i => UInt8.ofNat (hexValue (pair str i))

theorem pairBytes_length (str : List Int8) : (pairBytes str).length = str.length / 2 := by
  simp [pairBytes]

theorem pairBytes_cons (a b : Int8) (rest : List Int8) :
    pairBytes (a :: b :: rest) = UInt8.ofNat (hexValue [a, b]) :: pairBytes rest := by
  have hlen : (a :: b :: rest).length / 2 = rest.length / 2 + 1 := by
    rw [List.length_cons, List.length_cons]
    omega
  rw [pairBytes, hlen, List.range_succ_eq_map, List.map_cons, List.map_map]
  rfl

theorem hexValue_pair_lt {a b : Int8} (ha : IsHex a) (hb : IsHex b) : hexValue [a, b] < 256 := by
  have hlta := digitValue_lt ha
  have hltb := digitValue_lt hb
  have hvalue := hexValue_append [a] [b]
  rw [List.singleton_append, hexValue_singleton, hexValue_singleton] at hvalue
  rw [hvalue, List.length_singleton]
  omega

/-- The bytes are those of the value of the whole string, the most significant first. -/
theorem ofBytes_pairBytes {str : List Int8} (h : ∀ c ∈ str, IsHex c)
    (heven : str.length % 2 = 0) : ofBytes (pairBytes str).reverse = hexValue str := by
  induction str using pairLoop.induct with
  | case1 a b rest ih =>
    obtain ⟨ha, hrest⟩ := List.forall_mem_cons.mp h
    obtain ⟨hb, hrest⟩ := List.forall_mem_cons.mp hrest
    rw [List.length_cons, List.length_cons] at heven
    have hlt := hexValue_pair_lt ha hb
    have hbyte : ofBytes [UInt8.ofNat (hexValue [a, b])] = hexValue [a, b] := by
      rw [ofBytes, ofBytes, UInt8.toNat_ofNat', Nat.mod_eq_of_lt hlt]
      rfl
    have hpow : 256 ^ (rest.length / 2) = 16 ^ rest.length := by
      rw [show 256 = 16 ^ 2 from rfl, ← Nat.pow_mul]
      congr 1
      omega
    rw [pairBytes_cons, List.reverse_cons, ofBytes_append, List.length_reverse, pairBytes_length,
      ih hrest (by omega), hbyte, hpow, ← hexValue_append]
    rfl
  | case2 left hshort =>
    cases left with
    | nil => rfl
    | cons a left =>
      cases left with
      | nil => cases heven
      | cons b rest => exact absurd rfl (hshort a b rest)

/-- The loop writes a byte for each pair and leaves a character at most, whatever it reads. -/
theorem pairLoop_ascii {str : List Int8} (h : ∀ c ∈ str, 0 ≤ c.toInt) :
    ∃ out left, pairLoop str = some (out, left) ∧ left.length = str.length % 2 ∧
      ((∀ c ∈ str, IsHex c) → out = (pairBytes str).map fun byte => some byte.toBitVec) := by
  induction str using pairLoop.induct with
  | case1 a b rest ih =>
    obtain ⟨ha, hrest⟩ := List.forall_mem_cons.mp h
    obtain ⟨hb, hrest⟩ := List.forall_mem_cons.mp hrest
    obtain ⟨out, left, hloop, hleft, hout⟩ := ih hrest
    have hfirst : ∀ c ∈ firstOther [a, b], 0 ≤ c.toInt := by
      intro c hc
      have hmem := List.mem_of_find?_eq_some hc
      exact h c (List.mem_append_left rest hmem)
    have hdecodes := (decodes_iff [a, b] (show 8 ≤ 64 by decide)).mpr hfirst
    by_cases hhex : ∀ c ∈ [a, b], IsHex c
    · have hpair := hdecodes.accepts hhex none
      refine ⟨_, left, by rw [pairLoop, hexStrU8, hpair, hloop]; rfl, ?_, fun hall => ?_⟩
      · rw [hleft, List.length_cons, List.length_cons]
        omega
      · rw [pairBytes_cons, List.map_cons, ← hout fun c hc => hall c (by simp [hc])]
        rfl
    · have hpair := hdecodes.rejects hhex none
      refine ⟨_, left, by rw [pairLoop, hexStrU8, hpair, hloop]; rfl, ?_, fun hall => ?_⟩
      · rw [hleft, List.length_cons, List.length_cons]
        omega
      · exact absurd (fun c hc => hall c (List.mem_append_left rest hc)) hhex
  | case2 left hshort =>
    cases left with
    | nil => exact ⟨[], [], rfl, rfl, fun _ => rfl⟩
    | cons a left =>
      cases left with
      | nil => exact ⟨[], [a], rfl, rfl, fun _ => by simp [pairBytes]⟩
      | cons b rest => exact absurd rfl (hshort a b rest)

def WellFormed (str : List Int8) (size : Nat) : Prop :=
  str.length % 2 = 0 ∧ str.length / 2 ≤ size ∧ ∀ c ∈ str, IsHex c

structure HoldsBytes (str : List Int8) (out : List (Option (BitVec 8))) : Prop where
  length : out.length = str.length / 2
  pairs : ∀ i < str.length / 2, ∃ byte, out[i]? = some (some byte) ∧
    byte.toNat = hexValue (pair str i) ∧ ∀ val, hexStrU8 (pair str i) val = some (.ok, some byte)
  whole : str.length ≤ 16 → ∀ val, ∃ v : BitVec 64, hexStrU64 str val = some (.ok, some v) ∧
    out = (toBytes (str.length / 2) v.toNat).reverse.map fun byte => some byte.toBitVec

structure DecodesBuffer (str : List Int8) (size : Nat) (r : Decoded) : Prop where
  accepts : r.ret = .ok ↔ WellFormed str size
  decoded : r.ret = .ok → r.size = str.length / 2 ∧ HoldsBytes str r.out
  rejected : r.ret ≠ .ok → r.size = size

theorem pair_isHex {str : List Int8} (h : ∀ c ∈ str, IsHex c) (i : Nat) :
    ∀ c ∈ pair str i, IsHex c := fun c hc =>
  h c (List.mem_of_mem_drop (List.mem_of_mem_take hc))

theorem hexValue_lt {str : List Int8} (h : ∀ c ∈ str, IsHex c) :
    hexValue str < 16 ^ str.length := by
  have hlt := @Nat.ofDigits_lt_base_pow_length 16 (str.map digitValue).reverse (by decide) ?_
  · rwa [List.length_reverse, List.length_map] at hlt
  · intro d hd
    obtain ⟨c, hc, rfl⟩ := List.mem_map.mp (List.mem_reverse.mp hd)
    exact digitValue_lt (h c hc)

theorem holdsBytes {str : List Int8} (h : ∀ c ∈ str, IsHex c) (heven : str.length % 2 = 0) :
    HoldsBytes str ((pairBytes str).map fun byte => some byte.toBitVec) where
  length := by rw [List.length_map, pairBytes_length]
  pairs := by
    intro i hi
    have hpair := pair_isHex h i
    have hlen : (pair str i).length = 2 := by
      rw [pair, List.length_take, List.length_drop]
      omega
    have hlt := hexValue_lt hpair
    rw [hlen] at hlt
    refine ⟨BitVec.ofNat 8 (hexValue (pair str i)), ?_, ?_, fun val => ?_⟩
    · rw [pairBytes, List.map_map, List.getElem?_map, List.getElem?_range hi]
      rfl
    · rw [BitVec.toNat_ofNat]
      exact Nat.mod_eq_of_lt hlt
    · exact hexStrScalar_digits hpair (by decide) val
  whole := by
    intro hmax val
    have hlt := hexValue_lt h
    have hpow : 16 ^ str.length ≤ 16 ^ 16 := Nat.pow_le_pow_right (by decide) hmax
    have hbytes := toBytes_ofBytes (pairBytes str).reverse
    rw [List.length_reverse, pairBytes_length, ofBytes_pairBytes h heven] at hbytes
    refine ⟨BitVec.ofNat 64 (hexValue str), hexStrScalar_digits h (by decide) val, ?_⟩
    rw [BitVec.toNat_ofNat, Nat.mod_eq_of_lt (by omega), hbytes, List.reverse_reverse]

theorem decodesBuffer_short {str : List Int8} {size : Nat} (h : size < str.length / 2) :
    ∃ r, hexStrBuffer str size = some r ∧ DecodesBuffer str size r := by
  refine ⟨_, if_pos h, iff_of_false nofun fun hwf => ?_, nofun, fun _ => rfl⟩
  have hroom := hwf.2.1
  omega

/-- The result of the scalar overload is not looked at, so a string of the right length is always
accepted. -/
theorem buffer_decodes_iff {str : List Int8} (h : ∀ c ∈ str, 0 ≤ c.toInt) (size : Nat) :
    (∃ r, hexStrBuffer str size = some r ∧ DecodesBuffer str size r) ↔
      str.length % 2 = 1 ∨ size < str.length / 2 ∨ ∀ c ∈ str, IsHex c := by
  by_cases hroom : size < str.length / 2
  · exact iff_of_true (decodesBuffer_short hroom) (Or.inr (Or.inl hroom))
  · obtain ⟨out, left, hloop, hleft, hout⟩ := pairLoop_ascii h
    rw [hexStrBuffer, if_neg hroom, hloop, Option.map_some]
    dsimp only
    rw [hleft]
    by_cases hodd : str.length % 2 = 1
    · refine iff_of_true ⟨_, rfl, ?_⟩ (Or.inl hodd)
      rw [if_neg (by omega)]
      refine ⟨iff_of_false nofun fun hwf => ?_, nofun, fun _ => rfl⟩
      have heven := hwf.1
      omega
    · rw [if_pos (by omega)]
      by_cases hhex : ∀ c ∈ str, IsHex c
      · have hheld := holdsBytes hhex (by omega)
        obtain rfl := hout hhex
        refine iff_of_true ⟨_, rfl, ?_⟩ (Or.inr (Or.inr hhex))
        exact ⟨iff_of_true rfl ⟨by omega, by omega, hhex⟩, fun _ => ⟨hheld.length, hheld⟩,
          fun hne => absurd rfl hne⟩
      · refine iff_of_false ?_ (by simp [hodd, hroom, hhex])
        rintro ⟨r, hr, hdec⟩
        cases hr
        exact hhex (hdec.accepts.mp rfl).2.2

theorem buffer_decodes_4f :
    ∃ r, hexStrBuffer [52, 102] 2 = some r ∧ DecodesBuffer [52, 102] 2 r := by
  have hhex : ∀ c ∈ ([52, 102] : List Int8), IsHex c := by
    refine List.forall_mem_cons.mpr ⟨?_, List.forall_mem_singleton.mpr ?_⟩
    · decide
    · decide
  have hascii : ∀ c ∈ ([52, 102] : List Int8), 0 ≤ c.toInt := fun c hc => (hhex c hc).nonneg
  exact (buffer_decodes_iff hascii 2).mpr (Or.inr (Or.inr hhex))

theorem letterZ_accepted :
    hexStrBuffer [122, 122] 1 = some { ret := .ok, out := [none], size := 1 } ∧
      ¬ ∃ r, hexStrBuffer [122, 122] 1 = some r ∧ DecodesBuffer [122, 122] 1 r := by
  have hok : hexStrBuffer [122, 122] 1 = some { ret := .ok, out := [none], size := 1 } := by decide
  refine ⟨hok, ?_⟩
  rintro ⟨r, hr, hdec⟩
  rw [hok] at hr
  cases hr
  have hwf := hdec.accepts.mp rfl
  exact absurd (hwf.2.2 122 (by decide)) (by decide)

end Flyzero.Hex
