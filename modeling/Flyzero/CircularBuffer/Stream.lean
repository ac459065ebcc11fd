import Flyzero.CircularBuffer.Create
import Flyzero.Lib.Runs
import Mathlib.Data.Nat.Bitwise
import Mathlib.Data.Nat.Factorization.Basic

/-! Producer and consumer rounds on a created buffer, and the capacities for
which it is a first-in first-out byte stream. -/
namespace Flyzero.CircularBuffer

inductive Round where
  | produce (bytes : List UInt8)
  | consume (k : Nat)

structure Session where
  buffer : Buffer
  written : List UInt8
  consumed : List UInt8

/-- One round; a count above the size of the piece is not a round. -/
def round (s : Session) : Round → Option Session
  | .produce bytes =>
    let piece := getWritable s.buffer
    if bytes.length ≤ piece.size.toNat then
      let cb := store s.buffer piece.data bytes
      some { s with
        buffer := (pushData cb (BitVec.ofNat 64 bytes.length)).2
        written := s.written ++ bytes }
    else none
  | .consume k =>
    let piece := getReadable s.buffer
    if k ≤ piece.size.toNat then
      some { s with
        buffer := (popData s.buffer (BitVec.ofNat 64 k)).2
        consumed := s.consumed ++ load s.buffer piece.data k }
    else none

/-- After every sequence of rounds, the bytes read and the bytes exposed are the bytes written. -/
def FifoStream (cb : Buffer) : Prop :=
  ∀ rounds s, Runs.exec round ⟨cb, [], []⟩ rounds = some s →
    s.consumed ++ contents s.buffer = s.written

structure Faithful (k : Nat) (s : Session) : Prop where
  cursors : ∃ lo hi, At s.buffer k lo hi
  stream : s.consumed ++ contents s.buffer = s.written

theorem round_faithful {k : Nat} (s : Session) (e : Round) (t : Session)
    (hstep : round s e = some t) (h : Faithful k s) : Faithful k t := by
  obtain ⟨⟨lo, hi, hat⟩, hstream⟩ := h
  cases e with
  | produce bytes =>
    obtain ⟨hlen, hstep⟩ := Option.ite_none_right_eq_some.mp hstep
    cases hstep
    have hsize : (getWritable s.buffer).size.toNat = lo + 2 ^ k - hi := hat.writableSize_toNat
    have hlt := (getWritable s.buffer).size.isLt
    have hn : (BitVec.ofNat 64 bytes.length).toNat = bytes.length := by
      rw [BitVec.toNat_ofNat, Nat.mod_eq_of_lt (by omega)]
    refine ⟨⟨_, _, ((hat.store _ bytes).push _).2⟩, ?_⟩
    have hmin : min (BitVec.ofNat 64 bytes.length).toNat (lo + 2 ^ k - hi) = bytes.length := by
      rw [hn, Nat.min_eq_left (hsize ▸ hlen)]
    rw [hat.contents_push bytes (hsize ▸ hlen) _ hmin.le, hmin, List.take_length, ← hstream,
      List.append_assoc]
  | consume n =>
    obtain ⟨hlen, hstep⟩ := Option.ite_none_right_eq_some.mp hstep
    cases hstep
    have hlt := (getReadable s.buffer).size.isLt
    have hn : (BitVec.ofNat 64 n).toNat = n := by
      rw [BitVec.toNat_ofNat, Nat.mod_eq_of_lt (by omega)]
    refine ⟨⟨_, _, (hat.pop _).2⟩, ?_⟩
    have htake : load s.buffer (getReadable s.buffer).data n = (contents s.buffer).take n := by
      rw [contents, load, load, ← List.map_take, List.take_range, Nat.min_eq_left hlen]
    rw [hat.contents_pop, hn, htake, List.append_assoc, List.take_append_drop, hstream]

theorem fifoStream_of_pow {cb : Buffer} {k : Nat} (h : At cb k 0 0) : FifoStream cb := by
  intro rounds s hrun
  have hstart : Faithful k ⟨cb, [], []⟩ := ⟨⟨0, 0, h⟩, by rw [h.contents_eq]; rfl⟩
  exact (Runs.exec_invariant round_faithful hrun hstart).stream

/-- The mask has a hole at the power of two in the capacity. -/
theorem two_pow_and_mask (a m : Nat) (hm : Odd m) : 2 ^ a &&& (2 ^ a * m - 1) = 0 := by
  have hpos := Nat.two_pow_pos a
  obtain ⟨j, rfl⟩ := hm
  have hdiv : (2 ^ a * (2 * j + 1) - 1) / 2 ^ a = 2 * j := by
    rw [Nat.mul_add, Nat.mul_one, Nat.add_sub_assoc hpos, Nat.mul_add_div hpos,
      Nat.div_eq_of_lt (by omega), Nat.add_zero]
  have hbit : (2 ^ a * (2 * j + 1) - 1).testBit a = false := by
    rw [Nat.testBit_eq_decide_div_mod_eq, hdiv]
    simp
  rw [Nat.two_pow_and, hbit]
  rfl

theorem bufferPos_hole {cb : Buffer} {a m : Nat} (hcap : cb.header.capacity.toNat = 2 ^ a * m)
    (hm : Odd m) : bufferPos cb (BitVec.ofNat 64 (2 ^ a)) = bufferStart cb := by
  have hpos : 0 < m := hm.pos
  have hlt := cb.header.capacity.isLt
  have hle := Nat.le_mul_of_pos_right (2 ^ a) hpos
  have htwo := Nat.two_pow_pos a
  have hmask : (cb.header.capacity - 1#64).toNat = 2 ^ a * m - 1 := by
    rw [BitVec.toNat_sub_of_le (by rw [BitVec.le_def, BitVec.toNat_ofNat]; omega), hcap]
    rfl
  have hzero : BitVec.ofNat 64 (2 ^ a) &&& (cb.header.capacity - 1#64) = 0#64 := by
    apply BitVec.eq_of_toNat_eq
    rw [BitVec.toNat_and, hmask, BitVec.toNat_ofNat, Nat.mod_eq_of_lt (by omega),
      two_pow_and_mask a m hm]
    rfl
  rw [bufferPos, hzero, BitVec.add_zero]

theorem bufferPos_zero (cb : Buffer) : bufferPos cb 0#64 = bufferStart cb := by
  rw [bufferPos, BitVec.zero_and, BitVec.add_zero]

theorem contents_head? {cb : Buffer} (h : 0 < (getReadable cb).size.toNat) :
    (contents cb).head? = some (byteAt cb (getReadable cb).data) := by
  obtain ⟨n, hn⟩ := Nat.exists_eq_succ_of_ne_zero h.ne'
  rw [contents, hn, load, List.range_succ_eq_map, List.map_cons, List.head?_cons,
    BitVec.add_zero]

section Hole
variable {cb : Buffer} {a m : Nat}

def zeros (a : Nat) : List UInt8 := List.replicate (2 ^ a) 0

def zeroed (cb : Buffer) (a : Nat) : Buffer :=
  (pushData (store cb (bufferStart cb) (zeros a)) (BitVec.ofNat 64 (2 ^ a))).2

def overwritten (cb : Buffer) : Buffer := (pushData (storeByte cb (bufferStart cb) 1) 1#64).2

theorem zeros_length (a : Nat) : (zeros a).length = 2 ^ a := List.length_replicate

theorem hole_toNat (hcap : cb.header.capacity.toNat = 2 ^ a * m) (hm : 3 ≤ m) :
    (BitVec.ofNat 64 (2 ^ a)).toNat = 2 ^ a ∧ 2 ^ a * 3 ≤ cb.header.capacity.toNat := by
  have hroom : 2 ^ a * 3 ≤ 2 ^ a * m := Nat.mul_le_mul_left _ hm
  have hlt := cb.header.capacity.isLt
  exact ⟨by rw [BitVec.toNat_ofNat, Nat.mod_eq_of_lt (by omega)], by omega⟩

theorem fresh_writableSize (hr : cb.header.r = 0#64) (hw : cb.header.w = 0#64) :
    writableSize cb.header = cb.header.capacity := by
  rw [writableSize, readableSize, hr, hw, BitVec.sub_self, BitVec.sub_zero]

theorem zeroed_header (hr : cb.header.r = 0#64) (hw : cb.header.w = 0#64)
    (hcap : cb.header.capacity.toNat = 2 ^ a * m) (hm : 3 ≤ m) :
    (zeroed cb a).header = { cb.header with w := BitVec.ofNat 64 (2 ^ a) } := by
  obtain ⟨hpow, hroom⟩ := hole_toNat hcap hm
  have hclamp : clamp (BitVec.ofNat 64 (2 ^ a)) cb.header.capacity = BitVec.ofNat 64 (2 ^ a) := by
    apply BitVec.eq_of_toNat_eq
    rw [clamp_toNat, hpow, Nat.min_eq_left (by omega)]
  rw [zeroed, pushData_header, store_header, fresh_writableSize hr hw, hclamp, hw, BitVec.zero_add]

theorem round_zeros (hr : cb.header.r = 0#64) (hw : cb.header.w = 0#64)
    (hcap : cb.header.capacity.toNat = 2 ^ a * m) (hm : 3 ≤ m) :
    round ⟨cb, [], []⟩ (.produce (zeros a)) = some ⟨zeroed cb a, zeros a, []⟩ := by
  obtain ⟨-, hroom⟩ := hole_toNat hcap hm
  have hfit : (zeros a).length ≤ (getWritable cb).size.toNat := by
    change _ ≤ (writableSize cb.header).toNat
    rw [zeros_length, fresh_writableSize hr hw]
    omega
  rw [round, if_pos hfit, zeros_length, getWritable, hw, bufferPos_zero, List.nil_append]
  rfl

theorem zeroed_writableSize (hr : cb.header.r = 0#64) (hw : cb.header.w = 0#64)
    (hcap : cb.header.capacity.toNat = 2 ^ a * m) (hm : 3 ≤ m) :
    1 ≤ (writableSize (zeroed cb a).header).toNat := by
  obtain ⟨hpow, hroom⟩ := hole_toNat hcap hm
  have htwo := Nat.two_pow_pos a
  have hsize : writableSize (zeroed cb a).header =
      cb.header.capacity - BitVec.ofNat 64 (2 ^ a) := by
    rw [writableSize, readableSize, zeroed_header hr hw hcap hm, hr, BitVec.sub_zero]
  rw [hsize, BitVec.toNat_sub_of_le (by rw [BitVec.le_def, hpow]; omega), hpow]
  omega

theorem round_one (hr : cb.header.r = 0#64) (hw : cb.header.w = 0#64)
    (hcap : cb.header.capacity.toNat = 2 ^ a * m) (hm : 3 ≤ m) (hodd : Odd m) :
    round ⟨zeroed cb a, zeros a, []⟩ (.produce [1]) =
      some ⟨overwritten (zeroed cb a), zeros a ++ [1], []⟩ := by
  have hheader := zeroed_header hr hw hcap hm
  have hpos : bufferPos (zeroed cb a) (zeroed cb a).header.w = bufferStart (zeroed cb a) := by
    have hw' : (zeroed cb a).header.w = BitVec.ofNat 64 (2 ^ a) := by rw [hheader]
    have hcap' : (zeroed cb a).header.capacity.toNat = 2 ^ a * m := by rw [hheader, hcap]
    rw [hw', bufferPos_hole hcap' hodd]
  have hfit : [(1 : UInt8)].length ≤ (getWritable (zeroed cb a)).size.toNat :=
    zeroed_writableSize hr hw hcap hm
  rw [round, if_pos hfit, getWritable, hpos]
  rfl

theorem overwritten_head? (hr : cb.header.r = 0#64) (hw : cb.header.w = 0#64)
    (hcap : cb.header.capacity.toNat = 2 ^ a * m) (hm : 3 ≤ m) :
    (contents (overwritten (zeroed cb a))).head? = some 1 := by
  obtain ⟨hpow, hroom⟩ := hole_toNat hcap hm
  have hheader := zeroed_header hr hw hcap hm
  have hlt := cb.header.capacity.isLt
  have htwo := Nat.two_pow_pos a
  have hclamp : (clamp 1#64 (writableSize (zeroed cb a).header)).toNat = 1 := by
    rw [clamp_toNat]
    exact Nat.min_eq_left (zeroed_writableSize hr hw hcap hm)
  have hreadable : 0 < (getReadable (overwritten (zeroed cb a))).size.toNat := by
    have hsize : (getReadable (overwritten (zeroed cb a))).size =
        BitVec.ofNat 64 (2 ^ a) + clamp 1#64 (writableSize (zeroed cb a).header) := by
      change (zeroed cb a).header.w + clamp 1#64 (writableSize (zeroed cb a).header) -
        (zeroed cb a).header.r = _
      rw [hheader, hr, BitVec.sub_zero]
    rw [hsize, BitVec.toNat_add, hclamp, hpow, Nat.mod_eq_of_lt (by omega)]
    omega
  have hstart : (getReadable (overwritten (zeroed cb a))).data = bufferStart (zeroed cb a) := by
    change bufferPos (zeroed cb a) (zeroed cb a).header.r = _
    have hr' : (zeroed cb a).header.r = 0#64 := by rw [hheader, hr]
    rw [hr', bufferPos_zero]
  rw [contents_head? hreadable, hstart]
  exact congrArg some (Function.update_self ..)

/-- Fill the ring up to the hole with zeros and push a one: the one lands on the first zero. -/
theorem not_fifoStream_of_odd_part (hr : cb.header.r = 0#64) (hw : cb.header.w = 0#64)
    (hcap : cb.header.capacity.toNat = 2 ^ a * m) (hm : Odd m) (hne : m ≠ 1) :
    ¬ FifoStream cb := by
  intro hfifo
  have hthree : 3 ≤ m := by
    obtain ⟨j, rfl⟩ := hm
    omega
  have hrun : Runs.exec round ⟨cb, [], []⟩ [.produce (zeros a), .produce [1]] =
      some ⟨overwritten (zeroed cb a), zeros a ++ [1], []⟩ := by
    rw [Runs.exec, round_zeros hr hw hcap hthree, Option.bind_some, Runs.exec,
      round_one hr hw hcap hthree hm, Option.bind_some, Runs.exec]
  have hhead := congrArg List.head? (hfifo _ _ hrun)
  have hzero : (zeros a ++ [1]).head? = some 0 := by
    have hpos : 0 < (zeros a).length := zeros_length a ▸ Nat.two_pow_pos a
    rw [List.head?_append_of_ne_nil _ (List.ne_nil_of_length_pos hpos), zeros,
      List.head?_replicate, if_neg (Nat.two_pow_pos a).ne']
  rw [List.nil_append, overwritten_head? hr hw hcap hthree, hzero] at hhead
  cases hhead

end Hole

/-- The rounded capacity decides: the mask addresses every byte of the ring exactly when it is
a power of two. -/
theorem created_fifoStream_iff {out : Outcomes} {capacity : Word} {cb : Buffer}
    (h : Created out capacity cb) :
    FifoStream cb ↔ ∃ k, (alignCapacity capacity (out.pageSize - 1)).toNat = 2 ^ k := by
  have hf := h.fresh
  constructor
  · intro hfifo
    have hne : cb.header.capacity.toNat ≠ 0 := fun h0 =>
      hf.capacity_ne (BitVec.eq_of_toNat_eq h0)
    obtain ⟨a, m, hm, hcap⟩ := Nat.exists_eq_two_pow_mul_odd hne
    by_cases hone : m = 1
    · exact ⟨a, by rw [← hf.capacity_eq, hcap, hone, Nat.mul_one]⟩
    · exact absurd hfifo (not_fifoStream_of_odd_part hf.r hf.w hcap hm hone)
  · rintro ⟨k, hk⟩
    exact fifoStream_of_pow (hf.at hk)

def mappedAt (total : Word) : Outcomes :=
  { pageSize := 4096, shmOpen := 3, ftruncate := 0, reserve := 0x7f0000000000,
    mapShared := 0x7f0000000000, mirror := 0x7f0000000000 + total }

theorem one_page_fifoStream_iff : Created (mappedAt 8192) 1024 (zeroRing 4096) ∧
    (FifoStream (zeroRing 4096) ↔
      ∃ k, (alignCapacity 1024 ((mappedAt 8192).pageSize - 1)).toNat = 2 ^ k) := by
  have h : fcreate (mappedAt 8192) (-1) 1024 0 0 =
      some (some (0x7f0000000000, (zeroRing 4096).header), _) := rfl
  have hc : Created (mappedAt 8192) 1024 (zeroRing 4096) := .fcreate (fun _ => 0) h
  exact ⟨hc, created_fifoStream_iff hc⟩

theorem three_pages_not_fifoStream : Created (mappedAt 16384) 8193 (zeroRing 12288) ∧
    ¬ FifoStream (zeroRing 12288) := by
  have h : fcreate (mappedAt 16384) (-1) 8193 0 0 =
      some (some (0x7f0000000000, (zeroRing 12288).header), _) := rfl
  have hcap : (zeroRing 12288).header.capacity.toNat = 2 ^ 12 * 3 := rfl
  exact ⟨.fcreate (fun _ => 0) h, not_fifoStream_of_odd_part rfl rfl hcap (by decide) (by decide)⟩

end Flyzero.CircularBuffer
