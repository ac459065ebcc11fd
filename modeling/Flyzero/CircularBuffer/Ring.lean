import Flyzero.Lib.Window

/-! The ring of `circular_buffer.c`: cursor and address arithmetic on `size_t`
words, and the four data operations of a producer and a consumer. -/
namespace Flyzero.CircularBuffer

abbrev Word := BitVec 64

/-- `struct circular_buffer_header`. The cursors run freely, modulo `2 ^ 64`. -/
structure Header where
  r : Word
  w : Word
  capacity : Word
  privateSize : Word
  pageMask : Word
  flag : BitVec 32
  name : List UInt8

/-- `r` and `w` fill a cache line each; the other fields end at byte 220 of the next lines. -/
def sizeofHeader : Word := 256

structure Buffer where
  addr : Word
  header : Header
  ring : Nat → UInt8

structure Piece where
  data : Word
  size : Word

def readableSize (cb : Header) : Word := cb.w - cb.r

def writableSize (cb : Header) : Word := cb.capacity - readableSize cb

def alignedHeaderSize (privateSize pageMask : Word) : Word :=
  (sizeofHeader + privateSize + pageMask) &&& ~~~pageMask

def bufferStart (cb : Buffer) : Word :=
  cb.addr + alignedHeaderSize cb.header.privateSize cb.header.pageMask

def bufferPos (cb : Buffer) (pos : Word) : Word :=
  bufferStart cb + (pos &&& (cb.header.capacity - 1#64))

def getWritable (cb : Buffer) : Piece :=
  { size := writableSize cb.header, data := bufferPos cb cb.header.w }

def getReadable (cb : Buffer) : Piece :=
  { size := readableSize cb.header, data := bufferPos cb cb.header.r }

def clamp (size limit : Word) : Word := if size > limit then limit else size

def popData (cb : Buffer) (size : Word) : Word × Buffer :=
  let size := clamp size (readableSize cb.header)
  (size, { cb with header.r := cb.header.r + size })

def pushData (cb : Buffer) (size : Word) : Word × Buffer :=
  let size := clamp size (writableSize cb.header)
  (size, { cb with header.w := cb.header.w + size })

/-- The mapping shows ring offsets `i` and `i + capacity` as the same byte. -/
def ringOffset (cb : Buffer) (a : Word) : Nat :=
  (a - bufferStart cb).toNat % cb.header.capacity.toNat

def byteAt (cb : Buffer) (a : Word) : UInt8 := cb.ring (ringOffset cb a)

def load (cb : Buffer) (a : Word) (len : Nat) : List UInt8 :=
  (List.range len).map fun j => byteAt cb (a + BitVec.ofNat 64 j)

def storeByte (cb : Buffer) (a : Word) (b : UInt8) : Buffer :=
  { cb with ring := Function.update cb.ring (ringOffset cb a) b }

def store (cb : Buffer) (a : Word) : List UInt8 → Buffer
  | [] => cb
  | b :: bs => store (storeByte cb a b) (a + 1#64) bs

@[simp] theorem storeByte_addr (cb : Buffer) (a : Word) (b : UInt8) :
    (storeByte cb a b).addr = cb.addr := rfl

@[simp] theorem storeByte_header (cb : Buffer) (a : Word) (b : UInt8) :
    (storeByte cb a b).header = cb.header := rfl

@[simp] theorem store_addr (cb : Buffer) (a : Word) (bs : List UInt8) :
    (store cb a bs).addr = cb.addr := by
  induction bs generalizing cb a with
  | nil => rfl
  | cons b bs ih => rw [store, ih, storeByte_addr]

@[simp] theorem store_header (cb : Buffer) (a : Word) (bs : List UInt8) :
    (store cb a bs).header = cb.header := by
  induction bs generalizing cb a with
  | nil => rfl
  | cons b bs ih => rw [store, ih, storeByte_header]

theorem pushData_header (cb : Buffer) (n : Word) : (pushData cb n).2.header =
    { cb.header with w := cb.header.w + clamp n (writableSize cb.header) } := rfl

theorem load_length (cb : Buffer) (a : Word) (len : Nat) : (load cb a len).length = len := by
  simp [load]

theorem clamp_toNat (size limit : Word) :
    (clamp size limit).toNat = min size.toNat limit.toNat := by
  unfold clamp
  split
  · rename_i h
    have := BitVec.lt_def.mp h
    omega
  · rename_i h
    have := BitVec.lt_def.not.mp h
    omega

/-! A ring whose capacity is a power of two. -/
section PowerOfTwo
variable {cb : Buffer} {k : Nat}

theorem ringOffset_bufferPos (hcap : cb.header.capacity.toNat = 2 ^ k) (p : Nat) {j : Nat}
    (hj : j ≤ 2 ^ k) :
    ringOffset cb (bufferPos cb (BitVec.ofNat 64 p) + BitVec.ofNat 64 j) = (p + j) % 2 ^ k := by
  have hk := Window.lt_width_of_toNat_eq hcap
  have hlap : 2 ^ k + 2 ^ k ≤ 2 ^ 64 := by
    rw [← Nat.mul_two, ← Nat.pow_succ]
    exact Nat.pow_le_pow_right (by decide) hk
  have hmod := Nat.mod_lt p (Nat.two_pow_pos k)
  have hoff : bufferPos cb (BitVec.ofNat 64 p) + BitVec.ofNat 64 j - bufferStart cb
      = (BitVec.ofNat 64 p &&& (cb.header.capacity - 1#64)) + BitVec.ofNat 64 j := by
    rw [bufferPos, BitVec.add_assoc, BitVec.add_comm, BitVec.add_sub_cancel]
  rw [ringOffset, hoff, hcap, BitVec.toNat_add, Window.cursor_mask hcap, BitVec.toNat_ofNat,
    Nat.mod_eq_of_lt (a := j) (by omega), Nat.mod_eq_of_lt (b := 2 ^ 64) (by omega),
    Nat.mod_add_mod]

theorem load_bufferPos (hcap : cb.header.capacity.toNat = 2 ^ k) (p : Nat) {len : Nat}
    (hlen : len ≤ 2 ^ k) :
    load cb (bufferPos cb (BitVec.ofNat 64 p)) len = Window.cells cb.ring (2 ^ k) p len := by
  apply List.map_congr_left
  intro j hj
  have hj := List.mem_range.mp hj
  rw [byteAt, ringOffset_bufferPos hcap p (by omega)]

theorem store_ring (hcap : cb.header.capacity.toNat = 2 ^ k) (p j : Nat) (bs : List UInt8)
    (hlen : j + bs.length ≤ 2 ^ k) :
    (store cb (bufferPos cb (BitVec.ofNat 64 p) + BitVec.ofNat 64 j) bs).ring
      = Window.fill cb.ring (2 ^ k) (p + j) bs := by
  induction bs generalizing cb j with
  | nil => rfl
  | cons b bs ih =>
    rw [List.length_cons] at hlen
    have hnext : bufferPos cb (BitVec.ofNat 64 p) + BitVec.ofNat 64 j + 1#64
        = bufferPos cb (BitVec.ofNat 64 p) + BitVec.ofNat 64 (j + 1) := by
      rw [BitVec.add_assoc, BitVec.ofNat_add]
    let cb₁ := storeByte cb (bufferPos cb (BitVec.ofNat 64 p) + BitVec.ofNat 64 j) b
    have hcap₁ : cb₁.header.capacity.toNat = 2 ^ k := hcap
    have hi := ih hcap₁ (j + 1) (by omega)
    rw [store, Window.fill, hnext, ← ringOffset_bufferPos hcap p (by omega), Nat.add_assoc]
    exact hi

theorem store_bufferPos_ring (hcap : cb.header.capacity.toNat = 2 ^ k) (p : Nat)
    (bs : List UInt8) (hlen : bs.length ≤ 2 ^ k) :
    (store cb (bufferPos cb (BitVec.ofNat 64 p)) bs).ring
      = Window.fill cb.ring (2 ^ k) p bs := by
  have h := store_ring hcap p 0 bs (by omega)
  rwa [BitVec.add_zero, Nat.add_zero] at h

end PowerOfTwo

/-- The cursors of a ring of `2 ^ k` bytes stand at the unbounded positions `lo` and `hi`. -/
structure At (cb : Buffer) (k lo hi : Nat) : Prop where
  cap : cb.header.capacity.toNat = 2 ^ k
  r : cb.header.r = BitVec.ofNat 64 lo
  w : cb.header.w = BitVec.ofNat 64 hi
  le : lo ≤ hi
  room : hi ≤ lo + 2 ^ k

namespace At
variable {cb : Buffer} {k lo hi : Nat}

theorem pow_lt (h : At cb k lo hi) : 2 ^ k < 2 ^ 64 := h.cap ▸ cb.header.capacity.isLt

theorem readableSize_toNat (h : At cb k lo hi) : (readableSize cb.header).toNat = hi - lo := by
  have hlap := h.room
  have hk := h.pow_lt
  rw [readableSize, h.r, h.w]
  exact Window.cursor_sub h.le (by omega)

theorem writableSize_toNat (h : At cb k lo hi) :
    (writableSize cb.header).toNat = lo + 2 ^ k - hi := by
  have hr := h.readableSize_toNat
  have hlap := h.room
  have hle := h.le
  rw [writableSize, BitVec.toNat_sub_of_le (by rw [BitVec.le_def, hr, h.cap]; omega), hr, h.cap]
  omega

theorem load_readable (h : At cb k lo hi) :
    load cb (getReadable cb).data (getReadable cb).size.toNat
      = Window.cells cb.ring (2 ^ k) lo (hi - lo) := by
  have hroom := h.room
  have hle := h.le
  change load cb (bufferPos cb cb.header.r) (readableSize cb.header).toNat = _
  rw [h.readableSize_toNat, h.r, load_bufferPos h.cap lo (by omega)]

theorem push (h : At cb k lo hi) (n : Word) :
    (pushData cb n).1.toNat = min n.toNat (lo + 2 ^ k - hi) ∧
      At (pushData cb n).2 k lo (hi + min n.toNat (lo + 2 ^ k - hi)) := by
  have hn : (clamp n (writableSize cb.header)).toNat = min n.toNat (lo + 2 ^ k - hi) := by
    rw [clamp_toNat, h.writableSize_toNat]
  have hle := h.le
  have hroom := h.room
  refine ⟨hn, h.cap, h.r, ?_, by omega, by omega⟩
  change cb.header.w + _ = _
  rw [h.w, Window.cursor_add, hn]

theorem pop (h : At cb k lo hi) (n : Word) :
    (popData cb n).1.toNat = min n.toNat (hi - lo) ∧
      At (popData cb n).2 k (lo + min n.toNat (hi - lo)) hi := by
  have hn : (clamp n (readableSize cb.header)).toNat = min n.toNat (hi - lo) := by
    rw [clamp_toNat, h.readableSize_toNat]
  have hle := h.le
  have hroom := h.room
  refine ⟨hn, h.cap, ?_, h.w, by omega, by omega⟩
  change cb.header.r + _ = _
  rw [h.r, Window.cursor_add, hn]

theorem store (h : At cb k lo hi) (a : Word) (bs : List UInt8) :
    At (store cb a bs) k lo hi := by
  refine ⟨?_, ?_, ?_, h.le, h.room⟩ <;> rw [store_header]
  exacts [h.cap, h.r, h.w]

end At

def contents (cb : Buffer) : List UInt8 :=
  load cb (getReadable cb).data (getReadable cb).size.toNat

theorem At.contents_eq {cb : Buffer} {k lo hi : Nat} (h : At cb k lo hi) :
    contents cb = Window.cells cb.ring (2 ^ k) lo (hi - lo) := h.load_readable

theorem At.contents_pop {cb : Buffer} {k lo hi : Nat} (h : At cb k lo hi) (n : Word) :
    contents (popData cb n).2 = (contents cb).drop n.toNat := by
  rw [(h.pop n).2.contents_eq, h.contents_eq]
  change Window.cells cb.ring _ _ _ = _
  rcases Nat.le_total n.toNat (hi - lo) with hn | hn
  · rw [Nat.min_eq_left hn, Window.cells_drop _ _ _ hn, Nat.sub_add_eq]
  · rw [Nat.min_eq_right hn, List.drop_of_length_le (by simpa using hn),
      show hi - (lo + (hi - lo)) = 0 by omega, Window.cells_zero]

theorem At.contents_push {cb : Buffer} {k lo hi : Nat} (h : At cb k lo hi) (bs : List UInt8)
    (hlen : bs.length ≤ lo + 2 ^ k - hi) (n : Word)
    (hn : min n.toNat (lo + 2 ^ k - hi) ≤ bs.length) :
    contents (pushData (CircularBuffer.store cb (getWritable cb).data bs) n).2
      = contents cb ++ bs.take (min n.toNat (lo + 2 ^ k - hi)) := by
  have hroom := h.room
  have hle := h.le
  have hs := h.store (getWritable cb).data bs
  rw [(hs.push n).2.contents_eq, h.contents_eq]
  change Window.cells (CircularBuffer.store cb (bufferPos cb cb.header.w) bs).ring _ _ _ = _
  rw [h.w, store_bufferPos_ring h.cap hi bs (by omega), Nat.sub_add_comm hle, Window.cells_add,
    Window.cells_fill_ahead _ _ (by omega) (by omega), Nat.add_sub_cancel' hle,
    ← Window.cells_take _ _ _ hn, Window.cells_fill _ _ _ _ (by omega)]

theorem At.contents_store {cb : Buffer} {k lo hi : Nat} (h : At cb k lo hi) (bs : List UInt8)
    (hlen : bs.length ≤ lo + 2 ^ k - hi) :
    contents (CircularBuffer.store cb (getWritable cb).data bs) = contents cb := by
  have hroom := h.room
  have hle := h.le
  rw [(h.store _ bs).contents_eq, h.contents_eq]
  change Window.cells (CircularBuffer.store cb (bufferPos cb cb.header.w) bs).ring _ _ _ = _
  rw [h.w, store_bufferPos_ring h.cap hi bs (by omega),
    Window.cells_fill_ahead _ _ (by omega) (by omega)]

def zeroRing (capacity : Word) : Buffer where
  addr := 0x7f0000000000
  header := { r := 0, w := 0, name := [0], capacity, privateSize := 0, pageMask := 4095, flag := 0 }
  ring := fun _ => 0

end Flyzero.CircularBuffer
