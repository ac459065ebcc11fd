import Flyzero.Lib.ByteMem
import Flyzero.Lib.Window
import Flyzero.Utility

/-! `circular_queue`: free-running indices over a buffer of raw memory. -/
namespace Flyzero.CircularQueue
open ByteMem

/-- `Type`: its `sizeof`, and the bytes a constructor leaves in the object. -/
structure ObjectType where
  Value : Type
  sizeof : Nat
  bytes : Value → List UInt8
  bytes_length : ∀ v, (bytes v).length = sizeof
  sizeof_pos : 0 < sizeof

/-- The fields of a queue; the null buffer is `0`. -/
structure Queue where
  capacity : BitVec 64
  mask : BitVec 64
  buffer : Nat
  ridx : BitVec 64
  widx : BitVec 64
  deriving DecidableEq

/-- The constructor, with the memory `allocator` returns for a request. -/
def create (sizeof : Nat) (allocator : BitVec 64 → Nat) (capacity : BitVec 64) : Option Queue :=
  (Utility.nextPow2 capacity).map fun capacity =>
    { capacity, mask := capacity - 1#64, buffer := allocator (capacity * BitVec.ofNat 64 sizeof),
      ridx := 0, widx := 0 }

namespace Queue

def size (q : Queue) : BitVec 64 := q.widx - q.ridx

def full (q : Queue) : Bool := q.size == q.capacity

def empty (q : Queue) : Bool := q.size == 0#64

/-- `at` reads a pointer out of the buffer; it asserts that there is one. -/
def «at» (q : Queue) (mem : Mem) (idx : BitVec 64) : Option Nat :=
  if q.buffer = 0 then none else some (word mem (q.buffer + 8 * (idx &&& q.mask).toNat)).toNat

def push (q : Queue) (mem : Mem) (bytes : List UInt8) : Option (Option Nat × Mem × Queue) :=
  if q.buffer = 0 then none
  else if q.full then some (none, mem, q)
  else
    (q.at mem q.widx).map fun slot =>
      (some slot, store mem slot bytes, { q with widx := q.widx + 1#64 })

/-- The address of the object whose destructor runs; destruction leaves the bytes alone. -/
def pop (q : Queue) (mem : Mem) : Option (Option Nat × Queue) :=
  if q.buffer = 0 then none
  else if q.empty then some (none, q)
  else (q.at mem q.ridx).map fun slot => (some slot, { q with ridx := q.ridx + 1#64 })

def front (q : Queue) (mem : Mem) : Option Nat := if q.empty then none else q.at mem q.ridx

/-- `while (!empty()) pop();`, with the addresses destroyed. -/
def popAll (mem : Mem) : Nat → Queue → Option (List Nat × Queue)
  | 0, q => some ([], q)
  | n + 1, q =>
    (q.pop mem).bind fun (slot, q) =>
      (popAll mem n q).map fun (slots, q) => (slot.toList ++ slots, q)

def clear (q : Queue) (mem : Mem) : Option ((List Nat × Option Nat) × Queue) :=
  if q.buffer = 0 then some (([], none), q)
  else
    (popAll mem q.size.toNat q).map fun (slots, r) =>
      ((slots, some r.buffer), { r with capacity := 0, mask := 0, buffer := 0 })

def movedFrom : Queue := { capacity := 0, mask := 0, buffer := 0, ridx := 0, widx := 0 }

def moveConstruct (other : Queue) : Queue × Queue := (other, movedFrom)

def moveAssign (q other : Queue) (mem : Mem) :
    Option ((List Nat × Option Nat) × Queue × Queue) :=
  (q.clear mem).map fun (cleared, _) => (cleared, other, movedFrom)

end Queue

/-- A queue of `2 ^ k` slots whose indices count the unbounded positions `lo` and `hi`. -/
structure At (q : Queue) (k lo hi : Nat) : Prop where
  cap : q.capacity.toNat = 2 ^ k
  mask : q.mask = q.capacity - 1#64
  ridx : q.ridx = BitVec.ofNat 64 lo
  widx : q.widx = BitVec.ofNat 64 hi
  le : lo ≤ hi
  room : hi ≤ lo + 2 ^ k

namespace At
variable {q : Queue} {k lo hi : Nat}

theorem size_toNat (h : At q k lo hi) : q.size.toNat = hi - lo := by
  have hcap := h.cap ▸ q.capacity.isLt
  have hroom := h.room
  rw [Queue.size, h.ridx, h.widx]
  exact Window.cursor_sub h.le (by omega)

theorem full_iff (h : At q k lo hi) : q.full = true ↔ hi = lo + 2 ^ k := by
  have hle := h.le
  have hpos := Nat.two_pow_pos k
  rw [Queue.full, beq_iff_eq, ← BitVec.toNat_inj, h.size_toNat, h.cap]
  omega

theorem empty_iff (h : At q k lo hi) : q.empty = true ↔ lo = hi := by
  have hle := h.le
  rw [Queue.empty, beq_iff_eq, ← BitVec.toNat_inj, h.size_toNat]
  change hi - lo = 0 ↔ _
  omega

theorem slot (h : At q k lo hi) (p : Nat) :
    (BitVec.ofNat 64 p &&& q.mask).toNat = p % 2 ^ k := by
  rw [h.mask]
  exact Window.cursor_mask h.cap p

theorem at_eq (h : At q k lo hi) (hbuffer : q.buffer ≠ 0) (mem : Mem) (p : Nat) :
    q.at mem (BitVec.ofNat 64 p) = some (word mem (q.buffer + 8 * (p % 2 ^ k))).toNat := by
  rw [Queue.at, if_neg hbuffer, h.slot]

theorem push_eq (h : At q k lo hi) (hbuffer : q.buffer ≠ 0) (hroom : hi < lo + 2 ^ k) (mem : Mem)
    (bytes : List UInt8) :
    let slot := (word mem (q.buffer + 8 * (hi % 2 ^ k))).toNat
    q.push mem bytes = some (some slot, store mem slot bytes, { q with widx := q.widx + 1#64 }) := by
  have hfull : ¬ q.full = true := by
    rw [h.full_iff]
    omega
  rw [Queue.push, if_neg hbuffer, if_neg hfull, h.widx, h.at_eq hbuffer]
  rfl

theorem pop_eq (h : At q k lo hi) (hbuffer : q.buffer ≠ 0) (hlt : lo < hi) (mem : Mem) :
    let slot := (word mem (q.buffer + 8 * (lo % 2 ^ k))).toNat
    q.pop mem = some (some slot, { q with ridx := q.ridx + 1#64 }) := by
  have hempty : ¬ q.empty = true := by
    rw [h.empty_iff]
    omega
  rw [Queue.pop, if_neg hbuffer, if_neg hempty, h.ridx, h.at_eq hbuffer]
  rfl

theorem push (h : At q k lo hi) (hfull : ¬ q.full = true) :
    At { q with widx := q.widx + 1#64 } k lo (hi + 1) := by
  have hne := mt h.full_iff.mpr hfull
  have hle := h.le
  have hroom := h.room
  refine ⟨h.cap, h.mask, h.ridx, ?_, by omega, by omega⟩
  change q.widx + 1#64 = _
  rw [h.widx, BitVec.ofNat_add]

theorem pop (h : At q k lo hi) (hempty : ¬ q.empty = true) :
    At { q with ridx := q.ridx + 1#64 } k (lo + 1) hi := by
  have hne := mt h.empty_iff.mpr hempty
  have hle := h.le
  have hroom := h.room
  refine ⟨h.cap, h.mask, ?_, h.widx, by omega, by omega⟩
  change q.ridx + 1#64 = _
  rw [h.ridx, BitVec.ofNat_add]

end At

theorem create_at {sizeof : Nat} {allocator : BitVec 64 → Nat} {capacity : BitVec 64} {q : Queue}
    (h : create sizeof allocator capacity = some q) : ∃ k, At q k 0 0 := by
  obtain ⟨p, hp, hq⟩ := Option.map_eq_some_iff.mp h
  obtain ⟨k, hk63, rfl⟩ := Utility.nextPow2_pow hp
  cases hq
  have hpow : 2 ^ k ≤ 2 ^ 63 := Nat.pow_le_pow_right (by decide) hk63
  have hcap : (BitVec.ofNat 64 (2 ^ k)).toNat = 2 ^ k := by
    rw [BitVec.toNat_ofNat, Nat.mod_eq_of_lt (by omega)]
  exact ⟨k, hcap, rfl, rfl, rfl, Nat.le_refl 0, by omega⟩

end Flyzero.CircularQueue
