import Flyzero.Lib.ByteMem
import Flyzero.Lib.DoublyLinked
import Mathlib.Logic.Function.Basic

/-! `mempool`: blocks of 29 sizes carved from one range, with their headers, their links and their
checksums in the bytes of the range. The pool object itself lies outside of it. -/
namespace Flyzero.Mempool
open ByteMem

/-! The fields of a `block_header` at an address, by their offsets. -/

def mgr (m : Mem) (block : Nat) : BitVec 64 := word m block

def prev (m : Mem) (block : Nat) : Nat := (word m (block + 8)).toNat

def next (m : Mem) (block : Nat) : Nat := (word m (block + 16)).toNat

def checksum (m : Mem) (block : Nat) : BitVec 64 := word m (block + 24)

def setMgr (m : Mem) (block : Nat) (p : BitVec 64) : Mem := setWord m block p

def setPrev (m : Mem) (block p : Nat) : Mem := setWord m (block + 8) (BitVec.ofNat 64 p)

def setNext (m : Mem) (block p : Nat) : Mem := setWord m (block + 16) (BitVec.ofNat 64 p)

def setChecksum (m : Mem) (block : Nat) (c : BitVec 64) : Mem := setWord m (block + 24) c

def sizeofHeader : Nat := 32

def calcChecksum (m : Mem) (block : Nat) : BitVec 64 := mgr m block ^^^ BitVec.ofNat 64 block

def check (m : Mem) (block : Nat) : Bool := checksum m block == calcChecksum m block

/-- `block_list`; `0` is the null pointer. -/
structure BlockList where
  head : Nat
  length : Nat

namespace BlockList

/-- `none` is the dereference of a null pointer. -/
def pop (l : BlockList) (m : Mem) : Option (Nat × BlockList × Mem) :=
  if l.head = 0 then none
  else
    let head := next m l.head
    some (l.head, { head, length := l.length - 1 }, if head = 0 then m else setPrev m head 0)

def push (l : BlockList) (m : Mem) (node : Nat) : BlockList × Mem :=
  let m := setNext (setPrev m node 0) node l.head
  ({ head := node, length := l.length + 1 }, if l.head = 0 then m else setPrev m l.head node)

def detach (l : BlockList) (m : Mem) (node : Nat) : Option (BlockList × Mem) :=
  let before := prev m node
  let after := next m node
  if l.head = node ∧ before = 0 then (l.pop m).map (·.2)
  else if before = 0 ∨ after = 0 then none
  else
    some ({ l with length := l.length - 1 }, setPrev (setNext m before after) after before)

end BlockList

structure BlockManager where
  blockSize : BitVec 32
  freeList : BlockList
  usedList : BlockList

def BlockManager.implSize (m : BlockManager) : Nat := sizeofHeader + m.blockSize.toNat + 8

structure Pool where
  self : Nat
  managers : Fin 29 → BlockManager
  beg : Nat
  end_ : Nat
  cur : Nat

def sizeofManager : Nat := 40

namespace Pool

def managerAddr (p : Pool) (i : Fin 29) : Nat := p.self + sizeofManager * i

def managerAt (p : Pool) (a : BitVec 64) : Option (Fin 29) :=
  (List.finRange 29).find? fun i => BitVec.ofNat 64 (p.managerAddr i) = a

def freeSize (p : Pool) : Nat := p.end_ - p.cur

def setManager (p : Pool) (i : Fin 29) (m : BlockManager) : Pool :=
  { p with managers := Function.update p.managers i m }

theorem setManager_self (p : Pool) (i : Fin 29) (m : BlockManager) :
    (p.setManager i m).managers i = m := Function.update_self ..

theorem setManager_of_ne (p : Pool) {i j : Fin 29} (m : BlockManager) (h : j ≠ i) :
    (p.setManager i m).managers j = p.managers j := Function.update_of_ne h ..

/-- The constructor, with `init`. -/
def create (self beg end_ : Nat) : Pool :=
  { self, beg, end_, cur := beg,
    managers := fun i =>
      { blockSize := (8#64 <<< i.val).truncate 32, freeList := ⟨0, 0⟩, usedList := ⟨0, 0⟩ } }

end Pool

def align8 (n : BitVec 64) : BitVec 64 := (n + 7#64) &&& ~~~7#64

/-- `(8 << i) > size`: the shift is one of a 32-bit `int`, the comparison one of `size_t`. -/
def findBlockManager (size : BitVec 64) : Option (Fin 29) :=
  (List.finRange 29).find? fun i => (8#32 <<< i.val).signExtend 64 > size

namespace Pool

def allocNew (p : Pool) (m : Mem) (i : Fin 29) : Nat × Pool × Mem :=
  let manager := p.managers i
  let implSize := manager.implSize
  if p.freeSize ≥ implSize then
    let block := p.cur
    let cur := p.cur + implSize
    let m := setMgr m block (BitVec.ofNat 64 (p.managerAddr i))
    let (usedList, m) := manager.usedList.push m block
    let m := setChecksum m block (calcChecksum m block)
    let m := setWord m (cur - 8) (checksum m block)
    (block + sizeofHeader, { p with cur }.setManager i { manager with usedList }, m)
  else (0, p, m)

def allocExist (p : Pool) (m : Mem) (i : Fin 29) : Option (Nat × Pool × Mem) :=
  let manager := p.managers i
  (manager.freeList.pop m).map fun (block, freeList, m) =>
    let (usedList, m) := manager.usedList.push m block
    (block + sizeofHeader, p.setManager i { manager with freeList, usedList }, m)

def alloc (p : Pool) (m : Mem) (size : BitVec 64) : Option (Nat × Pool × Mem) :=
  match findBlockManager (align8 size) with
  | none => some (0, p, m)
  | some i =>
    if (p.managers i).freeList.head = 0 then some (p.allocNew m i) else p.allocExist m i

/-- `none` is the dereference of a null pointer or of a pointer to no manager. -/
def free (p : Pool) (m : Mem) (ptr : Nat) : Option (Pool × Mem) :=
  let block := ptr - sizeofHeader
  if check m block then
    (p.managerAt (mgr m block)).bind fun i =>
      let manager := p.managers i
      if checksum m block = word m (ptr + manager.blockSize.toNat) then
        (manager.usedList.detach m block).map fun (usedList, m) =>
          let (freeList, m) := manager.freeList.push m block
          (p.setManager i { manager with freeList, usedList }, m)
      else some (p, m)
  else some (p, m)

end Pool

end Flyzero.Mempool
