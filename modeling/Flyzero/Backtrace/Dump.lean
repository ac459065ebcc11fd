import Flyzero.Lib.Codec

/-! `backtrace_dump_save` and `backtrace_dump_load` of `backtrace.c`. -/
namespace Flyzero.Backtrace
open Codec

def maxDepth : Nat := 1024

/-- A NUL-terminated string, without its terminator; `strlen` plus one is a `size_t`. -/
structure CString where
  bytes : List UInt8
  noNul : 0 ∉ bytes
  fits : bytes.length + 1 < 2 ^ 64

def CString.terminated (s : CString) : List UInt8 := s.bytes ++ [0]

structure FrameInfo (μ : Type) where
  base : BitVec 64
  offset : BitVec 64
  module : μ
  deriving DecidableEq

/-- The frame as `backtrace_dump_load` has it, with the bytes it has read for the path. -/
def FrameInfo.stored (f : FrameInfo CString) : FrameInfo (List UInt8) :=
  { f with module := f.module.terminated }

/-- The calls of `stdio.h` on one stream that is written; `fwrite` tells whether it has written its
one item. -/
structure Stdio (σ : Type*) where
  fdopen : Option σ
  fwrite : σ → List UInt8 → σ × Bool
  fclose : σ → σ

def frameItems (o : Order) (f : FrameInfo CString) : List (List UInt8) :=
  let len := f.module.bytes.length + 1
  [writeBits o f.base, writeBits o f.offset, writeBits o (BitVec.ofNat 64 len),
    f.module.terminated]

def writeItems {σ : Type*} (io : Stdio σ) : σ → List (List UInt8) → σ × Bool
  | s, [] => (s, true)
  | s, item :: items =>
    let (s, written) := io.fwrite s item
    if written then writeItems io s items else (s, false)

/-- The return value and the stream in the end. The frames are those of the caller's stack. -/
def dumpSave {σ : Type*} (o : Order) (io : Stdio σ) (frames : List (FrameInfo CString)) :
    Int × Option σ :=
  if frames.length = 0 then (-1, none)
  else
    match io.fdopen with
    | none => (-1, none)
    | some s =>
      let count : BitVec 32 := BitVec.ofNat 32 frames.length
      let (s, written) := writeItems io s (writeBits o count :: frames.flatMap (frameItems o))
      (if written then 0 else -1, some (io.fclose s))

structure Load where
  ret : Int
  dumped : Option (List (FrameInfo (List UInt8)))
  closed : Bool

def readFrame (o : Order) : Reader (FrameInfo (List UInt8)) := fun bs =>
  (andThen (andThen (readBits o 64) fun _ => readBits o 64)
    (fun _ => andThen (readBits o 64) fun len => readBytes len.toNat) bs).map fun r =>
      ({ base := r.1.1.1, offset := r.1.1.2, module := r.1.2.2 }, r.2)

/-- `none` as the input is a descriptor that `fdopen` refuses. Every `alloca` finds room here. -/
def dumpLoad (o : Order) : Option (List UInt8) → Load
  | none => { ret := -1, dumped := none, closed := false }
  | some input =>
    let failed : Load := { ret := -1, dumped := none, closed := true }
    match readBits o 32 input with
    | none => failed
    | some (count, rest) =>
      if count.toInt ≤ 0 then failed
      else
        match readList (readFrame o) count.toNat rest with
        | none => failed
        | some (frames, _) => { ret := 0, dumped := some frames, closed := true }

def writeFrame (o : Order) (f : FrameInfo (List UInt8)) : List UInt8 :=
  writeBits o f.base ++ writeBits o f.offset ++
    (writeBits o (BitVec.ofNat 64 f.module.length) ++ f.module)

def FrameInfo.Storable (f : FrameInfo (List UInt8)) : Prop :=
  0 < f.module.length ∧ f.module.length < 2 ^ 64

theorem readFrame_reads (o : Order) :
    Reads (readFrame o) (writeFrame o) FrameInfo.Storable := by
  have hword : Reads (readBits o 64) (writeBits o) fun _ => True :=
    readBits_reads o (by decide) rfl
  have hpair := hword.andThen fun _ => hword
  have hpath := hword.andThen fun len => readBytes_reads len.toNat
  have hall := hpair.andThen fun _ => hpath
  let view (r : (BitVec 64 × BitVec 64) × BitVec 64 × List UInt8) : FrameInfo (List UInt8) :=
    { base := r.1.1, offset := r.1.2, module := r.2.2 }
  let fields (f : FrameInfo (List UInt8)) :=
    ((f.base, f.offset), (BitVec.ofNat 64 f.module.length, f.module))
  have hlength (n : Nat) : (BitVec.ofNat 64 n).toNat = n % 2 ^ 64 := BitVec.toNat_ofNat n 64
  have hback : ∀ r, ((True ∧ True) ∧ True ∧ 0 < r.2.1.toNat ∧ r.2.2.length = r.2.1.toNat) →
      fields (view r) = r := by
    rintro ⟨⟨base, offset⟩, len, path⟩ ⟨-, -, -, hlen⟩
    have hlen : path.length = len.toNat := hlen
    have heq : BitVec.ofNat 64 path.length = len := by
      rw [hlen, BitVec.ofNat_toNat, BitVec.setWidth_eq]
    exact congrArg (fun l => ((base, offset), (l, path))) heq
  have hframe := Reads.map view fields hall hback fun _ _ => rfl
  intro bs f rest
  refine (hframe bs f rest).trans (and_congr_left' ?_)
  have hlen := hlength f.module.length
  constructor
  · rintro ⟨-, -, hpos, heq⟩
    have hpos : 0 < (BitVec.ofNat 64 f.module.length).toNat := hpos
    have heq : f.module.length = (BitVec.ofNat 64 f.module.length).toNat := heq
    exact ⟨heq ▸ hpos, heq ▸ BitVec.isLt _⟩
  · rintro ⟨hpos, hlt⟩
    rw [Nat.mod_eq_of_lt hlt] at hlen
    exact ⟨⟨trivial, trivial⟩, trivial, hlen.symm ▸ hpos, hlen.symm⟩

end Flyzero.Backtrace
