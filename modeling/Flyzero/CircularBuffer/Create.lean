import Flyzero.CircularBuffer.Ring

/-! Creation of a buffer. The results of the system calls are parameters, and the
calls made are recorded with the arguments the code gives them. -/
namespace Flyzero.CircularBuffer

/-- What the system calls of one creation return. -/
structure Outcomes where
  pageSize : Word
  shmOpen : Int
  ftruncate : Int
  reserve : Word
  mapShared : Word
  mirror : Word

inductive SysCall where
  | shmOpen (name : List UInt8) (ret : Int)
  | close (fd : Int)
  | ftruncate (fd : Int) (length : Word) (ret : Int)
  | mmap (addr length : Word) (fd : Int) (ret : Word)
  | mremap (oldAddr newSize newAddr ret : Word)
  | munmap (addr length : Word)

def mapFailed : Word := -1

/-- `none` is a failed assertion, `some none` the null pointer. -/
abbrev Result (α : Type) := Option (Option α × List SysCall)

def mapSharedMemory (out : Outcomes) (shmfd : Int) (headSize capacity : Word) : Result Word :=
  if headSize = 0 ∨ capacity = 0 ∨ headSize &&& (out.pageSize - 1) ≠ 0 ∨
      capacity &&& (out.pageSize - 1) ≠ 0 then none
  else
    let total := capacity + headSize
    let addr := out.reserve
    let reserve := SysCall.mmap 0 (total + capacity) (-1) addr
    let undo := if addr ≠ mapFailed then [SysCall.munmap addr (total + capacity)] else []
    if addr = 0 then some (none, reserve :: undo)
    else
      let share := SysCall.mmap addr total shmfd out.mapShared
      if out.mapShared ≠ addr then some (none, reserve :: share :: undo)
      else
        let mirror := SysCall.mremap (addr + headSize) capacity (addr + total) out.mirror
        if out.mirror ≠ addr + total then some (none, reserve :: share :: mirror :: undo)
        else some (some addr, [reserve, share, mirror])

def alignCapacity (capacity pageMask : Word) : Word := (capacity + pageMask) &&& ~~~pageMask

def fcreate (out : Outcomes) (shmfd : Int) (capacity privateSize : Word) (flag : BitVec 32) :
    Result (Word × Header) :=
  let pageMask := out.pageSize - 1
  let capacity := alignCapacity capacity pageMask
  let headSize := alignedHeaderSize privateSize pageMask
  let truncate :=
    if 0 ≤ shmfd then [SysCall.ftruncate shmfd (capacity + headSize) out.ftruncate] else []
  if 0 ≤ shmfd ∧ out.ftruncate < 0 then some (none, truncate)
  else
    (mapSharedMemory out shmfd headSize capacity).map fun
      | (none, calls) => (none, truncate ++ calls)
      | (some addr, calls) =>
        (some (addr, { r := 0, w := 0, name := [0], capacity, privateSize, pageMask, flag }),
          truncate ++ calls)

def create (out : Outcomes) (name : Option (List UInt8)) (capacity privateSize : Word)
    (flag : BitVec 32) : Result (Word × Header) :=
  if capacity = 0 then none
  else
    match name with
    | none =>
      (fcreate out (-1) capacity privateSize flag).map fun
        | (none, calls) => (none, calls ++ [.close (-1)])
        | (some cb, calls) => (some cb, calls)
    | some name =>
      let shmfd := out.shmOpen
      if shmfd < 0 then some (none, [.shmOpen name shmfd])
      else
        (fcreate out shmfd capacity privateSize flag).map fun
          | (none, calls) => (none, .shmOpen name shmfd :: calls ++ [.close shmfd])
          | (some (addr, header), calls) =>
            -- `strcpy` writes the terminator too, whatever the size of the field
            (some (addr, { header with name := name ++ [0] }),
              .shmOpen name shmfd :: calls ++ [.close shmfd])

theorem mapSharedMemory_some {out : Outcomes} {shmfd : Int} {headSize capacity addr : Word}
    {calls : List SysCall}
    (h : mapSharedMemory out shmfd headSize capacity = some (some addr, calls)) :
    headSize ≠ 0 ∧ capacity ≠ 0 ∧ addr = out.reserve := by
  unfold mapSharedMemory at h
  dsimp only at h
  by_cases hassert : headSize = 0 ∨ capacity = 0 ∨ headSize &&& (out.pageSize - 1) ≠ 0 ∨
      capacity &&& (out.pageSize - 1) ≠ 0
  · rw [if_pos hassert] at h
    cases h
  rw [if_neg hassert] at h
  refine ⟨fun hh => hassert (.inl hh), fun hc => hassert (.inr (.inl hc)), ?_⟩
  by_cases hnull : out.reserve = 0
  · rw [if_pos hnull] at h
    cases h
  by_cases hshare : out.mapShared ≠ out.reserve
  · rw [if_neg hnull, if_pos hshare] at h
    cases h
  by_cases hmirror : out.mirror ≠ out.reserve + (capacity + headSize)
  · rw [if_neg hnull, if_neg hshare, if_pos hmirror] at h
    cases h
  rw [if_neg hnull, if_neg hshare, if_neg hmirror] at h
  cases h
  rfl

theorem fcreate_some {out : Outcomes} {shmfd : Int} {capacity privateSize addr : Word}
    {flag : BitVec 32} {header : Header} {calls : List SysCall}
    (h : fcreate out shmfd capacity privateSize flag = some (some (addr, header), calls)) :
    header = { r := 0, w := 0, name := [0], privateSize, flag,
               capacity := alignCapacity capacity (out.pageSize - 1)
               pageMask := out.pageSize - 1 } ∧
      ∃ calls', mapSharedMemory out shmfd (alignedHeaderSize privateSize (out.pageSize - 1))
        (alignCapacity capacity (out.pageSize - 1)) = some (some addr, calls') := by
  unfold fcreate at h
  dsimp only at h
  by_cases hfail : 0 ≤ shmfd ∧ out.ftruncate < 0
  · rw [if_pos hfail] at h
    cases h
  rw [if_neg hfail] at h
  obtain ⟨⟨res, calls'⟩, hmap, hres⟩ := Option.map_eq_some_iff.mp h
  cases res with
  | none => cases hres
  | some a =>
    cases hres
    exact ⟨rfl, calls', hmap⟩

def storedName : Option (List UInt8) → List UInt8
  | none => [0]
  | some name => name ++ [0]

theorem create_some {out : Outcomes} {name : Option (List UInt8)}
    {capacity privateSize addr : Word} {flag : BitVec 32} {header : Header}
    {calls : List SysCall}
    (h : create out name capacity privateSize flag = some (some (addr, header), calls)) :
    ∃ shmfd header₀ calls₀,
      fcreate out shmfd capacity privateSize flag = some (some (addr, header₀), calls₀) ∧
        header = { header₀ with name := storedName name } := by
  unfold create at h
  by_cases hzero : capacity = 0
  · rw [if_pos hzero] at h
    cases h
  rw [if_neg hzero] at h
  cases name with
  | none =>
    obtain ⟨⟨res, calls'⟩, hf, hres⟩ := Option.map_eq_some_iff.mp h
    cases res with
    | none => cases hres
    | some cb =>
      cases hres
      refine ⟨-1, header, calls, hf, ?_⟩
      rw [(fcreate_some hf).1]
      rfl
  | some name =>
    dsimp only at h
    by_cases hopen : out.shmOpen < 0
    · rw [if_pos hopen] at h
      cases h
    rw [if_neg hopen] at h
    obtain ⟨⟨res, calls'⟩, hf, hres⟩ := Option.map_eq_some_iff.mp h
    cases res with
    | none => cases hres
    | some cb =>
      obtain ⟨addr', header₀⟩ := cb
      cases hres
      exact ⟨out.shmOpen, header₀, calls', hf, rfl⟩

structure Fresh (out : Outcomes) (capacity : Word) (header : Header) : Prop where
  r : header.r = 0
  w : header.w = 0
  capacity_eq : header.capacity = alignCapacity capacity (out.pageSize - 1)
  capacity_ne : header.capacity ≠ 0

theorem fcreate_fresh {out : Outcomes} {shmfd : Int} {capacity privateSize addr : Word}
    {flag : BitVec 32} {header : Header} {calls : List SysCall}
    (h : fcreate out shmfd capacity privateSize flag = some (some (addr, header), calls)) :
    Fresh out capacity header := by
  obtain ⟨rfl, calls', hmap⟩ := fcreate_some h
  exact ⟨rfl, rfl, rfl, (mapSharedMemory_some hmap).2.1⟩

theorem create_fresh {out : Outcomes} {name : Option (List UInt8)}
    {capacity privateSize addr : Word} {flag : BitVec 32} {header : Header}
    {calls : List SysCall}
    (h : create out name capacity privateSize flag = some (some (addr, header), calls)) :
    Fresh out capacity header := by
  obtain ⟨shmfd, header₀, calls₀, hf, rfl⟩ := create_some h
  obtain ⟨hr, hw, hcapacity, hne⟩ := fcreate_fresh hf
  exact ⟨hr, hw, hcapacity, hne⟩

/-- A buffer either function returned for `capacity`, over any earlier content of the memory. -/
inductive Created (out : Outcomes) (capacity : Word) : Buffer → Prop where
  | fcreate {shmfd privateSize flag addr header calls} (ring : Nat → UInt8)
      (h : fcreate out shmfd capacity privateSize flag = some (some (addr, header), calls)) :
      Created out capacity ⟨addr, header, ring⟩
  | create {name privateSize flag addr header calls} (ring : Nat → UInt8)
      (h : create out name capacity privateSize flag = some (some (addr, header), calls)) :
      Created out capacity ⟨addr, header, ring⟩

theorem Created.fresh {out : Outcomes} {capacity : Word} {cb : Buffer}
    (h : Created out capacity cb) : Fresh out capacity cb.header := by
  cases h with
  | fcreate ring h => exact fcreate_fresh h
  | create ring h => exact create_fresh h

theorem Fresh.at {out : Outcomes} {capacity : Word} {cb : Buffer} {k : Nat}
    (h : Fresh out capacity cb.header)
    (hk : (alignCapacity capacity (out.pageSize - 1)).toNat = 2 ^ k) : At cb k 0 0 :=
  ⟨h.capacity_eq ▸ hk, h.r, h.w, le_rfl, Nat.zero_le _⟩

end Flyzero.CircularBuffer
