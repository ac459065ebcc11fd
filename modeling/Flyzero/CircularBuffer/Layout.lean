import Flyzero.CircularBuffer.Failure
import Flyzero.Lib.Arc
import Flyzero.Lib.ByteMem

/-! Where the parts of a buffer lie in its memory, as offsets from the header. -/
namespace Flyzero.CircularBuffer
open ByteMem (Mem word setWord ofBytes toBytes SameOn)

def loadHeader (m : Mem) (nameSize : Nat) : Header where
  r := word m 0
  w := word m 64
  capacity := word m 128
  privateSize := word m 136
  pageMask := word m 144
  flag := BitVec.ofNat 32 (ofBytes (ByteMem.load m 152 4))
  name := ByteMem.load m 156 nameSize

/-- The stores of `fcreate`, and behind them the `strcpy` of `create`. -/
def storeHeader (m : Mem) (header : Header) : Mem :=
  let m := setWord m 0 header.r
  let m := setWord m 64 header.w
  let m := ByteMem.store m 156 [0]
  let m := setWord m 128 header.capacity
  let m := setWord m 136 header.privateSize
  let m := setWord m 144 header.pageMask
  let m := ByteMem.store m 152 (toBytes 4 header.flag.toNat)
  ByteMem.store m 156 header.name

def getPrivateData (cb : Buffer) : Word := cb.addr + sizeofHeader

/-- `header` is the copy that `read` has made, of `nread` bytes. -/
def fattach (out : Outcomes) (shmfd nread : Int) (header : Header) : Result Word :=
  if shmfd < 0 then none
  else if nread = sizeofHeader.toNat then
    mapSharedMemory out shmfd (alignedHeaderSize header.privateSize header.pageMask) header.capacity
  else some (none, [])

def detach (cb : Buffer) : SysCall :=
  let headSize := alignedHeaderSize cb.header.privateSize cb.header.pageMask
  .munmap cb.addr (headSize + cb.header.capacity + cb.header.capacity)

/-- The name that `shm_unlink` gets, if it is called, and the call behind it. -/
def destroy (cb : Buffer) : Option (List UInt8) × SysCall :=
  let unlink :=
    if cb.header.name.head? = some 0 then none else some (cb.header.name.takeWhile (· ≠ 0))
  let headSize := alignedHeaderSize cb.header.privateSize cb.header.pageMask
  (unlink, .munmap cb.addr (headSize + cb.header.capacity + cb.header.capacity))

/-! The parts of the memory. -/

def fields : List (Arc 64) := [⟨0, 8⟩, ⟨64, 8⟩, ⟨128, 8⟩, ⟨136, 8⟩, ⟨144, 8⟩, ⟨152, 4⟩]

def nameArc (header : Header) : Arc 64 := ⟨156, header.name.length⟩

def privateArc (header : Header) : Arc 64 := ⟨sizeofHeader, header.privateSize.toNat⟩

def ringArc (header : Header) : Arc 64 :=
  ⟨alignedHeaderSize header.privateSize header.pageMask, header.capacity.toNat⟩

def parts (header : Header) : List (Arc 64) :=
  fields ++ [nameArc header, privateArc header, ringArc header]

/-- Offsets that the client reaches through a mapping: the bytes of its private data, and of the
ring, which the mapping shows twice. -/
inductive ClientByte (cb : Buffer) : Word → Prop
  | privateData {j : Nat} (h : j < cb.header.privateSize.toNat) :
    ClientByte cb (getPrivateData cb + BitVec.ofNat 64 j - cb.addr)
  | ring (a : Word) : ClientByte cb (bufferStart cb + BitVec.ofNat 64 (ringOffset cb a) - cb.addr)

def clientWrites (m : Mem) (writes : List (Word × UInt8)) : Mem :=
  writes.foldl (fun m write => ByteMem.store m write.1.toNat [write.2]) m

structure Agrees (headSize : Word) (header : Header) : Prop where
  fattach : ∀ out shmfd, 0 ≤ shmfd → fattach out shmfd sizeofHeader.toNat header =
    mapSharedMemory out shmfd headSize header.capacity
  bufferStart : ∀ cb : Buffer, cb.header = header → bufferStart cb = cb.addr + headSize
  detach : ∀ cb : Buffer, cb.header = header →
    detach cb = .munmap cb.addr (headSize + header.capacity + header.capacity)
  destroy : ∀ cb : Buffer, cb.header = header →
    (destroy cb).2 = .munmap cb.addr (headSize + header.capacity + header.capacity)

/-- The buffer that was created for a client that asked for these sizes. -/
structure SoundLayout (out : Outcomes) (capacity privateSize : Word) (header : Header) : Prop where
  disjoint : (parts header).Pairwise Arc.Disjoint
  capacity_le : capacity.toNat ≤ header.capacity.toNat
  agrees : Agrees (out.headSize privateSize) header
  kept : ∀ m writes, (∀ write ∈ writes, ∃ cb : Buffer, cb.header = header ∧ ClientByte cb write.1) →
    loadHeader (clientWrites (storeHeader m header) writes) header.name.length = header

theorem loadHeader_congr {m m' : Mem} {n : Nat} (h : SameOn m m' 0 (156 + n)) :
    loadHeader m' n = loadHeader m n := by
  have hload {a k : Nat} (hk : a + k ≤ 156 + n) : ByteMem.load m' a k = ByteMem.load m a k :=
    ByteMem.load_congr fun x _ hx => h x (Nat.zero_le x) (by omega)
  have hword {a : Nat} (ha : a + 8 ≤ 156 + n) : word m' a = word m a :=
    h.word (Nat.zero_le a) ha
  rw [loadHeader, hword (by omega), hword (by omega), hword (by omega), hword (by omega),
    hword (by omega), hload (by omega), hload (by omega)]
  rfl

theorem loadHeader_storeHeader (m : Mem) (header : Header) :
    loadHeader (storeHeader m header) header.name.length = header := by
  obtain ⟨r, w, capacity, privateSize, pageMask, flag, name⟩ := header
  have hflag : BitVec.ofNat 32 (ofBytes (toBytes 4 flag.toNat)) = flag := by
    have hwidth : 256 ^ 4 = 2 ^ 32 := rfl
    rw [ByteMem.ofBytes_toBytes, ← BitVec.toNat_inj, BitVec.toNat_ofNat, hwidth, Nat.mod_mod,
      Nat.mod_eq_of_lt flag.isLt]
  have hload (m : Mem) : ByteMem.load (ByteMem.store (ByteMem.store m 152 (toBytes 4 flag.toNat))
      156 name) 152 4 = toBytes 4 flag.toNat := by
    have hsame := ByteMem.load_store m 152 (toBytes 4 flag.toNat)
    rw [ByteMem.toBytes_length] at hsame
    rw [← hsame]
    refine ByteMem.load_congr fun x _ hx => ?_
    rw [hsame]
    exact ByteMem.store_outside _ name (.inl hx)
  simp (disch := omega) only [loadHeader, storeHeader, ByteMem.word_store_disjoint,
    ByteMem.word_setWord_disjoint, ByteMem.word_setWord, hload, hflag, ByteMem.load_store]

theorem clientWrites_sameOn {writes : List (Word × UInt8)} {limit : Nat}
    (h : ∀ write ∈ writes, limit ≤ write.1.toNat) (m : Mem) :
    SameOn m (clientWrites m writes) 0 limit := by
  induction writes generalizing m with
  | nil => exact fun _ _ _ => rfl
  | cons write writes ih =>
    obtain ⟨hfirst, hrest⟩ := List.forall_mem_cons.mp h
    intro x hlo hhi
    rw [clientWrites, List.foldl_cons]
    exact (ih hrest _ x hlo hhi).trans (ByteMem.store_outside m _ (.inl (by omega)))

theorem agrees_of_stored {out : Outcomes} {privateSize : Word} {header : Header}
    (hprivate : header.privateSize = privateSize) (hmask : header.pageMask = out.pageSize - 1) :
    Agrees (out.headSize privateSize) header := by
  have hsize : alignedHeaderSize header.privateSize header.pageMask = out.headSize privateSize := by
    rw [hprivate, hmask, Outcomes.headSize]
  refine ⟨fun out' shmfd hfd => ?_, fun cb hcb => ?_, fun cb hcb => ?_, fun cb hcb => ?_⟩
  · rw [fattach, if_neg (Int.not_lt.mpr hfd), if_pos rfl, hsize]
  · rw [bufferStart, hcb, hsize]
  · rw [detach, hcb, hsize]
  · rw [destroy, hcb]
    dsimp only
    rw [hsize]

theorem ClientByte.mem {cb : Buffer} {o : Word} (h : ClientByte cb o)
    (hcapacity : cb.header.capacity ≠ 0) :
    (privateArc cb.header).Mem o ∨ (ringArc cb.header).Mem o := by
  have hoffset (size : Word) (n : Nat) :
      cb.addr + size + BitVec.ofNat 64 n - cb.addr = size + BitVec.ofNat 64 n := by
    rw [BitVec.add_assoc, BitVec.add_comm, BitVec.add_sub_cancel]
  cases h with
  | privateData hj =>
    left
    rw [getPrivateData, hoffset]
    exact (privateArc cb.header).mem_add hj
  | ring a =>
    right
    have hpos := BitVec.toNat_pos_of_ne_zero hcapacity
    rw [bufferStart, hoffset]
    exact (ringArc cb.header).mem_add (Nat.mod_lt _ hpos)

/-- The sizes do not wrap around, and the name ends before the first byte that is the client's. -/
structure Fits (nameSize : Nat) (privateSize headSize capacity : Word) : Prop where
  privateData : sizeofHeader.toNat + privateSize.toNat < 2 ^ 64
  ring : headSize.toNat + capacity.toNat ≤ 2 ^ 64
  name : 156 + nameSize ≤ sizeofHeader.toNat ∨
    privateSize = 0 ∧ 156 + nameSize ≤ headSize.toNat

theorem Fits.name_le {nameSize : Nat} {privateSize headSize capacity : Word}
    (h : Fits nameSize privateSize headSize capacity)
    (hle : sizeofHeader.toNat + privateSize.toNat ≤ headSize.toNat) :
    156 + nameSize ≤ headSize.toNat := by
  cases h.name with
  | inl hname => omega
  | inr hname => exact hname.2

theorem headSize_spec {out : Outcomes} {privateSize : Word} {k : Nat}
    (hpage : out.pageSize.toNat = 2 ^ k) (h : out.headSize privateSize ≠ 0) :
    sizeofHeader + privateSize ≠ 0#64 ∧
      (sizeofHeader + privateSize).toNat ≤ (out.headSize privateSize).toNat := by
  constructor
  · intro hzero
    apply h
    rw [Outcomes.headSize, alignedHeaderSize, hzero, BitVec.zero_add, BitVec.and_not_self]
  · exact (Window.roundUp_eq_zero_or hpage _).resolve_left h

theorem fields_end {a : Arc 64} (h : a ∈ fields) : a.start.toNat + a.length ≤ 156 := by
  revert a
  decide

theorem fields_disjoint : fields.Pairwise Arc.Disjoint := by
  refine Arc.pairwise_disjoint ?_ fun a ha => ?_
  · decide
  · have hend := fields_end ha
    omega

section
variable {header : Header} {headSize : Word}

theorem fits_of_disjoint (h : (parts header).Pairwise Arc.Disjoint)
    (hhead : alignedHeaderSize header.privateSize header.pageMask = headSize)
    (hne : sizeofHeader + header.privateSize ≠ 0#64)
    (hle : (sizeofHeader + header.privateSize).toNat ≤ headSize.toNat)
    (hcapacity : header.capacity ≠ 0) (hname : header.name ≠ []) :
    Fits header.name.length header.privateSize headSize header.capacity := by
  obtain ⟨-, hbehind, hcross⟩ := List.pairwise_append.mp h
  have hsize : sizeofHeader.toNat = 256 := rfl
  have hpositive := BitVec.toNat_pos_of_ne_zero hcapacity
  -- the cursor `r` is at offset zero
  have hr (a : Arc 64) (ha : a ∈ [nameArc header, privateArc header, ringArc header]) :
      ¬ 2 ^ 64 < a.start.toNat + a.length := by
    intro hwrap
    exact hcross ⟨0, 8⟩ List.mem_cons_self a ha 0#64 (by decide) (Arc.mem_zero hwrap)
  have hprivate : sizeofHeader.toNat + header.privateSize.toNat < 2 ^ 64 := by
    have hnowrap := hr (privateArc header) (by simp)
    rw [privateArc] at hnowrap
    refine Nat.lt_of_le_of_ne (Nat.not_lt.mp hnowrap) fun heq => hne ?_
    rw [← BitVec.toNat_inj, BitVec.toNat_add, heq, Nat.mod_self]
    rfl
  rw [BitVec.toNat_add, Nat.mod_eq_of_lt hprivate] at hle
  refine ⟨hprivate, ?_, ?_⟩
  · have hnowrap := hr (ringArc header) (by simp)
    rw [ringArc, hhead] at hnowrap
    exact Nat.not_lt.mp hnowrap
  · obtain ⟨hnameArc, -⟩ := List.pairwise_cons.mp hbehind
    have hthere : 0 < header.name.length := List.length_pos_of_ne_nil hname
    by_cases hzero : header.privateSize = 0
    · refine .inr ⟨hzero, Nat.not_lt.mp fun hover => ?_⟩
      have hinName : (nameArc header).Mem headSize :=
        Arc.mem_of_le (by change 156 ≤ _; omega) hover
      have hinRing : (ringArc header).Mem headSize :=
        hhead ▸ (ringArc header).mem_start hpositive
      exact hnameArc (ringArc header) (by simp) headSize hinName hinRing
    · refine .inl (Nat.not_lt.mp fun hover => ?_)
      have hsome := BitVec.toNat_pos_of_ne_zero hzero
      have hinName : (nameArc header).Mem sizeofHeader :=
        Arc.mem_of_le (by change 156 ≤ 256; omega) hover
      have hinPrivate := (privateArc header).mem_start hsome
      exact hnameArc (privateArc header) (by simp) sizeofHeader hinName hinPrivate

theorem disjoint_of_fits
    (h : Fits header.name.length header.privateSize headSize header.capacity)
    (hhead : alignedHeaderSize header.privateSize header.pageMask = headSize)
    (hle : (sizeofHeader + header.privateSize).toNat ≤ headSize.toNat) :
    (parts header).Pairwise Arc.Disjoint := by
  obtain ⟨hprivate, hring, hname⟩ := h
  rw [BitVec.toNat_add, Nat.mod_eq_of_lt hprivate] at hle
  have hsize : sizeofHeader.toNat = 256 := rfl
  have hlt := headSize.isLt
  have hnameHead := Fits.name_le ⟨hprivate, hring, hname⟩ hle
  have hnameRing : (nameArc header).Disjoint (ringArc header) := by
    rw [ringArc, hhead]
    exact Arc.disjoint_of_le hnameHead hring
  have hprivateRing : (privateArc header).Disjoint (ringArc header) := by
    rw [ringArc, hhead]
    exact Arc.disjoint_of_le hle hring
  have hnamePrivate : (nameArc header).Disjoint (privateArc header) := by
    cases hname with
    | inl hname => exact Arc.disjoint_of_le hname (Nat.le_of_lt hprivate)
    | inr hname =>
      intro o _
      exact Arc.not_mem_of_length_eq_zero (congrArg BitVec.toNat hname.1)
  refine List.pairwise_append.mpr ⟨fields_disjoint, by simp [*], fun a ha b hb => ?_⟩
  have hend := fields_end ha
  have hbegin : 156 ≤ b.start.toNat ∧ b.start.toNat + b.length ≤ 2 ^ 64 := by
    simp only [List.mem_cons, List.not_mem_nil, or_false] at hb
    rcases hb with rfl | rfl | rfl
    · exact ⟨Nat.le_refl _, Nat.le_trans hnameHead (Nat.le_of_lt hlt)⟩
    · exact ⟨by change 156 ≤ 256; omega, Nat.le_of_lt hprivate⟩
    · rw [ringArc, hhead]
      exact ⟨by dsimp only; omega, hring⟩
  exact Arc.disjoint_of_le (Nat.le_trans hend hbegin.1) hbegin.2

theorem clientByte_ge
    (h : Fits header.name.length header.privateSize headSize header.capacity)
    (hhead : alignedHeaderSize header.privateSize header.pageMask = headSize)
    (hle : (sizeofHeader + header.privateSize).toNat ≤ headSize.toNat)
    (hcapacity : header.capacity ≠ 0) {cb : Buffer} (hcb : cb.header = header) {o : Word}
    (ho : ClientByte cb o) : 156 + header.name.length ≤ o.toNat := by
  obtain ⟨hprivate, hring, hname⟩ := h
  have hsize : sizeofHeader.toNat = 256 := rfl
  subst hcb
  rw [BitVec.toNat_add, Nat.mod_eq_of_lt hprivate] at hle
  cases ho.mem hcapacity with
  | inl hin =>
    have hbound := (Arc.mem_iff (Nat.le_of_lt hprivate)).mp hin
    cases hname with
    | inl hname => exact Nat.le_trans hname hbound.1
    | inr hname => exact absurd hin (Arc.not_mem_of_length_eq_zero (congrArg BitVec.toNat hname.1))
  | inr hin =>
    rw [ringArc, hhead] at hin
    exact Nat.le_trans (Fits.name_le ⟨hprivate, hring, hname⟩ hle) ((Arc.mem_iff hring).mp hin).1

end

/-- The parts of a created buffer are apart if and only if no size wraps around and the name, which
is copied whatever its length, stays before the data of the client. -/
theorem create_layout_iff {out : Outcomes} {name : Option (List UInt8)}
    {capacity privateSize addr : Word} {flag : BitVec 32} {header : Header} {calls : List SysCall}
    {k : Nat} (hpage : out.pageSize.toNat = 2 ^ k)
    (h : create out name capacity privateSize flag = some (some (addr, header), calls)) :
    SoundLayout out capacity privateSize header ↔
      Fits (storedName name).length privateSize (out.headSize privateSize)
        (out.roundUp capacity) := by
  obtain ⟨shmfd, header₀, calls₀, hf, rfl⟩ := create_some h
  obtain ⟨rfl, calls₁, hmap⟩ := fcreate_some hf
  obtain ⟨hheadSize, hcapacity, -⟩ := mapSharedMemory_some hmap
  obtain ⟨hne, hle⟩ := headSize_spec hpage hheadSize
  have hname : storedName name ≠ [] := by
    cases name with
    | none => exact List.cons_ne_nil _ _
    | some name => exact List.append_ne_nil_of_right_ne_nil name (List.cons_ne_nil _ _)
  constructor
  · intro hsound
    exact fits_of_disjoint hsound.disjoint rfl hne hle hcapacity hname
  · intro hfits
    refine ⟨disjoint_of_fits hfits rfl hle, ?_, agrees_of_stored rfl rfl, fun m writes hw => ?_⟩
    · exact (Window.roundUp_eq_zero_or hpage capacity).resolve_left hcapacity
    · refine (loadHeader_congr (clientWrites_sameOn (fun write hwrite => ?_) _)).trans
        (loadHeader_storeHeader m _)
      obtain ⟨cb, hcb, hbyte⟩ := hw write hwrite
      exact clientByte_ge hfits rfl hle hcapacity hcb hbyte

def twoPages : Outcomes :=
  { pageSize := 4096, shmOpen := 3, ftruncate := 0, reserve := 65536, mapShared := 65536,
    mirror := 73728 }

theorem shortName_sound : ∃ addr header calls,
    create twoPages (some [47, 98]) 100 16 0 = some (some (addr, header), calls) ∧
      SoundLayout twoPages 100 16 header := by
  obtain ⟨addr, header, calls, h⟩ : ∃ addr header calls,
      create twoPages (some [47, 98]) 100 16 0 = some (some (addr, header), calls) :=
    ⟨_, _, _, rfl⟩
  have hpage : twoPages.pageSize.toNat = 2 ^ 12 := rfl
  refine ⟨addr, header, calls, h, (create_layout_iff hpage h).mpr ⟨?_, ?_, .inl ?_⟩⟩
  · decide
  · decide
  · decide

def longName : List UInt8 := 47 :: List.replicate 99 97

theorem longName_overlaps : ¬ ∀ addr header calls,
    create twoPages (some longName) 100 1 0 = some (some (addr, header), calls) →
      SoundLayout twoPages 100 1 header := by
  intro h
  obtain ⟨-, hbehind, -⟩ := List.pairwise_append.mp (h _ _ _ rfl).disjoint
  obtain ⟨hname, -⟩ := List.pairwise_cons.mp hbehind
  exact hname (privateArc _) List.mem_cons_self sizeofHeader (by decide) (by decide)

end Flyzero.CircularBuffer
