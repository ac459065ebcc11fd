import Flyzero.CircularBuffer.Create
import Mathlib.Data.Finset.Insert

/-! What a failed creation leaves behind. -/
namespace Flyzero.CircularBuffer

/-- The names, the descriptors and the mapped addresses of a process, every address with the number
of the call that mapped it. -/
structure Host where
  names : Finset (List UInt8)
  fds : Finset Int
  mapped : Nat → Option Nat
  mmaps : Nat

namespace Host

def map (host : Host) (addr length : Word) : Host :=
  { host with
    mapped := fun a =>
      if addr.toNat ≤ a ∧ a < addr.toNat + length.toNat then some host.mmaps else host.mapped a
    mmaps := host.mmaps + 1 }

def unmap (host : Host) (addr length : Word) : Host :=
  { host with
    mapped := fun a =>
      if addr.toNat ≤ a ∧ a < addr.toNat + length.toNat then none else host.mapped a }

/-- The effect of a call that has returned; `shm_open` creates the name. -/
def call (host : Host) : SysCall → Host
  | .shmOpen name ret =>
    if 0 ≤ ret then { host with names := insert name host.names, fds := insert ret host.fds }
    else host
  | .close fd => { host with fds := host.fds.erase fd }
  | .ftruncate _ _ _ => host
  | .mmap _ length _ ret => if ret = mapFailed then host else host.map ret length
  | .mremap _ newSize _ ret => if ret = mapFailed then host else host.map ret newSize
  | .munmap addr length => host.unmap addr length

def run (host : Host) (calls : List SysCall) : Host := calls.foldl call host

end Host

def Outcomes.headSize (out : Outcomes) (privateSize : Word) : Word :=
  alignedHeaderSize privateSize (out.pageSize - 1)

def Outcomes.roundUp (out : Outcomes) (capacity : Word) : Word :=
  alignCapacity capacity (out.pageSize - 1)

structure Host.Same (host host' : Host) : Prop where
  names : host'.names = host.names
  fds : host'.fds = host.fds
  mapped : host'.mapped = host.mapped

/-- The manual pages on the calls of a creation with these rounded sizes. -/
structure Documented (out : Outcomes) (host : Host) (name : Option (List UInt8))
    (headSize capacity : Word) : Prop where
  pageSize : out.pageSize.toNat % 2 = 0
  fds : ∀ fd ∈ host.fds, 0 ≤ fd
  numbers : ∀ a n, host.mapped a = some n → n < host.mmaps
  shmOpen : ∀ n, name = some n → 0 ≤ out.shmOpen → n ∉ host.names ∧ out.shmOpen ∉ host.fds
  /-- A new mapping is aligned and lies where none was. -/
  reserve : out.reserve ≠ mapFailed → out.reserve ≠ 0 ∧ out.reserve &&& (out.pageSize - 1) = 0 ∧
    ∀ a, out.reserve.toNat ≤ a →
      a < out.reserve.toNat + (capacity + headSize + capacity).toNat → host.mapped a = none
  mapShared : out.mapShared = mapFailed ∨ out.mapShared = out.reserve
  mirror : out.mirror = mapFailed ∨ out.mirror = out.reserve + (capacity + headSize)

def Aborts (out : Outcomes) (headSize capacity : Word) : Prop :=
  headSize = 0 ∨ capacity = 0 ∨ headSize &&& (out.pageSize - 1) ≠ 0 ∨
    capacity &&& (out.pageSize - 1) ≠ 0

def AllMapped (out : Outcomes) : Prop :=
  out.reserve ≠ mapFailed ∧ out.mapShared ≠ mapFailed ∧ out.mirror ≠ mapFailed

section
variable {out : Outcomes} {host : Host} {name : Option (List UInt8)} {shmfd : Int}
  {headSize capacity : Word} {calls : List SysCall}

theorem even_of_aligned {x p : Word} (hp : p.toNat % 2 = 0) (h : x &&& (p - 1) = 0) :
    x.toNat % 2 = 0 := by
  have hmask : (p - 1).getLsbD 0 = true := by
    have hsub : (p - 1).toNat % 2 = 1 := by
      have hlt := p.isLt
      rw [BitVec.toNat_sub]
      have hone : (1 : Word).toNat = 1 := rfl
      rw [hone]
      omega
    rw [BitVec.getLsbD, Nat.testBit_zero, hsub, decide_eq_true rfl]
  have hbit := congrArg (fun y : Word => y.getLsbD 0) h
  simp only [BitVec.getLsbD_and, hmask, Bool.and_true] at hbit
  rw [BitVec.getLsbD, Nat.testBit_zero] at hbit
  have hx : x.toNat % 2 ≠ 1 := by simpa using hbit
  omega

theorem Documented.target_ne (hdoc : Documented out host name headSize capacity)
    (hassert : ¬ Aborts out headSize capacity) (hreserve : out.reserve ≠ mapFailed) :
    out.reserve + (capacity + headSize) ≠ mapFailed := by
  obtain ⟨-, -, hhead, hcap⟩ : headSize ≠ 0 ∧ capacity ≠ 0 ∧
      headSize &&& (out.pageSize - 1) = 0 ∧ capacity &&& (out.pageSize - 1) = 0 := by
    simpa [Aborts, not_or] using hassert
  have haddr := even_of_aligned hdoc.pageSize (hdoc.reserve hreserve).2.1
  have hhead := even_of_aligned hdoc.pageSize hhead
  have hcap := even_of_aligned hdoc.pageSize hcap
  intro heq
  have hodd : (out.reserve + (capacity + headSize)).toNat = 2 ^ 64 - 1 := by
    rw [heq]
    rfl
  rw [BitVec.toNat_add, BitVec.toNat_add] at hodd
  omega

def SysCall.Local : SysCall → Prop
  | .shmOpen _ _ | .close _ => False
  | _ => True

theorem call_local (host : Host) {c : SysCall} (h : c.Local) :
    (host.call c).names = host.names ∧ (host.call c).fds = host.fds := by
  cases c with
  | shmOpen | close => cases h
  | ftruncate | munmap => exact ⟨rfl, rfl⟩
  | mmap | mremap =>
    rw [Host.call]
    split
    · exact ⟨rfl, rfl⟩
    · exact ⟨rfl, rfl⟩

theorem run_local (host : Host) (h : ∀ c ∈ calls, c.Local) :
    (host.run calls).names = host.names ∧ (host.run calls).fds = host.fds := by
  induction calls generalizing host with
  | nil => exact ⟨rfl, rfl⟩
  | cons c calls ih =>
    obtain ⟨hnames, hfds⟩ := call_local host (h c List.mem_cons_self)
    obtain ⟨hnames', hfds'⟩ := ih (host.call c) fun d hd => h d (List.mem_cons_of_mem c hd)
    exact ⟨hnames'.trans hnames, hfds'.trans hfds⟩

theorem mapSharedMemory_local {res : Option Word}
    (h : mapSharedMemory out shmfd headSize capacity = some (res, calls)) :
    ∀ c ∈ calls, c.Local := by
  unfold mapSharedMemory at h
  dsimp only at h
  split at h
  · cases h
  · split at h
    · cases h
      simp [SysCall.Local]
    · split at h
      · cases h
        simp [SysCall.Local]
      · split at h
        · cases h
          simp [SysCall.Local]
        · cases h
          simp [SysCall.Local]

/-- After a failed reservation the code goes on with `MAP_FAILED` as its address. -/
theorem mapSharedMemory_isSome (hdoc : Documented out host name headSize capacity) (shmfd : Int)
    (hassert : ¬ Aborts out headSize capacity) :
    ∃ res calls, mapSharedMemory out shmfd headSize capacity = some (res, calls) ∧
      (res.isSome ↔ AllMapped out ∨
        out.reserve = mapFailed ∧ (out.mirror ≠ mapFailed ∨ capacity + headSize = 0#64)) := by
  have hshared := hdoc.mapShared
  have hmirror := hdoc.mirror
  have htarget := hdoc.target_ne hassert
  unfold Aborts at hassert
  rw [mapSharedMemory, if_neg hassert, AllMapped]
  dsimp only
  by_cases hreserve : out.reserve = mapFailed
  · rw [hreserve, or_self] at hshared
    have hzero : mapFailed ≠ 0 := by decide
    rw [hreserve] at hmirror ⊢
    rw [if_neg hzero, hshared, if_neg (not_not.mpr rfl)]
    by_cases hempty : capacity + headSize = 0#64
    · rw [hempty, BitVec.add_zero, or_self] at hmirror
      rw [hempty, BitVec.add_zero, hmirror]
      exact ⟨_, _, rfl, by simp⟩
    · have hne : mapFailed ≠ mapFailed + (capacity + headSize) := by
        intro heq
        exact hempty (by simpa using heq.symm)
      rcases hmirror with hfail | hok
      · rw [hfail, if_pos hne]
        exact ⟨_, _, rfl, by simp [hempty]⟩
      · rw [hok, if_neg (not_not.mpr rfl)]
        exact ⟨_, _, rfl, by simp [hne.symm]⟩
  · obtain ⟨hnull, -, -⟩ := hdoc.reserve hreserve
    have htarget := htarget hreserve
    rw [if_neg hnull]
    rcases hshared with hfail | hok
    · rw [hfail, if_pos (Ne.symm hreserve)]
      exact ⟨_, _, rfl, by simp [hreserve]⟩
    · rw [hok, if_neg (not_not.mpr rfl)]
      rcases hmirror with hfail | hok
      · rw [hfail, if_pos (Ne.symm htarget)]
        exact ⟨_, _, rfl, by simp [hreserve]⟩
      · rw [hok, if_neg (not_not.mpr rfl)]
        exact ⟨_, _, rfl, by simp [hreserve, htarget]⟩

theorem unmap_map {addr length : Word}
    (hfree : ∀ a, addr.toNat ≤ a → a < addr.toNat + length.toNat → host.mapped a = none) :
    ((host.map addr length).unmap addr length).mapped = host.mapped := by
  funext a
  simp only [Host.unmap, Host.map]
  split
  · rename_i hin
    exact (hfree a hin.1 hin.2).symm
  · rfl

theorem unmap_map_map {addr length : Word} (total : Word)
    (hfree : ∀ a, addr.toNat ≤ a → a < addr.toNat + length.toNat → host.mapped a = none)
    (hnumbers : ∀ a n, host.mapped a = some n → n < host.mmaps) :
    (((host.map addr length).map addr total).unmap addr length).mapped = host.mapped ↔
      total.toNat ≤ length.toNat := by
  constructor
  · intro hsame
    by_contra hlt
    have hbehind := congrFun hsame (addr.toNat + length.toNat)
    have hout : ¬ (addr.toNat ≤ addr.toNat + length.toNat ∧
        addr.toNat + length.toNat < addr.toNat + length.toNat) := by omega
    have hin : addr.toNat ≤ addr.toNat + length.toNat ∧
        addr.toNat + length.toNat < addr.toNat + total.toNat := by omega
    simp only [Host.unmap, Host.map, if_neg hout, if_pos hin] at hbehind
    have hnumber := hnumbers _ _ hbehind.symm
    omega
  · intro hle
    rw [← unmap_map hfree]
    funext a
    simp only [Host.unmap, Host.map]
    split
    · rfl
    · rename_i hout
      have hout' : ¬ (addr.toNat ≤ a ∧ a < addr.toNat + total.toNat) := by omega
      rw [if_neg hout']

/-- What a failure unmaps is all that was mapped, unless the reserved length has wrapped around. -/
theorem mapSharedMemory_mapped (hdoc : Documented out host name headSize capacity)
    (h : mapSharedMemory out shmfd headSize capacity = some (none, calls)) :
    (host.run calls).mapped = host.mapped ↔
      ¬ (2 ^ 64 ≤ (capacity + headSize).toNat + capacity.toNat ∧ out.reserve ≠ mapFailed ∧
        out.mapShared ≠ mapFailed) := by
  have hshared := hdoc.mapShared
  have hmirror := hdoc.mirror
  unfold mapSharedMemory at h
  dsimp only at h
  split at h
  · cases h
  by_cases hreserve : out.reserve = mapFailed
  · refine iff_of_true ?_ fun hc => hc.2.1 hreserve
    rw [hreserve, or_self] at hshared
    have hzero : mapFailed ≠ 0 := by decide
    rw [hreserve, if_neg hzero, hshared, if_neg (not_not.mpr rfl)] at h
    split at h
    · rename_i hne
      rw [hreserve] at hmirror
      cases h
      simp [Host.run, Host.call, hmirror.resolve_right hne]
    · cases h
  · obtain ⟨hnull, -, hfree⟩ := hdoc.reserve hreserve
    rw [if_neg hnull] at h
    rcases hshared with hfail | hok
    · refine iff_of_true ?_ fun hc => hc.2.2 hfail
      rw [hfail, if_pos (Ne.symm hreserve)] at h
      cases h
      simpa [Host.run, Host.call, hreserve] using unmap_map hfree
    · rw [hok, if_neg (not_not.mpr rfl)] at h
      split at h
      · rename_i hne
        cases h
        have hrun := unmap_map_map (capacity + headSize) hfree hdoc.numbers
        have hlen : (capacity + headSize + capacity).toNat =
            ((capacity + headSize).toNat + capacity.toNat) % 2 ^ 64 := BitVec.toNat_add ..
        have hlt := (capacity + headSize).isLt
        have hcap := capacity.isLt
        have hiff : (capacity + headSize).toNat ≤ (capacity + headSize + capacity).toNat ↔
            ¬ (2 ^ 64 ≤ (capacity + headSize).toNat + capacity.toNat ∧ out.reserve ≠ mapFailed ∧
              out.reserve ≠ mapFailed) := by
          rw [hlen, and_self, and_iff_left hreserve]
          omega
        rw [hok, ← hiff, ← hrun]
        simp [Host.run, Host.call, hreserve, hmirror.resolve_right hne]
      · cases h

end

/-- A creation that fails leaves the host as it was, and one that does not has had no failure. -/
def CleansUp (out : Outcomes) (host : Host) (name : Option (List UInt8))
    (capacity privateSize : Word) (flag : BitVec 32) : Prop :=
  ∀ res calls, create out name capacity privateSize flag = some (res, calls) →
    (res = none → host.Same (host.run calls)) ∧
    (res ≠ none → (name ≠ none → 0 ≤ out.shmOpen ∧ 0 ≤ out.ftruncate) ∧ AllMapped out)

/-- The name stays unless nothing fails behind `shm_open`. Without a name, a failed reservation must
be noticed in the end, and the reserved length must not wrap around. -/
def NothingStays (out : Outcomes) (headSize capacity : Word) : Option (List UInt8) → Prop
  | some _ =>
    out.shmOpen < 0 ∨ 0 ≤ out.ftruncate ∧ (Aborts out headSize capacity ∨ AllMapped out)
  | none =>
    Aborts out headSize capacity ∨
      if out.reserve = mapFailed then out.mirror = mapFailed ∧ capacity + headSize ≠ 0#64
      else ¬ (2 ^ 64 ≤ (capacity + headSize).toNat + capacity.toNat ∧
        out.mapShared ≠ mapFailed ∧ out.mirror = mapFailed)

section
variable {out : Outcomes} {host : Host} {capacity privateSize : Word} {flag : BitVec 32}

def truncate (out : Outcomes) (shmfd : Int) (headSize capacity : Word) : List SysCall :=
  if 0 ≤ shmfd then [.ftruncate shmfd (capacity + headSize) out.ftruncate] else []

variable {shmfd : Int} {calls : List SysCall}

theorem fcreate_abort (hok : ¬ (0 ≤ shmfd ∧ out.ftruncate < 0))
    (h : mapSharedMemory out shmfd (out.headSize privateSize) (out.roundUp capacity) = none) :
    fcreate out shmfd capacity privateSize flag = none := by
  rw [fcreate]
  rw [if_neg hok]
  exact congrArg _ h

theorem fcreate_null (hok : ¬ (0 ≤ shmfd ∧ out.ftruncate < 0))
    (h : mapSharedMemory out shmfd (out.headSize privateSize) (out.roundUp capacity) =
      some (none, calls)) :
    fcreate out shmfd capacity privateSize flag =
      some (none, truncate out shmfd (out.headSize privateSize) (out.roundUp capacity) ++ calls) := by
  rw [fcreate]
  rw [if_neg hok]
  exact congrArg _ h

theorem fcreate_buffer (flag : BitVec 32) (hok : ¬ (0 ≤ shmfd ∧ out.ftruncate < 0)) {addr : Word}
    (h : mapSharedMemory out shmfd (out.headSize privateSize) (out.roundUp capacity) =
      some (some addr, calls)) :
    ∃ header, fcreate out shmfd capacity privateSize flag =
      some (some (addr, header),
        truncate out shmfd (out.headSize privateSize) (out.roundUp capacity) ++ calls) := by
  rw [fcreate]
  rw [if_neg hok]
  exact ⟨_, congrArg _ h⟩

variable {name : Option (List UInt8)}

theorem cleansUp_abort (h : create out name capacity privateSize flag = none) :
    CleansUp out host name capacity privateSize flag := by
  intro res calls hcall
  cases h.symm.trans hcall

theorem cleansUp_null (h : create out name capacity privateSize flag = some (none, calls)) :
    CleansUp out host name capacity privateSize flag ↔ host.Same (host.run calls) := by
  constructor
  · exact fun hclean => (hclean none calls h).1 rfl
  · intro hsame res calls' hcall
    cases h.symm.trans hcall
    exact ⟨fun _ => hsame, fun hne => absurd rfl hne⟩

theorem cleansUp_buffer {cb : Word × Header}
    (h : create out name capacity privateSize flag = some (some cb, calls)) :
    CleansUp out host name capacity privateSize flag ↔
      (name ≠ none → 0 ≤ out.shmOpen ∧ 0 ≤ out.ftruncate) ∧ AllMapped out := by
  constructor
  · exact fun hclean => (hclean (some cb) calls h).2 nofun
  · intro hall res calls' hcall
    cases h.symm.trans hcall
    exact ⟨nofun, fun _ => hall⟩

theorem mapSharedMemory_aborts {shmfd : Int} {headSize : Word}
    (h : Aborts out headSize capacity) : mapSharedMemory out shmfd headSize capacity = none := by
  unfold Aborts at h
  rw [mapSharedMemory, if_pos h]

theorem same_run_close (host : Host) (hlocal : ∀ c ∈ calls, c.Local) {fd : Int}
    (hfd : fd ∉ host.fds) :
    host.Same (host.run (calls ++ [.close fd])) ↔ (host.run calls).mapped = host.mapped := by
  obtain ⟨hnames, hfds⟩ := run_local host hlocal
  have hfds' : (host.run calls).fds.erase fd = host.fds := by
    rw [hfds, Finset.erase_eq_of_notMem hfd]
  have hrun : host.run (calls ++ [.close fd]) = (host.run calls).call (.close fd) := by
    rw [Host.run, List.foldl_append]
    rfl
  rw [hrun]
  exact ⟨fun h => h.mapped, fun h => ⟨hnames, hfds', h⟩⟩

theorem create_anonymous (hcapacity : capacity ≠ 0)
    (hdoc : Documented out host none (out.headSize privateSize) (out.roundUp capacity)) :
    CleansUp out host none capacity privateSize flag ↔
      NothingStays out (out.headSize privateSize) (out.roundUp capacity) none := by
  have hok : ¬ ((0 : Int) ≤ -1 ∧ out.ftruncate < 0) := fun hc => absurd hc.1 (by decide)
  by_cases habort : Aborts out (out.headSize privateSize) (out.roundUp capacity)
  · refine iff_of_true (cleansUp_abort ?_) (.inl habort)
    rw [create, if_neg hcapacity, fcreate_abort hok (mapSharedMemory_aborts habort),
      Option.map_none]
  · obtain ⟨res, calls, hmap, hsome⟩ := mapSharedMemory_isSome hdoc (-1) habort
    rw [NothingStays, or_iff_right habort]
    cases res with
    | none =>
      have hcreate : create out none capacity privateSize flag =
          some (none, calls ++ [.close (-1)]) := by
        rw [create, if_neg hcapacity, fcreate_null hok hmap]
        rfl
      have hmapped := mapSharedMemory_mapped hdoc hmap
      have hnofd : (-1 : Int) ∉ host.fds := fun hmem => absurd (hdoc.fds _ hmem) (by decide)
      have hsame := same_run_close host (mapSharedMemory_local hmap) hnofd
      have hnone : ¬ (AllMapped out ∨ out.reserve = mapFailed ∧
          (out.mirror ≠ mapFailed ∨ out.roundUp capacity + out.headSize privateSize = 0#64)) := by
        simpa using hsome
      rw [cleansUp_null hcreate, hsame, hmapped]
      split
      · rename_i hreserve
        obtain ⟨hmirror, hempty⟩ := not_or.mp fun hc => hnone (.inr ⟨hreserve, hc⟩)
        exact iff_of_true (fun hc => hc.2.1 hreserve) ⟨not_not.mp hmirror, hempty⟩
      · rename_i hreserve
        refine not_congr ⟨?_, fun hc => ⟨hc.1, hreserve, hc.2.1⟩⟩
        rintro ⟨hwrap, -, hshared⟩
        refine ⟨hwrap, hshared, ?_⟩
        by_contra hmirror
        exact hnone (.inl ⟨hreserve, hshared, hmirror⟩)
    | some addr =>
      obtain ⟨header, hfcreate⟩ := fcreate_buffer flag hok hmap
      have hcreate :
          create out none capacity privateSize flag = some (some (addr, header), calls) := by
        rw [create, if_neg hcapacity, hfcreate]
        rfl
      have hall := hsome.mp rfl
      rw [cleansUp_buffer hcreate]
      split
      · rename_i hreserve
        refine iff_of_false (fun hc => hc.2.1 hreserve) ?_
        rintro ⟨hmirror, hempty⟩
        rcases hall with hall | ⟨-, hne | hzero⟩
        · exact hall.1 hreserve
        · exact hne hmirror
        · exact hempty hzero
      · rename_i hreserve
        have hall := hall.resolve_right fun hc => hreserve hc.1
        exact iff_of_true ⟨fun hne => absurd rfl hne, hall⟩ fun hc => hall.2.2 hc.2.2

theorem mem_names_run (host : Host) (hopen : 0 ≤ out.shmOpen) (n : List UInt8)
    (h : ∀ c ∈ calls, c.Local) :
    n ∈ (host.run (.shmOpen n out.shmOpen :: calls ++ [.close out.shmOpen])).names := by
  have hrun : host.run (.shmOpen n out.shmOpen :: calls ++ [.close out.shmOpen]) =
      ((host.call (.shmOpen n out.shmOpen)).run calls).call (.close out.shmOpen) := by
    rw [Host.run, List.foldl_append]
    rfl
  have hnames := (run_local (host.call (.shmOpen n out.shmOpen)) h).1
  rw [hrun]
  change n ∈ ((host.call (.shmOpen n out.shmOpen)).run calls).names
  rw [hnames, Host.call, if_pos hopen]
  exact Finset.mem_insert_self n _

section
variable {n : List UInt8}

theorem create_aborted (hcapacity : capacity ≠ 0) (hopen : ¬ out.shmOpen < 0)
    (h : fcreate out out.shmOpen capacity privateSize flag = none) :
    create out (some n) capacity privateSize flag = none := by
  rw [create, if_neg hcapacity]
  dsimp only
  rw [if_neg hopen, h]
  rfl

theorem create_null (hcapacity : capacity ≠ 0) (hopen : ¬ out.shmOpen < 0)
    (h : fcreate out out.shmOpen capacity privateSize flag = some (none, calls)) :
    create out (some n) capacity privateSize flag =
      some (none, .shmOpen n out.shmOpen :: calls ++ [.close out.shmOpen]) := by
  rw [create, if_neg hcapacity]
  dsimp only
  rw [if_neg hopen, h]
  rfl

theorem create_buffer (hcapacity : capacity ≠ 0) (hopen : ¬ out.shmOpen < 0) {addr : Word}
    {header : Header}
    (h : fcreate out out.shmOpen capacity privateSize flag = some (some (addr, header), calls)) :
    create out (some n) capacity privateSize flag =
      some (some (addr, { header with name := n ++ [0] }),
        .shmOpen n out.shmOpen :: calls ++ [.close out.shmOpen]) := by
  rw [create, if_neg hcapacity]
  dsimp only
  rw [if_neg hopen, h]
  rfl

end

theorem create_named {n : List UInt8} (hcapacity : capacity ≠ 0)
    (hdoc : Documented out host (some n) (out.headSize privateSize) (out.roundUp capacity)) :
    CleansUp out host (some n) capacity privateSize flag ↔
      NothingStays out (out.headSize privateSize) (out.roundUp capacity) (some n) := by
  by_cases hopen : out.shmOpen < 0
  · have hcreate : create out (some n) capacity privateSize flag =
        some (none, [.shmOpen n out.shmOpen]) := by
      rw [create, if_neg hcapacity]
      exact if_pos hopen
    refine iff_of_true ((cleansUp_null hcreate).mpr ?_) (.inl hopen)
    have hcall : host.call (.shmOpen n out.shmOpen) = host := if_neg (Int.not_le.mpr hopen)
    rw [Host.run, List.foldl_cons, hcall]
    exact ⟨rfl, rfl, rfl⟩
  have hopen' : 0 ≤ out.shmOpen := Int.not_lt.mp hopen
  have hnew := (hdoc.shmOpen n rfl hopen').1
  -- a null pointer means that the name has stayed
  have hnull (calls : List SysCall) (hlocal : ∀ c ∈ calls, c.Local)
      (hfcreate : fcreate out out.shmOpen capacity privateSize flag = some (none, calls)) :
      ¬ CleansUp out host (some n) capacity privateSize flag := by
    rw [cleansUp_null (create_null hcapacity hopen hfcreate)]
    intro hsame
    have hmem := mem_names_run host hopen' n hlocal
    rw [hsame.names] at hmem
    exact hnew hmem
  rw [NothingStays, or_iff_right hopen]
  by_cases hsize : out.ftruncate < 0
  · have hfail : ¬ (0 ≤ out.ftruncate ∧ (Aborts out (out.headSize privateSize)
        (out.roundUp capacity) ∨ AllMapped out)) := fun hc => absurd hc.1 (Int.not_le.mpr hsize)
    refine iff_of_false (hnull [.ftruncate out.shmOpen
      (out.roundUp capacity + out.headSize privateSize) out.ftruncate] ?_ ?_) hfail
    · simp [SysCall.Local]
    · rw [fcreate, if_pos ⟨hopen', hsize⟩, if_pos hopen']
      rfl
  · have hok : ¬ (0 ≤ out.shmOpen ∧ out.ftruncate < 0) := fun hc => hsize hc.2
    rw [and_iff_right (Int.not_lt.mp hsize)]
    by_cases habort : Aborts out (out.headSize privateSize) (out.roundUp capacity)
    · have hfcreate : fcreate out out.shmOpen capacity privateSize flag = none :=
        fcreate_abort hok (mapSharedMemory_aborts habort)
      exact iff_of_true (cleansUp_abort (create_aborted hcapacity hopen hfcreate)) (.inl habort)
    · obtain ⟨res, calls, hmap, hsome⟩ := mapSharedMemory_isSome hdoc out.shmOpen habort
      rw [or_iff_right habort]
      cases res with
      | none =>
        refine iff_of_false (hnull _ ?_ (fcreate_null hok hmap)) fun hall => ?_
        · have hlocal := mapSharedMemory_local hmap
          intro c hc
          rcases List.mem_append.mp hc with hc | hc
          · rw [truncate, if_pos hopen'] at hc
            obtain rfl := List.mem_singleton.mp hc
            trivial
          · exact hlocal c hc
        · exact absurd (hsome.mpr (.inl hall)) Bool.false_ne_true
      | some addr =>
        obtain ⟨header, hfcreate⟩ := fcreate_buffer flag hok hmap
        rw [cleansUp_buffer (create_buffer hcapacity hopen hfcreate)]
        exact and_iff_right fun _ => ⟨hopen', Int.not_lt.mp hsize⟩

/-- For every name, or none, and every outcome of the calls. -/
theorem create_cleansUp {name : Option (List UInt8)} (hcapacity : capacity ≠ 0)
    (hdoc : Documented out host name (out.headSize privateSize) (out.roundUp capacity)) :
    CleansUp out host name capacity privateSize flag ↔
      NothingStays out (out.headSize privateSize) (out.roundUp capacity) name := by
  cases name with
  | none => exact create_anonymous hcapacity hdoc
  | some n => exact create_named hcapacity hdoc

end

def bareHost : Host := { names := ∅, fds := {0, 1, 2}, mapped := fun _ => none, mmaps := 0 }

def noMirror : Outcomes :=
  { pageSize := 4096, shmOpen := 3, ftruncate := 0, reserve := 65536, mapShared := 65536,
    mirror := mapFailed }

theorem noMirror_documented :
    Documented noMirror bareHost none (noMirror.headSize 0) (noMirror.roundUp 100) where
  pageSize := by decide
  fds := by decide
  numbers := nofun
  shmOpen := nofun
  reserve := fun _ => ⟨by decide, by decide, fun _ _ _ => rfl⟩
  mapShared := .inr rfl
  mirror := .inl rfl

theorem noMirror_cleansUp : ∃ calls, create noMirror none 100 0 0 = some (none, calls) ∧
    CleansUp noMirror bareHost none 100 0 0 ∧ bareHost.Same (bareHost.run calls) := by
  have hclean : CleansUp noMirror bareHost none 100 0 0 :=
    (create_cleansUp (by decide) noMirror_documented).mpr (.inr (by decide))
  obtain ⟨calls, hcalls⟩ : ∃ calls, create noMirror none 100 0 0 = some (none, calls) := ⟨_, rfl⟩
  exact ⟨calls, hcalls, hclean, (hclean none calls hcalls).1 rfl⟩

def noSpace : Outcomes :=
  { pageSize := 4096, shmOpen := 3, ftruncate := -1, reserve := 65536, mapShared := 65536,
    mirror := 73728 }

theorem noSpace_named : ¬ CleansUp noSpace bareHost (some [47, 98]) 100 0 0 := by
  intro hclean
  have hsame := (hclean none _ rfl).1 rfl
  have hnames := hsame.names
  revert hnames
  decide

end Flyzero.CircularBuffer
