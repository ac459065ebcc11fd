import Flyzero.CircularBuffer.Layout
import Flyzero.Lib.Holdings
import Mathlib.Logic.Relation

/-! What the connections of a process hold: descriptors, and the memory of the rings. -/
namespace Flyzero.TcpConnection
open CircularBuffer Holdings

structure Object where
  fd : Int
  rcb : Option Buffer
  wcb : Option Buffer

/-- `none` inside is an exception. -/
def createCb (host : Host) (out : Outcomes) (size : Word) :
    Option (Option (Option Buffer) × Host) :=
  if size = 0 then some (some none, host)
  else
    (create out none size 0 0).map fun
      | (none, calls) => (none, host.run calls)
      | (some (addr, header), calls) =>
        (some (some { addr, header, ring := fun _ => 0 }), host.run calls)

/-- The `deleter`, which nobody calls for an empty pointer. -/
def deleteCb (host : Host) : Option Buffer → Host
  | none => host
  | some cb =>
    let host := match (destroy cb).1 with
      | none => host
      | some name => { host with names := host.names.erase name }
    host.call (destroy cb).2

/-- The destructor of `file_descriptor`. -/
def closeFd (host : Host) (fd : Int) : Host := if 0 ≤ fd then host.call (.close fd) else host

/-- What has been constructed is destroyed when the creation of the next ring throws. -/
def construct (host : Host) (rcbOut wcbOut : Outcomes) (sock : Int) (rcbSize wcbSize : Word) :
    Option (Option Object × Host) :=
  (createCb host rcbOut rcbSize).bind fun
    | (none, host) => some (none, closeFd host sock)
    | (some rcb, host) =>
      (createCb host wcbOut wcbSize).map fun
        | (none, host) => (none, closeFd (deleteCb host rcb) sock)
        | (some wcb, host) => (some { fd := sock, rcb, wcb }, host)

/-- The members in reverse order, then the base. -/
def destruct (host : Host) (c : Object) : Host :=
  closeFd (deleteCb (deleteCb host c.wcb) c.rcb) c.fd

/-- `accept` and `F_DUPFD` return a new descriptor, or fail. -/
def opens (host : Host) (fd : Int) : Host :=
  if 0 ≤ fd then { host with fds := insert fd host.fds } else host

def copyFd (dup fd : Int) : Int := if fd = -1 then -1 else dup

/-- `io_listener` declares its destructor and has no move: the base is copied, by `F_DUPFD`, which
returns `dup`, and only the rings are moved. -/
def moveConstruct (host : Host) (dup : Int) (other : Object) : Object × Object × Host :=
  ({ other with fd := copyFd dup other.fd }, { other with rcb := none, wcb := none },
    opens host (copyFd dup other.fd))

def moveAssign (host : Host) (dup : Int) (c other : Object) : Object × Object × Host :=
  ({ other with fd := copyFd dup other.fd }, { other with rcb := none, wcb := none },
    deleteCb (deleteCb (closeFd (opens host (copyFd dup other.fd)) c.fd) c.rcb) c.wcb)

/-- The manual pages on the calls of a creation for a host, and sizes that it can address. -/
structure Sane (out : Outcomes) (host : Host) (size : Word) : Prop where
  documented : Documented out host none (out.headSize 0) (out.roundUp size)
  placed : out.reserve ≠ mapFailed →
    out.reserve.toNat + (out.roundUp size + out.headSize 0 + out.roundUp size).toNat ≤ 2 ^ 64
  aligned : out.mirror ≠ mapFailed → out.mirror &&& (out.pageSize - 1) = 0
  fits : (out.headSize 0).toNat + 2 * (out.roundUp size).toNat < 2 ^ 64

structure World (ι : Type*) where
  host : Host
  objects : ι → Option Object

section
variable {ι : Type*} [DecidableEq ι]

inductive Step : World ι → World ι → Prop
  | constructs {w i rcbOut wcbOut sock rcbSize wcbSize res host} (hfree : w.objects i = none)
    (hnew : sock ∉ w.host.fds) (hrcb : rcbSize ≠ 0 → Sane rcbOut (opens w.host sock) rcbSize)
    (hwcb : ∀ rcb host', createCb (opens w.host sock) rcbOut rcbSize = some (some rcb, host') →
      wcbSize ≠ 0 → Sane wcbOut host' wcbSize)
    (h : construct (opens w.host sock) rcbOut wcbOut sock rcbSize wcbSize = some (res, host)) :
    Step w { host, objects := Function.update w.objects i res }
  | moves {w i j other dup c' other' host} (hfree : w.objects i = none)
    (hother : w.objects j = some other) (hnew : dup ∉ w.host.fds)
    (h : moveConstruct w.host dup other = (c', other', host)) :
    Step w
      { host, objects := Function.update (Function.update w.objects j (some other')) i (some c') }
  | assigns {w i j c other dup c' other' host} (hne : i ≠ j) (hc : w.objects i = some c)
    (hother : w.objects j = some other) (hnew : dup ∉ w.host.fds)
    (h : moveAssign w.host dup c other = (c', other', host)) :
    Step w
      { host, objects := Function.update (Function.update w.objects j (some other')) i (some c') }
  /-- `file_descriptor` compares the addresses, and a `unique_ptr` is reset to what it released. -/
  | assignsSelf {w i c} (hc : w.objects i = some c) : Step w w
  | destructs {w i c} (hc : w.objects i = some c) :
    Step w { host := destruct w.host c, objects := Function.update w.objects i none }

end

inductive Side where
  | read | write
  deriving DecidableEq

def Object.cb (c : Object) : Side → Option Buffer
  | .read => c.rcb
  | .write => c.wcb

/-- The rings that are held, by object and side. -/
def cbs {ι : Type*} (objects : ι → Option Object) (slot : ι × Side) : Option Buffer :=
  (objects slot.1).bind (·.cb slot.2)

def mappedSize (cb : Buffer) : Word :=
  alignedHeaderSize cb.header.privateSize cb.header.pageMask + cb.header.capacity +
    cb.header.capacity

def Covers (cb : Buffer) (a : Nat) : Prop :=
  cb.addr.toNat ≤ a ∧ a < cb.addr.toNat + (mappedSize cb).toNat

def IsFd (fd a : Int) : Prop := a = fd ∧ 0 ≤ fd

/-- Beside what there was at first, a descriptor is open for one object, and an address mapped for
one ring of one object. -/
structure Balanced {ι : Type*} (base : Host) (w : World ι) : Prop where
  names : w.host.names = base.names
  fds : Held IsFd False (· ∈ base.fds) (· ∈ w.host.fds) (Option.map Object.fd ∘ w.objects)
  memory : Held Covers none base.mapped w.host.mapped (cbs w.objects)
  anonymous : ∀ slot cb, cbs w.objects slot = some cb → (destroy cb).1 = none

section
variable {out : Outcomes} {host host' : Host} {size : Word} {cb : Option Buffer}

structure Maps (host host' : Host) (cb : Option Buffer) : Prop where
  names : host'.names = host.names
  fds : host'.fds = host.fds
  fresh : ∀ b a, cb = some b → Covers b a → host.mapped a = none ∧ host'.mapped a ≠ none
  frame : ∀ a, (∀ b, cb = some b → ¬ Covers b a) → host'.mapped a = host.mapped a
  anonymous : ∀ b, cb = some b → (destroy b).1 = none

theorem Sane.total (h : Sane out host size) :
    (out.roundUp size + out.headSize 0).toNat =
      (out.roundUp size).toNat + (out.headSize 0).toNat := by
  have hfits := h.fits
  rw [BitVec.toNat_add, Nat.mod_eq_of_lt (by omega)]

/-- A failed reservation is noticed: the address behind `MAP_FAILED` is not aligned. -/
theorem Sane.nothingStays (h : Sane out host size)
    (hassert : ¬ Aborts out (out.headSize 0) (out.roundUp size)) :
    NothingStays out (out.headSize 0) (out.roundUp size) none := by
  obtain ⟨-, hcap, hheadMask, hcapMask⟩ : out.headSize 0 ≠ 0 ∧ out.roundUp size ≠ 0 ∧
      out.headSize 0 &&& (out.pageSize - 1) = 0 ∧ out.roundUp size &&& (out.pageSize - 1) = 0 := by
    simpa [Aborts, not_or] using hassert
  have htotal := h.total
  have hfits := h.fits
  have hpositive := BitVec.toNat_pos_of_ne_zero hcap
  have heven := even_of_aligned h.documented.pageSize hheadMask
  have heven' := even_of_aligned h.documented.pageSize hcapMask
  refine .inr ?_
  split
  · rename_i hreserve
    refine ⟨?_, fun hzero => ?_⟩
    · by_contra hmirror
      have haddr := even_of_aligned h.documented.pageSize (h.aligned hmirror)
      rw [h.documented.mirror.resolve_left hmirror, hreserve, BitVec.toNat_add, htotal] at haddr
      have hfailed : mapFailed.toNat = 2 ^ 64 - 1 := rfl
      omega
    · rw [hzero] at htotal
      change 0 = _ at htotal
      omega
  · omega

theorem mapSharedMemory_covers {addr : Word} {calls : List SysCall} (hsane : Sane out host size)
    (hall : AllMapped out)
    (h : mapSharedMemory out (-1) (out.headSize 0) (out.roundUp size) = some (some addr, calls)) :
    (host.run calls).names = host.names ∧ (host.run calls).fds = host.fds ∧ ∀ a,
      if addr.toNat ≤ a ∧
          a < addr.toNat + (out.headSize 0 + out.roundUp size + out.roundUp size).toNat then
        host.mapped a = none ∧ (host.run calls).mapped a ≠ none
      else (host.run calls).mapped a = host.mapped a := by
  obtain ⟨hreserve, hshared, hmirror⟩ := hall
  obtain ⟨hnull, -, hfree⟩ := hsane.documented.reserve hreserve
  have hshared := hsane.documented.mapShared.resolve_left hshared
  have htarget := hsane.documented.mirror.resolve_left hmirror
  have hcap : 0 < (out.roundUp size).toNat := by
    obtain ⟨-, hcap, -⟩ := mapSharedMemory_some h
    exact BitVec.toNat_pos_of_ne_zero hcap
  unfold mapSharedMemory at h
  dsimp only at h
  split at h
  · cases h
  rw [hshared, htarget, if_neg (not_not.mpr rfl), if_neg (not_not.mpr rfl)] at h
  cases h
  rw [htarget] at hmirror
  have hrun (total cap : Word) (hmirror : out.reserve + total ≠ mapFailed) :
      host.run [.mmap 0 (total + cap) (-1) out.reserve, .mmap out.reserve total (-1) out.reserve,
        .mremap (out.reserve + out.headSize 0) cap (out.reserve + total) (out.reserve + total)] =
      ((host.map out.reserve (total + cap)).map out.reserve total).map (out.reserve + total)
        cap := by
    simp [Host.run, Host.call, hreserve, hmirror]
  rw [hrun _ _ hmirror]
  have htotal := hsane.total
  have hfits := hsane.fits
  have hplaced := hsane.placed hreserve
  have hlen : (out.roundUp size + out.headSize 0 + out.roundUp size).toNat =
      (out.headSize 0).toNat + 2 * (out.roundUp size).toNat := by
    rw [BitVec.toNat_add, htotal, Nat.mod_eq_of_lt (by omega)]
    omega
  have hlen' : (out.headSize 0 + out.roundUp size + out.roundUp size).toNat =
      (out.headSize 0).toNat + 2 * (out.roundUp size).toNat := by
    rw [BitVec.add_comm (out.headSize 0), hlen]
  have hbehind : (out.reserve + (out.roundUp size + out.headSize 0)).toNat =
      out.reserve.toNat + (out.headSize 0).toNat + (out.roundUp size).toNat := by
    rw [BitVec.toNat_add, htotal, Nat.mod_eq_of_lt (by omega)]
    omega
  refine ⟨rfl, rfl, fun a => ?_⟩
  simp only [Host.map, hlen, hlen', htotal, hbehind] at hfree ⊢
  split
  · rename_i hin
    refine ⟨hfree a hin.1 hin.2, ?_⟩
    split
    · exact Option.some_ne_none _
    · split
      · exact Option.some_ne_none _
      · exact Option.some_ne_none _
  · rename_i hout
    rw [if_neg (by omega), if_neg (by omega)]

theorem create_unnamed {addr : Word} {header : Header} {calls : List SysCall}
    (h : create out none size 0 0 = some (some (addr, header), calls)) :
    header = { r := 0, w := 0, name := [0], capacity := out.roundUp size, privateSize := 0,
               pageMask := out.pageSize - 1, flag := 0 } ∧
      mapSharedMemory out (-1) (out.headSize 0) (out.roundUp size) = some (some addr, calls) := by
  have hok : ¬ ((0 : Int) ≤ -1 ∧ out.ftruncate < 0) := fun hc => absurd hc.1 (by decide)
  unfold create at h
  split at h
  · cases h
  obtain ⟨⟨made, calls₁⟩, hf, hmade⟩ := Option.map_eq_some_iff.mp h
  rw [fcreate, if_neg hok] at hf
  obtain ⟨⟨made', calls₂⟩, hmap, hmade'⟩ := Option.map_eq_some_iff.mp hf
  cases made with
  | none => cases hmade
  | some cb =>
    cases hmade
    cases made' with
    | none => cases hmade'
    | some addr' =>
      cases hmade'
      exact ⟨rfl, hmap⟩

theorem createCb_maps {res : Option (Option Buffer)} (hsane : size ≠ 0 → Sane out host size)
    (h : createCb host out size = some (res, host')) : Maps host host' res.join := by
  unfold createCb at h
  split at h
  · cases h
    exact ⟨rfl, rfl, by simp, fun _ _ => rfl, by simp⟩
  · rename_i hsize
    have hsane := hsane hsize
    obtain ⟨⟨made, calls⟩, hcreate, hres⟩ := Option.map_eq_some_iff.mp h
    have hassert : ¬ Aborts out (out.headSize 0) (out.roundUp size) := by
      intro habort
      have hok : ¬ ((0 : Int) ≤ -1 ∧ out.ftruncate < 0) := fun hc => absurd hc.1 (by decide)
      rw [create, if_neg hsize, fcreate_abort hok (mapSharedMemory_aborts habort)] at hcreate
      cases hcreate
    have hclean := (create_anonymous hsize hsane.documented).mpr (hsane.nothingStays hassert)
      made calls hcreate
    cases made with
    | none =>
      cases hres
      obtain ⟨hnames, hfds, hmapped⟩ := hclean.1 rfl
      exact ⟨hnames, hfds, by simp, fun a _ => congrFun hmapped a, by simp⟩
    | some made =>
      obtain ⟨addr, header⟩ := made
      cases hres
      obtain ⟨-, hall⟩ := hclean.2 (Option.some_ne_none _)
      obtain ⟨rfl, hmap⟩ := create_unnamed hcreate
      obtain ⟨hnames, hfds, hcovers⟩ := mapSharedMemory_covers hsane hall hmap
      refine ⟨hnames, hfds, fun b a hb hin => ?_, fun a hout => ?_, fun b hb => ?_⟩
      · obtain rfl := Option.some.inj hb
        exact (if_pos hin).mp (hcovers a)
      · exact (if_neg (hout _ rfl)).mp (hcovers a)
      · obtain rfl := Option.some.inj hb
        rfl

end

section
variable {κ : Type*} [DecidableEq κ] {base host host' : Host} {k : κ} {cb : Option Buffer}
  {held : κ → Option Buffer}

theorem maps_held (h : Maps host host' cb)
    (hheld : Held Covers none base.mapped host.mapped held) (hk : held k = none) :
    Held Covers none base.mapped host'.mapped (Function.update held k cb) := by
  cases cb with
  | none =>
    have hmapped : host'.mapped = host.mapped := funext fun a => h.frame a (by simp)
    rwa [hmapped, Function.update_eq_self_iff.mpr hk.symm]
  | some b =>
    refine hheld.acquire hk (fun a ha => (h.fresh b a rfl ha).1) (fun a ha => (h.fresh b a rfl ha).2)
      fun a ha => h.frame a fun b' hb' => ?_
    obtain rfl := Option.some.inj hb'
    exact ha

theorem deleteCb_host (host : Host) (hanonymous : ∀ b, cb = some b → (destroy b).1 = none) :
    (deleteCb host cb).names = host.names ∧ (deleteCb host cb).fds = host.fds := by
  cases cb with
  | none => exact ⟨rfl, rfl⟩
  | some b =>
    rw [deleteCb, hanonymous b rfl]
    exact ⟨rfl, rfl⟩

theorem deleteCb_held (hanonymous : ∀ b, cb = some b → (destroy b).1 = none)
    (hheld : Held Covers none base.mapped host.mapped held) (hk : held k = cb) :
    Held Covers none base.mapped (deleteCb host cb).mapped (Function.update held k none) := by
  cases cb with
  | none =>
    rwa [Function.update_eq_self_iff.mpr hk.symm]
  | some b =>
    have hunmap : (deleteCb host (some b)).mapped = (host.unmap b.addr (mappedSize b)).mapped := by
      rw [deleteCb, hanonymous b rfl]
      rfl
    rw [hunmap]
    exact hheld.release hk (fun a ha => if_pos ha) fun a ha => if_neg ha

end

section
variable {κ : Type*} [DecidableEq κ] {base host : Host} {k : κ} {fd : Int} {held : κ → Option Int}

theorem opens_held
    (hheld : Held IsFd False (· ∈ base.fds) (· ∈ host.fds) held)
    (hk : held k = none) (hnew : 0 ≤ fd → fd ∉ host.fds) :
    Held IsFd False (· ∈ base.fds) (· ∈ (opens host fd).fds) (Function.update held k (some fd)) := by
  unfold opens
  split
  · refine hheld.acquire hk (fun a ha => ?_) (fun a ha => ?_) fun a ha => ?_
    · rw [ha.1]
      exact eq_false (hnew ha.2)
    · simp [ha.1]
    · have hne : a ≠ fd := fun heq => ha ⟨heq, by assumption⟩
      simp [hne]
  · refine hheld.congr fun l r a ha => ?_
    by_cases hl : l = k
    · rw [hl, Function.update_self, hk]
      refine iff_of_false (fun hr => ?_) (by simp)
      obtain rfl := Option.some.inj hr
      exact absurd ha.2 (by assumption)
    · rw [Function.update_of_ne hl]

theorem closeFd_held (hheld : Held IsFd False (· ∈ base.fds) (· ∈ host.fds) held)
    (hk : held k = some fd) :
    Held IsFd False (· ∈ base.fds) (· ∈ (closeFd host fd).fds) (Function.update held k none) := by
  unfold closeFd
  split
  · refine hheld.release hk (fun a ha => ?_) fun a ha => ?_
    · simp [Host.call, ha.1]
    · have hne : a ≠ fd := fun heq => ha ⟨heq, by assumption⟩
      simp [Host.call, hne]
  · refine hheld.congr fun l r a ha => ?_
    by_cases hl : l = k
    · rw [hl, Function.update_self, hk]
      refine iff_of_false (by simp) fun hr => ?_
      obtain rfl := Option.some.inj hr
      exact absurd ha.2 (by assumption)
    · rw [Function.update_of_ne hl]

theorem copyFd_held {dup : Int} (hheld : Held IsFd False (· ∈ base.fds) (· ∈ host.fds) held)
    (hk : held k = none) (hnew : dup ∉ host.fds) :
    Held IsFd False (· ∈ base.fds) (· ∈ (opens host (copyFd dup fd)).fds)
      (Function.update held k (some (copyFd dup fd))) := by
  refine opens_held hheld hk fun hfd => ?_
  unfold copyFd at hfd ⊢
  split
  · rename_i hempty
    simp [hempty] at hfd
  · exact hnew

theorem closeFd_host (host : Host) (fd : Int) :
    (closeFd host fd).names = host.names ∧ (closeFd host fd).mapped = host.mapped := by
  unfold closeFd
  split
  · exact ⟨rfl, rfl⟩
  · exact ⟨rfl, rfl⟩

theorem opens_host (host : Host) (fd : Int) :
    (opens host fd).names = host.names ∧ (opens host fd).mapped = host.mapped := by
  unfold opens
  split
  · exact ⟨rfl, rfl⟩
  · exact ⟨rfl, rfl⟩

end

section
variable {ι : Type*} [DecidableEq ι] {objects : ι → Option Object} {i j : ι}

theorem cbs_update (v : Option Object) : cbs (Function.update objects i v) =
    Function.update (Function.update (cbs objects) (i, .read) (v.bind (·.cb .read))) (i, .write)
      (v.bind (·.cb .write)) := by
  funext slot
  obtain ⟨j, side⟩ := slot
  by_cases hj : j = i <;> cases side <;> simp [cbs, hj]

theorem cbs_moved {c other : Object} (hne : j ≠ i) :
    cbs (Function.update (Function.update objects j (some { c with rcb := none, wcb := none })) i
        (some other)) =
      Function.update (Function.update (Function.update (Function.update (cbs objects)
        (j, .read) none) (i, .read) other.rcb) (j, .write) none) (i, .write) other.wcb := by
  funext slot
  obtain ⟨k, side⟩ := slot
  by_cases hi : k = i
  · cases side <;> simp [cbs, Object.cb, hi]
  · by_cases hj : k = j <;> cases side <;>
      simp [cbs, Object.cb, hi, hj, hne]

theorem cbs_forall {P : Buffer → Prop} {v : Option Object}
    (hothers : ∀ slot b, cbs objects slot = some b → P b)
    (hnew : ∀ side b, v.bind (·.cb side) = some b → P b) (slot : ι × Side) (b : Buffer)
    (hb : cbs (Function.update objects i v) slot = some b) : P b := by
  by_cases hi : slot.1 = i
  · rw [cbs, hi, Function.update_self] at hb
    exact hnew _ b hb
  · rw [cbs, Function.update_of_ne hi] at hb
    exact hothers slot b hb

variable {base host host' : Host} {w w' : World ι} {c other : Object} {dup : Int}
  {cb : Option Buffer}

theorem moved_held (hheld : Held Covers none base.mapped host.mapped (cbs objects))
    (hfree : objects i = none) (hother : objects j = some other) (fd : Int) :
    Held Covers none base.mapped host.mapped
      (cbs (Function.update (Function.update objects j
        (some { other with rcb := none, wcb := none })) i (some { other with fd }))) := by
  have hne : j ≠ i := by
    intro heq
    simp [← heq, hother] at hfree
  have hcb (side : Side) : cbs objects (j, side) = other.cb side := by simp [cbs, hother]
  have hread := hheld.move (hcb .read) (l := (i, .read)) (by simp [cbs, hfree])
  have hwrite := hread.move (k := (j, .write)) (l := (i, .write)) (by simpa using hcb .write)
    (by simp [cbs, hfree])
  rw [cbs_moved hne]
  exact hwrite

theorem moved_fds (hother : objects j = some other) :
    Option.map Object.fd ∘
        Function.update objects j (some { other with rcb := none, wcb := none }) =
      Option.map Object.fd ∘ objects := by
  rw [Function.comp_update]
  exact Function.update_eq_self_iff.mpr (by simp [hother])

theorem moved_anonymous {P : Buffer → Prop} (hothers : ∀ slot b, cbs objects slot = some b → P b)
    (hother : objects j = some other) (fd : Int) (slot : ι × Side) (b : Buffer)
    (hb : cbs (Function.update (Function.update objects j
      (some { other with rcb := none, wcb := none })) i (some { other with fd })) slot = some b) :
    P b := by
  refine cbs_forall (cbs_forall hothers ?_) (fun side b hb => ?_) slot b hb
  · intro side b hb
    cases side <;> cases hb
  · refine hothers (j, side) b ?_
    cases side <;> simpa [cbs, Object.cb, hother] using hb

theorem move_balanced (hw : Balanced base w) (hfree : w.objects i = none)
    (hother : w.objects j = some other) (hnew : dup ∉ w.host.fds) :
    Balanced base
      { host := (moveConstruct w.host dup other).2.2
        objects := Function.update
          (Function.update w.objects j (some (moveConstruct w.host dup other).2.1)) i
          (some (moveConstruct w.host dup other).1) } := by
  obtain ⟨hnames, hmapped⟩ := opens_host w.host (copyFd dup other.fd)
  refine ⟨hnames.trans hw.names, ?_, ?_, moved_anonymous hw.anonymous hother _⟩
  · rw [Function.comp_update]
    change Held _ _ _ _ (Function.update (Option.map Object.fd ∘ Function.update w.objects j
      (some { other with rcb := none, wcb := none })) i _)
    rw [moved_fds hother]
    exact copyFd_held hw.fds (by simp [hfree]) hnew
  · refine moved_held ?_ hfree hother _
    change Held _ _ _ (opens w.host (copyFd dup other.fd)).mapped _
    rw [hmapped]
    exact hw.memory

theorem construct_balanced {rcbOut wcbOut : Outcomes} {sock : Int} {rcbSize wcbSize : Word}
    {res : Option Object} (hw : Balanced base w) (hfree : w.objects i = none)
    (hnew : sock ∉ w.host.fds) (hrcb : rcbSize ≠ 0 → Sane rcbOut (opens w.host sock) rcbSize)
    (hwcb : ∀ rcb host', createCb (opens w.host sock) rcbOut rcbSize = some (some rcb, host') →
      wcbSize ≠ 0 → Sane wcbOut host' wcbSize)
    (h : construct (opens w.host sock) rcbOut wcbOut sock rcbSize wcbSize = some (res, host)) :
    Balanced base { host, objects := Function.update w.objects i res } := by
  obtain ⟨hnames₁, hmapped₁⟩ := opens_host w.host sock
  have hfds₁ := opens_held hw.fds (k := i) (by simp [hfree]) fun _ => hnew
  have hmemory₁ : Held Covers none base.mapped (opens w.host sock).mapped (cbs w.objects) := by
    rw [hmapped₁]
    exact hw.memory
  have hnone (side : Side) : cbs w.objects (i, side) = none := by simp [cbs, hfree]
  have hkeep : Function.update w.objects i none = w.objects :=
    Function.update_eq_self_iff.mpr hfree.symm
  -- the descriptor is closed when an exception leaves the constructor
  have hthrown {host : Host} (hnames : host.names = (opens w.host sock).names)
      (hfds : host.fds = (opens w.host sock).fds)
      (hmemory : Held Covers none base.mapped host.mapped (cbs w.objects)) :
      Balanced base { host := closeFd host sock, objects := Function.update w.objects i none } := by
    obtain ⟨hnames', hmapped'⟩ := closeFd_host host sock
    refine ⟨hnames'.trans (hnames.trans (hnames₁.trans hw.names)), ?_, ?_, ?_⟩
    · rw [← hfds] at hfds₁
      have hclosed := closeFd_held hfds₁ (Function.update_self ..)
      rw [Function.update_idem] at hclosed
      rw [Function.comp_update]
      exact hclosed
    · rw [hkeep]
      exact hmapped' ▸ hmemory
    · rw [hkeep]
      exact hw.anonymous
  obtain ⟨⟨made, host₂⟩, hcreate, h⟩ := Option.bind_eq_some_iff.mp h
  have hmaps₂ := createCb_maps hrcb hcreate
  have hmemory₂ := maps_held hmaps₂ hmemory₁ (hnone .read)
  cases made with
  | none =>
    cases h
    refine hthrown hmaps₂.names hmaps₂.fds ?_
    change Held _ _ _ _ (Function.update (cbs w.objects) (i, .read) none) at hmemory₂
    rwa [Function.update_eq_self_iff.mpr (hnone .read).symm] at hmemory₂
  | some rcb =>
    obtain ⟨⟨made', host₃⟩, hcreate', h⟩ := Option.map_eq_some_iff.mp h
    have hmaps₃ := createCb_maps (hwcb rcb host₂ hcreate) hcreate'
    have hmemory₃ := maps_held hmaps₃ hmemory₂ (k := (i, .write)) (by simpa using hnone .write)
    cases made' with
    | none =>
      cases h
      obtain ⟨hnames, hfds⟩ := deleteCb_host host₃ hmaps₂.anonymous
      refine hthrown (hnames.trans (hmaps₃.names.trans hmaps₂.names))
        (hfds.trans (hmaps₃.fds.trans hmaps₂.fds)) ?_
      have hgone : Function.update (Function.update (cbs w.objects) (i, .read) rcb) (i, .write)
          none = Function.update (cbs w.objects) (i, .read) rcb :=
        Function.update_eq_self_iff.mpr (by simpa using (hnone .write).symm)
      change Held _ _ _ _ (Function.update (Function.update (cbs w.objects) (i, .read) rcb)
        (i, .write) none) at hmemory₃
      rw [hgone] at hmemory₃
      have hdeleted := deleteCb_held hmaps₂.anonymous hmemory₃ (Function.update_self ..)
      rwa [Function.update_idem, Function.update_eq_self_iff.mpr (hnone .read).symm] at hdeleted
    | some wcb =>
      cases h
      refine ⟨hmaps₃.names.trans (hmaps₂.names.trans (hnames₁.trans hw.names)), ?_, ?_, ?_⟩
      · have hsame : host.fds = (opens w.host sock).fds := hmaps₃.fds.trans hmaps₂.fds
        rw [Function.comp_update]
        simpa [hsame] using hfds₁
      · rw [cbs_update]
        exact hmemory₃
      · refine cbs_forall hw.anonymous fun side b hb => ?_
        cases side with
        | read => exact hmaps₂.anonymous b hb
        | write => exact hmaps₃.anonymous b hb

theorem destruct_balanced (hw : Balanced base w) (hc : w.objects i = some c) :
    Balanced base { host := destruct w.host c, objects := Function.update w.objects i none } := by
  have hcb (side : Side) : cbs w.objects (i, side) = c.cb side := by simp [cbs, hc]
  have hanonymous (side : Side) (b : Buffer) (hb : c.cb side = some b) : (destroy b).1 = none :=
    hw.anonymous (i, side) b ((hcb side).trans hb)
  obtain ⟨hnames, hfds⟩ := deleteCb_host w.host (hanonymous .write)
  obtain ⟨hnames', hfds'⟩ := deleteCb_host (deleteCb w.host c.wcb) (hanonymous .read)
  obtain ⟨hnames'', hmapped⟩ :=
    closeFd_host (deleteCb (deleteCb w.host c.wcb) c.rcb) c.fd
  refine ⟨?_, ?_, ?_, fun slot b hb => ?_⟩
  · exact hnames''.trans (hnames'.trans (hnames.trans hw.names))
  · rw [Function.comp_update]
    refine closeFd_held ?_ (by simp [hc])
    have hsame : (deleteCb (deleteCb w.host c.wcb) c.rcb).fds = w.host.fds := hfds'.trans hfds
    rw [hsame]
    exact hw.fds
  · have hheld := deleteCb_held (hanonymous .write) hw.memory (hcb .write)
    have hheld' := deleteCb_held (hanonymous .read) hheld (k := (i, .read))
      (by simpa using hcb .read)
    rw [cbs_update, Function.update_comm (by simp)]
    exact hmapped ▸ hheld'
  · exact cbs_forall hw.anonymous (by simp) slot b hb

theorem opens_fds (host : Host) (fd : Int) :
    (opens host fd).fds = if 0 ≤ fd then insert fd host.fds else host.fds := by
  unfold opens
  split <;> rfl

theorem closeFd_fds (host : Host) (fd : Int) :
    (closeFd host fd).fds = if 0 ≤ fd then host.fds.erase fd else host.fds := by
  unfold closeFd
  split <;> rfl

theorem deleteCb_mapped (host : Host) {cb : Option Buffer}
    (hanonymous : ∀ b, cb = some b → (destroy b).1 = none) (a : Nat) :
    (∃ b, cb = some b ∧ Covers b a) ∧ (deleteCb host cb).mapped a = none ∨
      (¬ ∃ b, cb = some b ∧ Covers b a) ∧ (deleteCb host cb).mapped a = host.mapped a := by
  cases cb with
  | none => exact .inr ⟨by simp, rfl⟩
  | some b =>
    rw [deleteCb, hanonymous b rfl]
    by_cases hin : Covers b a
    · exact .inl ⟨⟨b, rfl, hin⟩, if_pos hin⟩
    · refine .inr ⟨fun hsome => ?_, if_neg hin⟩
      obtain ⟨b', hb', hin'⟩ := hsome
      exact hin (Option.some.inj hb' ▸ hin')

theorem deleteCb_congr (hanonymous : ∀ b, cb = some b → (destroy b).1 = none)
    (hmapped : host'.mapped = host.mapped) :
    (deleteCb host' cb).mapped = (deleteCb host cb).mapped := by
  cases cb with
  | none => exact hmapped
  | some b =>
    rw [deleteCb, deleteCb, hanonymous b rfl]
    funext a
    simp only [destroy, Host.call, Host.unmap, hmapped]

/-- The rings may be destroyed in either order. -/
theorem deleteCb_comm (hanonymous : ∀ side b, c.cb side = some b → (destroy b).1 = none) :
    (deleteCb (deleteCb host c.rcb) c.wcb).mapped =
      (deleteCb (deleteCb host c.wcb) c.rcb).mapped := by
  funext a
  have hread (host : Host) := deleteCb_mapped host (hanonymous .read) a
  have hwrite (host : Host) := deleteCb_mapped host (hanonymous .write) a
  simp only [Object.cb] at hread hwrite
  obtain ⟨hin, h⟩ | ⟨hin, h⟩ := hread host <;> obtain ⟨hin', h'⟩ | ⟨hin', h'⟩ := hwrite host <;>
    obtain ⟨hin₂, h₂⟩ | ⟨hin₂, h₂⟩ := hread (deleteCb host c.wcb) <;>
    obtain ⟨hin₃, h₃⟩ | ⟨hin₃, h₃⟩ := hwrite (deleteCb host c.rcb) <;> simp_all

theorem destruct_host (host : Host)
    (hanonymous : ∀ side b, c.cb side = some b → (destroy b).1 = none) :
    (destruct host c).names = host.names ∧ (destruct host c).fds = (closeFd host c.fd).fds ∧
      (destruct host c).mapped = (deleteCb (deleteCb host c.wcb) c.rcb).mapped := by
  obtain ⟨hnames, hfds⟩ := deleteCb_host host (hanonymous .write)
  obtain ⟨hnames', hfds'⟩ := deleteCb_host (deleteCb host c.wcb) (hanonymous .read)
  obtain ⟨hnames'', hmapped⟩ := closeFd_host (deleteCb (deleteCb host c.wcb) c.rcb) c.fd
  refine ⟨hnames''.trans (hnames'.trans hnames), ?_, hmapped⟩
  have hsame : (deleteCb (deleteCb host c.wcb) c.rcb).fds = host.fds := hfds'.trans hfds
  rw [destruct, closeFd_fds, closeFd_fds, hsame]

theorem moveAssign_same (hanonymous : ∀ side b, c.cb side = some b → (destroy b).1 = none)
    (hdup : 0 ≤ c.fd → dup ≠ c.fd) :
    (moveConstruct (destruct host c) dup other).2.2.Same (moveAssign host dup c other).2.2 := by
  let fd := copyFd dup other.fd
  let closed := closeFd (opens host fd) c.fd
  obtain ⟨hnames, hfds, hmapped⟩ := destruct_host host hanonymous
  obtain ⟨hnames₁, hmapped₁⟩ := opens_host host fd
  obtain ⟨hnames₂, hmapped₂⟩ := closeFd_host (opens host fd) c.fd
  obtain ⟨hnames₃, hfds₃⟩ := deleteCb_host closed (hanonymous .read)
  obtain ⟨hnames₄, hfds₄⟩ := deleteCb_host (deleteCb closed c.rcb) (hanonymous .write)
  obtain ⟨hnames₅, hmapped₅⟩ := opens_host (destruct host c) fd
  have hmapped₃ : closed.mapped = host.mapped := hmapped₂.trans hmapped₁
  refine ⟨?_, ?_, ?_⟩
  · exact (hnames₄.trans (hnames₃.trans (hnames₂.trans hnames₁))).trans (hnames₅.trans hnames).symm
  · have hassign : (moveAssign host dup c other).2.2.fds = closed.fds := hfds₄.trans hfds₃
    have hmove : (moveConstruct (destruct host c) dup other).2.2 = opens (destruct host c) fd := rfl
    rw [hassign, hmove, closeFd_fds, opens_fds, opens_fds, hfds, closeFd_fds]
    by_cases hfd : 0 ≤ fd <;> by_cases hfd' : 0 ≤ c.fd <;> simp only [hfd, hfd', if_true, if_false]
    refine Finset.erase_insert_of_ne ?_
    have hdup' := hdup hfd'
    simp only [fd, copyFd] at hfd ⊢
    split
    · omega
    · exact hdup'
  · have hassign : (moveAssign host dup c other).2.2.mapped =
        (deleteCb (deleteCb host c.rcb) c.wcb).mapped :=
      deleteCb_congr (hanonymous .write) (deleteCb_congr (hanonymous .read) hmapped₃)
    rw [hassign, deleteCb_comm hanonymous, ← hmapped]
    exact hmapped₅.symm

omit [DecidableEq ι] in
theorem Balanced.same (hw : Balanced base w) (h : w.host.Same host) :
    Balanced base { host, objects := w.objects } := by
  refine ⟨h.names.trans hw.names, ?_, ?_, hw.anonymous⟩
  · simpa [h.fds] using hw.fds
  · simpa [h.mapped] using hw.memory

theorem assign_balanced (hw : Balanced base w) (hne : i ≠ j)
    (hc : w.objects i = some c) (hother : w.objects j = some other) (hnew : dup ∉ w.host.fds) :
    Balanced base
      { host := (moveAssign w.host dup c other).2.2
        objects := Function.update
          (Function.update w.objects j (some (moveAssign w.host dup c other).2.1)) i
          (some (moveAssign w.host dup c other).1) } := by
  have hanonymous (side : Side) (b : Buffer) (hb : c.cb side = some b) : (destroy b).1 = none :=
    hw.anonymous (i, side) b (by simpa [cbs, hc] using hb)
  have hdup (hfd : 0 ≤ c.fd) : dup ≠ c.fd := by
    intro heq
    obtain ⟨-, hopen⟩ := hw.fds.inside i c.fd c.fd (by simp [hc]) ⟨rfl, hfd⟩
    exact hopen (eq_false (heq ▸ hnew))
  have hgone : dup ∉ (destruct w.host c).fds := by
    rw [(destruct_host w.host hanonymous).2.1, closeFd_fds]
    split
    · exact fun hmem => hnew (Finset.mem_of_mem_erase hmem)
    · exact hnew
  have hother' : Function.update w.objects i none j = some other := by
    rwa [Function.update_of_ne hne.symm]
  have hmoved := move_balanced (destruct_balanced hw hc) (Function.update_self ..) hother' hgone
  have hobjects (v : Option Object) : Function.update (Function.update w.objects j v) i =
      Function.update (Function.update (Function.update w.objects i none) j v) i := by
    funext v'
    rw [Function.update_comm hne, Function.update_idem]
  rw [hobjects]
  exact hmoved.same (moveAssign_same hanonymous hdup)

theorem step_balanced (hw : Balanced base w) (h : Step w w') : Balanced base w' := by
  cases h with
  | constructs hfree hnew hrcb hwcb h => exact construct_balanced hw hfree hnew hrcb hwcb h
  | moves hfree hother hnew h =>
    cases h
    exact move_balanced hw hfree hother hnew
  | assigns hne hc hother hnew h =>
    cases h
    exact assign_balanced hw hne hc hother hnew
  | assignsSelf => exact hw
  | destructs hc => exact destruct_balanced hw hc

/-- In every run of a program that constructs, moves, assigns and destroys connections, whatever
calls fail: each descriptor and each mapped address beside those of the start belongs to exactly
one object, and when the last object is gone the host is as it was. -/
theorem run_balanced {base : Host} {w : World ι}
    (h : Relation.ReflTransGen Step { host := base, objects := fun _ => none } w) :
    Balanced base w ∧ ((∀ i, w.objects i = none) → base.Same w.host) := by
  have hw : Balanced base w := by
    induction h with
    | refl => exact ⟨rfl, held_nothing, held_nothing, by simp [cbs]⟩
    | tail _ hstep ih => exact step_balanced ih hstep
  refine ⟨hw, fun hnone => ⟨hw.names, ?_, hw.memory.eq_base fun slot => ?_⟩⟩
  · have hfds := hw.fds.eq_base fun i => by simp [hnone i]
    ext fd
    exact iff_of_eq (congrFun hfds fd)
  · simp [cbs, hnone]

end

theorem twoPages_sane : Sane twoPages (opens bareHost 3) 100 where
  documented :=
    { pageSize := by decide
      fds := by decide
      numbers := nofun
      shmOpen := nofun
      reserve := fun _ => ⟨by decide, by decide, fun _ _ _ => rfl⟩
      mapShared := .inr rfl
      mirror := .inr (by decide) }
  placed := fun _ => by decide
  aligned := fun _ => by decide
  fits := by decide

theorem movedConnection_balanced : ∃ w : World Nat,
    Relation.ReflTransGen Step { host := bareHost, objects := fun _ => none } w ∧
      bareHost.Same w.host := by
  let fresh : World Nat := { host := bareHost, objects := fun _ => none }
  have hconstruct := Step.constructs (w := fresh) (i := 0) rfl (by decide : (3 : Int) ∉ _)
    (fun _ => twoPages_sane) (fun _ _ _ hne => absurd rfl hne)
    (rfl : construct (opens bareHost 3) twoPages noSpace 3 100 0 = some (_, _))
  obtain ⟨w, c, hw, hc, hfree, hnew, hothers⟩ : ∃ w c, Step fresh w ∧ w.objects 0 = some c ∧
      w.objects 1 = none ∧ (4 : Int) ∉ w.host.fds ∧ ∀ i, 2 ≤ i → w.objects i = none :=
    ⟨_, _, hconstruct, rfl, rfl, by decide, fun i hi => Function.update_of_ne (by omega) _ _⟩
  have hmove := Step.moves hfree hc hnew (rfl : moveConstruct w.host 4 c = (_, _, _))
  have hrun := ((Relation.ReflTransGen.single hw).tail hmove).tail (.destructs (i := 0) rfl)
  have hrun' := hrun.tail (.destructs (i := 1) rfl)
  refine ⟨_, hrun', (run_balanced hrun').2 fun i => ?_⟩
  by_cases h0 : i = 0 <;> by_cases h1 : i = 1 <;> simp [h0, h1]
  exact hothers i (by omega)

end Flyzero.TcpConnection
