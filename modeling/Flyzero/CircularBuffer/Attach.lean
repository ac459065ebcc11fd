import Flyzero.CircularBuffer.Layout
import Flyzero.Lib.Runs

/-! `attach` to a buffer that another process is still creating. -/
namespace Flyzero.CircularBuffer

/-- `header` and `nread` are what `read` makes of the object behind the name. -/
def attach (out : Outcomes) (name : List UInt8) (nread : Int) (header : Header) : Result Word :=
  let shmfd := out.shmOpen
  if shmfd < 0 then some (none, [.shmOpen name shmfd])
  else
    (fattach out shmfd nread header).map fun
      | (res, calls) => (res, .shmOpen name shmfd :: calls ++ [.close shmfd])

def blank : Header :=
  { r := 0, w := 0, capacity := 0, privateSize := 0, pageMask := 0, flag := 0, name := [0] }

inductive Field where
  | r
  | w
  | capacity
  | privateSize
  | pageMask
  | flag
  | name
  deriving DecidableEq

def Field.put (src dst : Header) : Field → Header
  | .r => { dst with r := src.r }
  | .w => { dst with w := src.w }
  | .capacity => { dst with capacity := src.capacity }
  | .privateSize => { dst with privateSize := src.privateSize }
  | .pageMask => { dst with pageMask := src.pageMask }
  | .flag => { dst with flag := src.flag }
  | .name => { dst with name := src.name }

/-- The stores of `fcreate` to the header and the `strcpy` of `create`, each with a header that has
the value. -/
def creation (header : Header) : List (Field × Header) :=
  [(.r, header), (.w, header), (.name, blank), (.capacity, header), (.privateSize, header),
    (.pageMask, header), (.flag, header), (.name, header)]

/-- By ascending offset, as `read` copies them. -/
def Field.all : List Field := [.r, .w, .capacity, .privateSize, .pageMask, .flag, .name]

/-- The object, what the creator has still to store there, the copy that the attaching process is
making, and what it has still to load. -/
structure Race where
  file : Header
  stores : List (Field × Header)
  copy : Header
  loads : List Field

/-- After `ftruncate`; the copy is a variable without a value. -/
def race (header copy : Header) : Race :=
  { file := blank, stores := creation header, copy, loads := Field.all }

inductive Turn where
  | store
  | load

def turn (s : Race) : Turn → Option Race
  | .store =>
    match s.stores with
    | [] => none
    | (f, src) :: stores => some { s with file := f.put src s.file, stores }
  | .load =>
    match s.loads with
    | [] => none
    | f :: loads => some { s with copy := f.put s.file s.copy, loads }

/-- An attaching process that has this copy of the header of a buffer aborts, or has the null
pointer, or has just what it would have of the finished buffer. -/
def AsFinished (pageSize : Word) (header copy : Header) : Prop :=
  ∀ out name nread, out.pageSize = pageSize →
    attach out name nread copy = none ∨ (∃ calls, attach out name nread copy = some (none, calls)) ∨
      attach out name nread copy = attach out name nread header

def Field.Same (a b : Header) : Field → Prop
  | .r => a.r = b.r
  | .w => a.w = b.w
  | .capacity => a.capacity = b.capacity
  | .privateSize => a.privateSize = b.privateSize
  | .pageMask => a.pageMask = b.pageMask
  | .flag => a.flag = b.flag
  | .name => a.name = b.name

section
variable {a b c header : Header} {f g : Field}

theorem Field.same_put : f.Same (f.put a b) a := by
  cases f <;> rfl

theorem Field.same_put_of_ne (h : f ≠ g) : f.Same (g.put c b) a ↔ f.Same b a := by
  cases f <;> cases g <;> first | exact Iff.rfl | exact absurd rfl h

theorem Field.Same.trans (h : f.Same a b) (h' : f.Same b c) : f.Same a c := by
  cases f <;> exact Eq.trans h h'

def Mixed (header h : Header) (f : Field) : Prop := f.Same h blank ∨ f.Same h header

theorem mixed_put (ha : Mixed header a f) : Mixed header (f.put a b) f := by
  cases ha with
  | inl hblank => exact .inl (Field.same_put.trans hblank)
  | inr hheader => exact .inr (Field.same_put.trans hheader)

theorem mixed_put_of_ne (h : f ≠ g) : Mixed header (g.put a b) f ↔ Mixed header b f := by
  rw [Mixed, Field.same_put_of_ne h, Field.same_put_of_ne h, Mixed]

end

structure Race.Inv (header : Header) (s : Race) : Prop where
  file : ∀ f, Mixed header s.file f
  stores : ∀ p ∈ s.stores, Mixed header p.2 p.1
  copy : ∀ f, f ∈ s.loads ∨ Mixed header s.copy f

theorem turn_inv (header : Header) (s : Race) (e : Turn) (t : Race) (hstep : turn s e = some t)
    (h : s.Inv header) : t.Inv header := by
  obtain ⟨hfile, hstores, hcopy⟩ := h
  cases e with
  | store =>
    cases hs : s.stores with
    | nil => simp [turn, hs] at hstep
    | cons p stores =>
      rw [hs] at hstores
      obtain ⟨hp, hrest⟩ := List.forall_mem_cons.mp hstores
      simp only [turn, hs, Option.some.injEq] at hstep
      subst hstep
      refine ⟨fun f => ?_, hrest, hcopy⟩
      by_cases hf : f = p.1
      · subst hf
        exact mixed_put hp
      · exact (mixed_put_of_ne hf).mpr (hfile f)
  | load =>
    cases hs : s.loads with
    | nil => simp [turn, hs] at hstep
    | cons g loads =>
      simp only [turn, hs, Option.some.injEq] at hstep
      subst hstep
      refine ⟨hfile, hstores, fun f => ?_⟩
      by_cases hf : f = g
      · subst hf
        exact .inr (mixed_put (hfile f))
      · have hold := hcopy f
        rw [hs, List.mem_cons, or_iff_right hf] at hold
        rwa [mixed_put_of_ne hf]

theorem race_inv (header copy : Header) : (race header copy).Inv header where
  file f := .inl (by cases f <;> rfl)
  stores := by
    simp [race, creation, Mixed, Field.Same]
  copy f := .inl (by cases f <;> simp [race, Field.all])

theorem Race.Inv.copied {header : Header} {s : Race} (h : s.Inv header) (hdone : s.loads = []) :
    (s.copy.capacity = 0 ∨ s.copy.capacity = header.capacity) ∧
      (s.copy.privateSize = 0 ∨ s.copy.privateSize = header.privateSize) ∧
      (s.copy.pageMask = 0 ∨ s.copy.pageMask = header.pageMask) := by
  have hmixed (f : Field) : Mixed header s.copy f := by
    simpa [hdone] using h.copy f
  exact ⟨hmixed .capacity, hmixed .privateSize, hmixed .pageMask⟩

section
variable {out : Outcomes} {shmfd : Int} {headSize capacity addr : Word} {calls : List SysCall}
  {k : Nat}

theorem mapSharedMemory_mirror
    (h : mapSharedMemory out shmfd headSize capacity = some (some addr, calls)) :
    out.mirror = addr + (capacity + headSize) := by
  unfold mapSharedMemory at h
  dsimp only at h
  split at h
  · cases h
  · split at h
    · cases h
    · split at h
      · cases h
      · split at h
        · cases h
        · rename_i hmirror
          cases h
          exact not_not.mp hmirror

theorem not_aborts (h : mapSharedMemory out shmfd headSize capacity = some (some addr, calls)) :
    ¬ Aborts out headSize capacity := by
  intro habort
  rw [mapSharedMemory_aborts habort] at h
  cases h

theorem mapSharedMemory_maps (h : ¬ Aborts out headSize capacity) (hreserve : out.reserve ≠ 0)
    (hshared : out.mapShared = out.reserve)
    (hmirror : out.mirror = out.reserve + (capacity + headSize)) :
    ∃ calls, mapSharedMemory out shmfd headSize capacity = some (some out.reserve, calls) := by
  unfold Aborts at h
  rw [mapSharedMemory, if_neg h]
  dsimp only
  rw [if_neg hreserve, if_neg (not_not.mpr hshared), if_neg (not_not.mpr hmirror)]
  exact ⟨_, rfl⟩

theorem headSize_eq_iff (hpage : out.pageSize.toNat = 2 ^ k)
    (hlarge : sizeofHeader.toNat ≤ out.pageSize.toNat) {privateSize : Word}
    (hne : out.headSize privateSize ≠ 0) :
    out.headSize privateSize = out.headSize 0 ↔
      (sizeofHeader + privateSize).toNat ≤ out.pageSize.toNat := by
  have hzero : out.headSize 0 = out.pageSize := by
    refine (Window.roundUp_eq_iff hpage _).mpr ⟨by decide, ?_⟩
    simpa using hlarge
  rw [hzero]
  exact (Window.roundUp_eq_iff hpage _).trans (and_iff_right (headSize_spec hpage hne).1)

/-- Without a mask the size is not rounded: it is whole pages, or the assertion fails. -/
theorem mapSharedMemory_unmasked {out' : Outcomes} (hpage : out.pageSize.toNat = 2 ^ k)
    (hsame : out'.pageSize = out.pageSize) (privateSize : Word) :
    mapSharedMemory out' shmfd (alignedHeaderSize privateSize 0) capacity = none ∨
      alignedHeaderSize privateSize 0 = out.headSize privateSize := by
  have hsize : alignedHeaderSize privateSize 0 = sizeofHeader + privateSize := by
    have hnot : ~~~(0 : Word) = BitVec.allOnes 64 := rfl
    rw [alignedHeaderSize, hnot, BitVec.and_allOnes]
    exact BitVec.add_zero _
  by_cases haligned : (sizeofHeader + privateSize) &&& (out.pageSize - 1) = 0
  · right
    rw [hsize]
    exact (Window.roundUp_of_aligned hpage haligned).symm
  · left
    apply mapSharedMemory_aborts
    rw [Aborts, hsame, hsize]
    exact .inr (.inr (.inl haligned))

end

def stalePrivateSize : List Turn :=
  [.store, .store, .store, .store, .load, .load, .load, .load, .store, .store, .load, .load, .load]

theorem stalePrivateSize_run (header copy : Header) :
    ∃ s, Runs.exec turn (race header copy) stalePrivateSize = some s ∧ s.loads = [] ∧
      s.copy.capacity = header.capacity ∧ s.copy.privateSize = 0 ∧
      s.copy.pageMask = header.pageMask := by
  simp [Runs.exec, stalePrivateSize, turn, race, creation, Field.all, Field.put, blank]

structure Creating (out : Outcomes) (k : Nat) (privateSize : Word) (header : Header) : Prop where
  page : out.pageSize.toNat = 2 ^ k
  large : sizeofHeader.toNat ≤ out.pageSize.toNat
  privateSize_eq : header.privateSize = privateSize
  pageMask_eq : header.pageMask = out.pageSize - 1
  asserted : ¬ Aborts out (out.headSize privateSize) header.capacity

namespace Creating
variable {out : Outcomes} {k : Nat} {privateSize : Word} {header copy : Header}

theorem headSize_ne (h : Creating out k privateSize header) : out.headSize privateSize ≠ 0 := by
  intro hzero
  exact h.asserted (.inl hzero)

theorem asFinished (h : Creating out k privateSize header)
    (hfits : out.headSize privateSize = out.headSize 0) {s : Race} (hs : s.Inv header)
    (hdone : s.loads = []) : AsFinished out.pageSize header s.copy := by
  obtain ⟨hcapacity, hprivate, hmask⟩ := hs.copied hdone
  intro out' name nread hsame
  -- both values of `private_size` make one size of the header
  have hboth : out.headSize s.copy.privateSize = out.headSize privateSize := by
    cases hprivate with
    | inl hzero => rw [hzero, hfits]
    | inr heq => rw [heq, h.privateSize_eq]
  have hmap (shmfd : Int) :
      mapSharedMemory out' shmfd (alignedHeaderSize s.copy.privateSize s.copy.pageMask)
        s.copy.capacity = none ∨
      mapSharedMemory out' shmfd (alignedHeaderSize s.copy.privateSize s.copy.pageMask)
        s.copy.capacity = mapSharedMemory out' shmfd
          (alignedHeaderSize header.privateSize header.pageMask) header.capacity := by
    cases hcapacity with
    | inl hzero =>
      left
      apply mapSharedMemory_aborts
      exact .inr (.inl hzero)
    | inr heq =>
      rw [heq, h.privateSize_eq, h.pageMask_eq]
      cases hmask with
      | inl hzero =>
        rw [hzero]
        refine (mapSharedMemory_unmasked h.page hsame s.copy.privateSize).imp_right ?_
        intro hsize
        rw [hsize, hboth, Outcomes.headSize]
      | inr hstored =>
        right
        rw [hstored, h.pageMask_eq]
        rw [Outcomes.headSize, Outcomes.headSize] at hboth
        rw [hboth]
  unfold attach
  dsimp only
  split
  · exact .inr (.inr rfl)
  · rename_i hopen
    unfold fattach
    rw [if_neg hopen, if_neg hopen]
    split
    · cases hmap out'.shmOpen with
      | inl habort => left; rw [habort]; rfl
      | inr heq => right; right; rw [heq]
    · exact .inr (.inl ⟨_, rfl⟩)

theorem headSize_eq (h : Creating out k privateSize header)
    (hcopy : AsFinished out.pageSize header copy) (hcapacity : copy.capacity = header.capacity)
    (hprivate : copy.privateSize = 0) (hmask : copy.pageMask = header.pageMask) :
    out.headSize privateSize = out.headSize 0 := by
  obtain ⟨hhead, hcap, haligned, hcapAligned⟩ : out.headSize privateSize ≠ 0 ∧
      header.capacity ≠ 0 ∧ out.headSize privateSize &&& (out.pageSize - 1) = 0 ∧
      header.capacity &&& (out.pageSize - 1) = 0 := by
    simpa [Aborts, not_or] using h.asserted
  have hpageHead : out.headSize 0 = out.pageSize := by
    refine (Window.roundUp_eq_iff h.page _).mpr ⟨by decide, ?_⟩
    simpa using h.large
  -- all calls succeed for the size that the copy tells
  obtain ⟨out', hsame, hopen, hreserve, hshared, hmirror⟩ : ∃ out' : Outcomes,
      out'.pageSize = out.pageSize ∧ out'.shmOpen = 3 ∧ out'.reserve = 1 ∧
        out'.mapShared = out'.reserve ∧
        out'.mirror = out'.reserve + (header.capacity + out.headSize 0) :=
    ⟨{ pageSize := out.pageSize, shmOpen := 3, ftruncate := 0, reserve := 1, mapShared := 1,
       mirror := 1 + (header.capacity + out.headSize 0) }, rfl, rfl, rfl, rfl, rfl⟩
  have hassert : ¬ Aborts out' (out.headSize 0) header.capacity := by
    have hwhole : out.headSize 0 &&& (out.pageSize - 1) = 0 := by
      refine (Window.and_mask_eq_zero_iff h.page _).mpr ?_
      rw [hpageHead, h.page, Nat.mod_self]
    have hne : out.headSize 0 ≠ 0 := by
      intro hzero
      have hlarge := h.large
      rw [← hpageHead, hzero] at hlarge
      exact absurd hlarge (by decide)
    have hall := And.intro hne (And.intro hcap (And.intro hwhole hcapAligned))
    simpa [Aborts, not_or, hsame] using hall
  have hopened : ¬ out'.shmOpen < 0 := by rw [hopen]; decide
  have hnull : out'.reserve ≠ 0 := by rw [hreserve]; decide
  have hmap (shmfd : Int) : ∃ calls, mapSharedMemory out' shmfd (out.headSize 0) header.capacity =
      some (some out'.reserve, calls) :=
    mapSharedMemory_maps hassert hnull hshared hmirror
  obtain ⟨calls, hmaps⟩ := hmap out'.shmOpen
  have hcopied : fattach out' out'.shmOpen sizeofHeader.toNat copy =
      some (some out'.reserve, calls) := by
    rw [fattach, if_neg hopened, if_pos rfl, hprivate, hmask, h.pageMask_eq, hcapacity]
    exact hmaps
  have hattach : attach out' [] sizeofHeader.toNat copy = some (some out'.reserve,
      .shmOpen [] out'.shmOpen :: calls ++ [.close out'.shmOpen]) := by
    rw [attach, if_neg hopened, hcopied]
    rfl
  obtain hnone | ⟨calls', hnull⟩ | hequal := hcopy out' [] sizeofHeader.toNat hsame
  · cases hattach.symm.trans hnone
  · cases hattach.symm.trans hnull
  · rw [hattach, attach, if_neg hopened] at hequal
    obtain ⟨⟨res, calls'⟩, hf, hres⟩ := Option.map_eq_some_iff.mp hequal.symm
    obtain ⟨rfl, -⟩ := Prod.mk.inj hres
    rw [fattach, if_neg hopened, if_pos rfl] at hf
    have hfinished := mapSharedMemory_mirror hf
    rw [hmirror, h.privateSize_eq, h.pageMask_eq, BitVec.add_right_inj,
      BitVec.add_right_inj] at hfinished
    exact hfinished.symm

end Creating

theorem create_creating {out : Outcomes} {name : Option (List UInt8)}
    {capacity privateSize addr : Word} {flag : BitVec 32} {header : Header} {calls : List SysCall}
    {k : Nat} (hpage : out.pageSize.toNat = 2 ^ k)
    (hlarge : sizeofHeader.toNat ≤ out.pageSize.toNat)
    (h : create out name capacity privateSize flag = some (some (addr, header), calls)) :
    Creating out k privateSize header := by
  obtain ⟨shmfd, header₀, calls₀, hf, rfl⟩ := create_some h
  obtain ⟨rfl, calls₁, hmap⟩ := fcreate_some hf
  exact ⟨hpage, hlarge, rfl, rfl, not_aborts hmap⟩

/-- A process may attach to a buffer at any moment of its creation if and only if the header and
the private data fit into one page. -/
theorem attach_race_iff {out : Outcomes} {name : List UInt8} {capacity privateSize addr : Word}
    {flag : BitVec 32} {header : Header} {calls : List SysCall} {k : Nat}
    (hpage : out.pageSize.toNat = 2 ^ k) (hlarge : sizeofHeader.toNat ≤ out.pageSize.toNat)
    (h : create out (some name) capacity privateSize flag = some (some (addr, header), calls)) :
    (∀ copy s, Runs.Reachable turn (race header copy) s → s.loads = [] →
        AsFinished out.pageSize header s.copy) ↔
      (sizeofHeader + privateSize).toNat ≤ out.pageSize.toNat := by
  have hcreating := create_creating hpage hlarge h
  rw [← headSize_eq_iff hpage hlarge hcreating.headSize_ne]
  constructor
  · intro hall
    obtain ⟨s, hrun, hdone, hcapacity, hprivate, hmask⟩ := stalePrivateSize_run header blank
    exact hcreating.headSize_eq (hall blank s ⟨_, hrun⟩ hdone) hcapacity hprivate hmask
  · intro hfits copy s hs hdone
    have hinv := hs.invariant (race_inv header copy) (turn_inv header)
    exact hcreating.asFinished hfits hinv hdone

def threePages : Outcomes := { twoPages with mirror := 77824 }

theorem twoPages_race :
    (∃ addr header calls, create twoPages (some [47, 98]) 100 16 0 =
        some (some (addr, header), calls) ∧
      ∀ copy s, Runs.Reachable turn (race header copy) s → s.loads = [] →
        AsFinished twoPages.pageSize header s.copy) ∧
    ∃ addr header calls, create threePages (some [47, 98]) 100 4096 0 =
        some (some (addr, header), calls) ∧
      ¬ ∀ copy s, Runs.Reachable turn (race header copy) s → s.loads = [] →
        AsFinished threePages.pageSize header s.copy := by
  obtain ⟨addr, header, calls, h⟩ : ∃ addr header calls,
      create twoPages (some [47, 98]) 100 16 0 = some (some (addr, header), calls) :=
    ⟨_, _, _, rfl⟩
  obtain ⟨addr', header', calls', h'⟩ : ∃ addr header calls,
      create threePages (some [47, 98]) 100 4096 0 = some (some (addr, header), calls) :=
    ⟨_, _, _, rfl⟩
  have hpage : twoPages.pageSize.toNat = 2 ^ 12 := rfl
  have hpage' : threePages.pageSize.toNat = 2 ^ 12 := rfl
  refine ⟨⟨addr, header, calls, h, (attach_race_iff hpage (by decide) h).mpr (by decide)⟩,
    addr', header', calls', h', fun hrace => ?_⟩
  exact absurd ((attach_race_iff hpage' (by decide) h').mp hrace) (by decide)

end Flyzero.CircularBuffer
