import Flyzero.Mempool.Disjoint

/-! The size class a request is given, and whether it can hold the request. -/
namespace Flyzero.Mempool
open ByteMem

section Arithmetic
variable {n size : BitVec 64} {i : Fin 29}

theorem not_seven_getElem (j : Fin 64) : (~~~7#64)[j.val] = decide (3 ≤ j.val) := by
  revert j
  decide

theorem and_not_seven (x : BitVec 64) : (x &&& ~~~7#64).toNat = x.toNat / 8 * 8 := by
  have hshift : x &&& ~~~7#64 = (x >>> 3) <<< 3 := by
    ext j hj
    have hbit := not_seven_getElem ⟨j, hj⟩
    rw [BitVec.getElem_and, hbit]
    rcases Nat.lt_or_ge j 3 with hlt | hge
    · simp [hlt]
    · simp [hge, Nat.not_lt.mpr hge, BitVec.getLsbD_eq_getElem hj]
  rw [hshift, BitVec.toNat_shiftLeft, BitVec.toNat_ushiftRight, Nat.shiftRight_eq_div_pow,
    Nat.shiftLeft_eq, Nat.mod_eq_of_lt]
  have hlt := x.isLt
  omega

/-- The rounding wraps around for the last seven requests. -/
theorem align8_toNat (n : BitVec 64) :
    (align8 n).toNat = if n.toNat ≤ 2 ^ 64 - 8 then (n.toNat + 7) / 8 * 8 else 0 := by
  have hlt := n.isLt
  rw [align8, and_not_seven, BitVec.toNat_add]
  have hseven : (7#64).toNat = 7 := rfl
  rw [hseven]
  split
  · rw [Nat.mod_eq_of_lt (by omega)]
  · omega

/-- The bound of the last class has wrapped around and is no power of two. -/
theorem classBound (i : Fin 29) : ((8#32 <<< i.val).signExtend 64).toNat =
    if i = 28 then 2 ^ 64 - 2 ^ 31 else 2 ^ (i.val + 3) := by
  revert i
  decide

theorem create_blockSize (self beg end_ : Nat) (i : Fin 29) :
    ((Pool.create self beg end_).managers i).blockSize.toNat = 2 ^ (i.val + 3) := by
  have hsize (i : Fin 29) : ((8#64 <<< i.val).truncate 32).toNat = 2 ^ (i.val + 3) := by
    revert i
    decide
  exact hsize i

theorem findBlockManager_bound (h : findBlockManager size = some i) :
    size.toNat < if i = 28 then 2 ^ 64 - 2 ^ 31 else 2 ^ (i.val + 3) := by
  rw [← classBound]
  have hbound := List.find?_some h
  exact of_decide_eq_true hbound

theorem findBlockManager_none (h : findBlockManager size = none) :
    2 ^ 64 - 2 ^ 31 ≤ size.toNat := by
  have hlast := List.find?_eq_none.mp h 28 (List.mem_finRange 28)
  have hbound := classBound 28
  rw [if_pos rfl] at hbound
  rw [← hbound]
  simpa [BitVec.lt_def] using hlast

theorem findBlockManager_fits (h : findBlockManager size = some i) (hle : size.toNat ≤ 2 ^ 31) :
    size.toNat ≤ 2 ^ (i.val + 3) := by
  have hbound := findBlockManager_bound h
  by_cases hi : i = 28
  · rw [hi]
    exact hle
  · rw [if_neg hi] at hbound
    omega

theorem findBlockManager_last (h : findBlockManager size = some i) (hlt : 2 ^ 30 ≤ size.toNat) :
    i = 28 := by
  by_contra hi
  have hbound := findBlockManager_bound h
  rw [if_neg hi] at hbound
  have hpow : 2 ^ (i.val + 3) ≤ 2 ^ 30 := Nat.pow_le_pow_right (by decide) (by omega)
  omega

end Arithmetic

/-- `alloc` returns null or a block of at least `n` usable bytes, and null for more bytes than any
class has. -/
structure AllocFits (s : State) (n : BitVec 64) : Prop where
  fits : ∀ ptr pool mem, s.pool.alloc s.mem n = some (ptr, pool, mem) → ptr ≠ 0 →
    ∃ i, pool.managerAt (mgr mem (ptr - 32)) = some i ∧
      n.toNat ≤ (pool.managers i).blockSize.toNat
  null : (∀ i, s.blockSize i < n.toNat) → ∃ pool mem, s.pool.alloc s.mem n = some (0, pool, mem)

namespace State

def Exhausted (s : State) (i : Fin 29) : Prop :=
  (s.pool.managers i).freeList.head = 0 ∧ s.pool.freeSize < s.implSize i

end State

section
variable {obj beg end_ : Nat} {s : State} {L : Fin 29 → Kind → List Nat} {n : BitVec 64}
  {i : Fin 29}

theorem Intact.blockSize_toNat (h : Intact obj beg end_ s L) (i : Fin 29) :
    s.blockSize i = 2 ^ (i.val + 3) := by
  rw [State.blockSize, h.pool.blockSize i, create_blockSize]

theorem Intact.managerAt (h : Intact obj beg end_ s L) {ptr : Nat} (hlive : (ptr, i) ∈ s.live) :
    s.pool.managerAt (mgr s.mem (ptr - 32)) = some i := by
  obtain ⟨block, hblock, rfl⟩ := (h.live ptr i).mp hlive
  exact (h.intact _ (h.lists.mem_carved hblock)).named

theorem alloc_exhausted (hfind : findBlockManager (align8 n) = some i) (hex : s.Exhausted i) :
    s.pool.alloc s.mem n = some (0, s.pool, s.mem) := by
  rw [Pool.alloc, hfind]
  dsimp only
  rw [if_pos hex.1, Pool.allocNew]
  exact congrArg some (if_neg (Nat.not_le.mpr hex.2))

theorem alloc_not_exhausted (hplaced : Placed obj beg end_) (h : Intact obj beg end_ s L)
    (hfind : findBlockManager (align8 n) = some i) (hroom : ¬ s.Exhausted i) :
    ∃ ptr pool mem, s.pool.alloc s.mem n = some (ptr, pool, mem) ∧ ptr ≠ 0 := by
  rw [Pool.alloc, hfind]
  dsimp only
  by_cases hhead : (s.pool.managers i).freeList.head = 0
  · have hsize : s.implSize i ≤ s.pool.freeSize := Nat.not_lt.mp fun hlt => hroom ⟨hhead, hlt⟩
    obtain ⟨ptr, pool, mem, -, hcall, hptr, -⟩ := h.allocNew hplaced hsize
    rw [if_pos hhead, hcall]
    exact ⟨ptr, pool, mem, rfl, hptr⟩
  · obtain ⟨ptr, pool, mem, -, hcall, hptr, -⟩ := h.allocExist hplaced hhead
    rw [if_neg hhead, hcall]
    exact ⟨ptr, pool, mem, rfl, hptr⟩

theorem allocFits_none (hfind : findBlockManager (align8 n) = none) : AllocFits s n := by
  have hcall : s.pool.alloc s.mem n = some (0, s.pool, s.mem) := by rw [Pool.alloc, hfind]
  constructor
  · intro ptr pool mem hcall' hptr
    cases hcall.symm.trans hcall'
    exact absurd rfl hptr
  · exact fun _ => ⟨_, _, hcall⟩

/-- A request that is given a class is served well when the class holds it or is exhausted. -/
theorem Intact.allocFits_some (hplaced : Placed obj beg end_) (h : Intact obj beg end_ s L)
    (hfind : findBlockManager (align8 n) = some i) :
    AllocFits s n ↔ n.toNat ≤ 2 ^ (i.val + 3) ∨ s.Exhausted i := by
  by_cases hex : s.Exhausted i
  · have hcall := alloc_exhausted hfind hex
    refine iff_of_true ⟨?_, fun _ => ⟨_, _, hcall⟩⟩ (.inr hex)
    intro ptr pool mem hcall' hptr
    cases hcall.symm.trans hcall'
    exact absurd rfl hptr
  · obtain ⟨ptr, pool, mem, hcall, hptr⟩ := alloc_not_exhausted hplaced h hfind hex
    rcases h.alloc hplaced n with hnull | ⟨ptr', pool', mem', j, L', hcall', -, hfind', h'⟩
    · cases hcall.symm.trans hnull
      exact absurd rfl hptr
    · cases hcall.symm.trans hcall'
      obtain rfl : i = j := Option.some.inj (hfind.symm.trans hfind')
      have hnamed := h'.managerAt List.mem_cons_self
      have hsize : (pool.managers i).blockSize.toNat = 2 ^ (i.val + 3) := h'.blockSize_toNat i
      rw [or_iff_left hex]
      constructor
      · intro hfits
        obtain ⟨k, hk, hle⟩ := hfits.fits ptr pool mem hcall hptr
        obtain rfl : i = k := Option.some.inj (hnamed.symm.trans hk)
        rwa [hsize] at hle
      · intro hle
        refine ⟨fun ptr' pool' mem' hcall' _ => ?_, fun hall => ?_⟩
        · cases hcall.symm.trans hcall'
          exact ⟨i, hnamed, by rwa [hsize]⟩
        · have hlt := hall i
          rw [h.blockSize_toNat] at hlt
          omega

end

/-- Requests between 2 GiB and the wrapped bound of the last class are given its blocks, and the
last seven are given blocks of 8 bytes. -/
theorem alloc_fits_iff {obj beg end_ : Nat} (hplaced : Placed obj beg end_) {mem : Mem} {s : State}
    (hreach : Runs.Reachable State.step (.start obj beg end_ mem) s) (n : BitVec 64) :
    AllocFits s n ↔ n.toNat ≤ 2 ^ 31 ∨
      2 ^ 64 - 2 ^ 31 - 8 < n.toNat ∧ n.toNat ≤ 2 ^ 64 - 8 ∨
      s.Exhausted (if n.toNat ≤ 2 ^ 64 - 8 then 28 else 0) := by
  obtain ⟨L, h⟩ := hreach.invariant ⟨_, start_intact hplaced mem⟩ (step_intact hplaced)
  have halign := align8_toNat n
  by_cases hwrap : n.toNat ≤ 2 ^ 64 - 8
  · rw [if_pos hwrap] at halign ⊢
    cases hfind : findBlockManager (align8 n) with
    | none =>
      have hbound := findBlockManager_none hfind
      exact iff_of_true (allocFits_none hfind) (.inr (.inl ⟨by omega, hwrap⟩))
    | some i =>
      rw [h.allocFits_some hplaced hfind]
      have hbound := findBlockManager_bound hfind
      by_cases hsmall : n.toNat ≤ 2 ^ 31
      · have hfits := findBlockManager_fits hfind (by omega)
        exact iff_of_true (.inl (by omega)) (.inl hsmall)
      · obtain rfl := findBlockManager_last hfind (by omega)
        rw [if_pos rfl] at hbound
        have hlarge : ¬ n.toNat ≤ 2 ^ ((28 : Fin 29).val + 3) := hsmall
        have hmiddle : ¬ (2 ^ 64 - 2 ^ 31 - 8 < n.toNat ∧ n.toNat ≤ 2 ^ 64 - 8) := by omega
        rw [or_iff_right hlarge, or_iff_right hsmall, or_iff_right hmiddle]
  · rw [if_neg hwrap] at halign ⊢
    have hzero : align8 n = 0#64 := BitVec.eq_of_toNat_eq halign
    have hfind : findBlockManager (align8 n) = some 0 := by
      rw [hzero]
      decide
    have hlarge : ¬ n.toNat ≤ 2 ^ ((0 : Fin 29).val + 3) := fun hle =>
      hwrap (Nat.le_trans hle (by decide))
    have hsmall : ¬ n.toNat ≤ 2 ^ 31 := by omega
    have hmiddle : ¬ (2 ^ 64 - 2 ^ 31 - 8 < n.toNat ∧ n.toNat ≤ 2 ^ 64 - 8) := fun hc => hwrap hc.2
    rw [h.allocFits_some hplaced hfind, or_iff_right hlarge, or_iff_right hsmall,
      or_iff_right hmiddle]

theorem alloc_fits_twelve : AllocFits (.start 64 4096 8192 fun _ => 0) 12 :=
  (alloc_fits_iff ⟨by decide, by decide, by decide, by decide⟩ ⟨[], rfl⟩ 12).mpr
    (.inl (by decide))

theorem alloc_misfits : ∃ pool mem,
    Pool.alloc (.create 64 4096 8192) (fun _ => 0) (-1#64) = some (4128, pool, mem) ∧
    pool.managerAt (mgr mem 4096) = some 0 ∧ (pool.managers 0).blockSize = 8 ∧
    ¬ AllocFits (.start 64 4096 8192 fun _ => 0) (-1#64) := by
  obtain ⟨pool, mem, hcall, hnamed, hsize⟩ : ∃ pool mem,
      Pool.alloc (.create 64 4096 8192) (fun _ => 0) (-1#64) = some (4128, pool, mem) ∧
        pool.managerAt (mgr mem 4096) = some 0 ∧ (pool.managers 0).blockSize = 8 :=
    ⟨_, _, rfl, rfl, rfl⟩
  refine ⟨pool, mem, hcall, hnamed, hsize, fun h => ?_⟩
  obtain ⟨i, hi, hle⟩ := h.fits _ _ _ hcall (by decide)
  obtain rfl : 0 = i := Option.some.inj (hnamed.symm.trans hi)
  rw [hsize] at hle
  revert hle
  decide

def classLimit (i : Fin 29) : Nat := if i = 28 then 2 ^ 64 - 2 ^ 31 else 2 ^ (i.val + 3)

theorem findBlockManager_eq_some {size : BitVec 64} {i : Fin 29} :
    findBlockManager size = some i ↔
      size.toNat < classLimit i ∧ ∀ j < i, classLimit j ≤ size.toNat := by
  have hlimit (j : Fin 29) : ((8#32 <<< j.val).signExtend 64 > size) ↔
      size.toNat < classLimit j := by
    rw [gt_iff_lt, BitVec.lt_def, classBound, classLimit]
  rw [findBlockManager, List.find?_eq_some_iff_getElem]
  simp only [hlimit, List.getElem_finRange, decide_eq_true_iff, Bool.not_eq_true',
    decide_eq_false_iff_not, Nat.not_lt]
  constructor
  · rintro ⟨hlt, k, hk, rfl, hbefore⟩
    exact ⟨hlt, fun j hj => hbefore j.val hj⟩
  · rintro ⟨hlt, hbefore⟩
    exact ⟨hlt, i.val, by simp, rfl, fun j hj => hbefore ⟨j, by omega⟩ hj⟩

def roundUp (n : BitVec 64) : Nat := (n.toNat + 7) / 8 * 8

def State.LeastClass (s : State) (n : BitVec 64) (c : Fin 29) : Prop :=
  IsLeast (fun i => roundUp n ≤ s.blockSize i) c

/-- Null is returned only if the class is exhausted, and a block is one of the class. -/
def AllocTight (s : State) (n : BitVec 64) (c : Fin 29) : Prop :=
  ∃ ptr pool mem, s.pool.alloc s.mem n = some (ptr, pool, mem) ∧ (ptr = 0 → s.Exhausted c) ∧
    (ptr ≠ 0 → pool.managerAt (mgr mem (ptr - 32)) = some c)

section
variable {obj beg end_ : Nat} {s : State} {L : Fin 29 → Kind → List Nat} {n : BitVec 64}
  {c i : Fin 29}

theorem Intact.leastClass (h : Intact obj beg end_ s L) (hc : s.LeastClass n c) :
    roundUp n ≤ 2 ^ (c.val + 3) ∧ ∀ j < c, 2 ^ (j.val + 3) < roundUp n := by
  obtain ⟨hle, hleast⟩ := hc
  refine ⟨h.blockSize_toNat c ▸ hle, fun j hj => Nat.not_le.mp fun hj' => ?_⟩
  have hmem : roundUp n ≤ s.blockSize j := by rwa [h.blockSize_toNat]
  exact absurd (hleast hmem) (Fin.not_le.mpr hj)

theorem align8_roundUp (h : roundUp n ≤ 2 ^ 31) : (align8 n).toNat = roundUp n := by
  unfold roundUp at h ⊢
  rw [align8_toNat, if_pos (by omega)]

theorem class_pow_le (c : Fin 29) : 2 ^ (c.val + 3) ≤ 2 ^ 31 :=
  Nat.pow_le_pow_right (by decide) (by omega)

/-- A request that is exactly of a class's size is sent to the next class. -/
theorem find_next (hlast : c ≠ 28) (heq : roundUp n = 2 ^ (c.val + 3)) :
    ∃ i : Fin 29, i.val = c.val + 1 ∧ findBlockManager (align8 n) = some i := by
  have hlt : c.val < 28 := by omega
  have halign := align8_roundUp (heq ▸ class_pow_le c)
  refine ⟨⟨c.val + 1, by omega⟩, rfl, findBlockManager_eq_some.mpr ⟨?_, fun j hj => ?_⟩⟩
  · rw [halign, heq, classLimit]
    split
    · have hle := class_pow_le c
      omega
    · exact Nat.pow_lt_pow_right (by decide) (by dsimp only; omega)
  · have hj : j.val ≤ c.val := Nat.le_of_lt_succ hj
    rw [halign, heq, classLimit, if_neg (by omega)]
    exact Nat.pow_le_pow_right (by decide) (by omega)

theorem Intact.find_least (h : Intact obj beg end_ s L) (hc : s.LeastClass n c)
    (hfits : c = 28 ∨ roundUp n ≠ 2 ^ (c.val + 3)) : findBlockManager (align8 n) = some c := by
  obtain ⟨hle, hleast⟩ := h.leastClass hc
  have hmax := class_pow_le c
  have halign := align8_roundUp (Nat.le_trans hle hmax)
  refine findBlockManager_eq_some.mpr ⟨?_, fun j hj => ?_⟩
  · rw [halign, classLimit]
    split
    · omega
    · omega
  · have hj' := hleast j hj
    rw [halign, classLimit, if_neg (by omega)]
    omega

theorem Intact.alloc_named (hplaced : Placed obj beg end_) (h : Intact obj beg end_ s L)
    (hfind : findBlockManager (align8 n) = some i) (hroom : ¬ s.Exhausted i) :
    ∃ ptr pool mem, s.pool.alloc s.mem n = some (ptr, pool, mem) ∧ ptr ≠ 0 ∧
      pool.managerAt (mgr mem (ptr - 32)) = some i := by
  obtain ⟨ptr, pool, mem, hcall, hptr⟩ := alloc_not_exhausted hplaced h hfind hroom
  rcases h.alloc hplaced n with hnull | ⟨ptr', pool', mem', j, L', hcall', -, hfind', h'⟩
  · cases hcall.symm.trans hnull
    exact absurd rfl hptr
  · cases hcall.symm.trans hcall'
    obtain rfl : i = j := Option.some.inj (hfind.symm.trans hfind')
    exact ⟨ptr, pool, mem, hcall, hptr, h'.managerAt List.mem_cons_self⟩

theorem Intact.allocTight_some (hplaced : Placed obj beg end_) (h : Intact obj beg end_ s L)
    (hfind : findBlockManager (align8 n) = some i) :
    AllocTight s n c ↔ i = c ∨ s.Exhausted i ∧ s.Exhausted c := by
  by_cases hex : s.Exhausted i
  · have hcall := alloc_exhausted hfind hex
    constructor
    · rintro ⟨ptr, pool, mem, hcall', hnull, -⟩
      cases hcall.symm.trans hcall'
      exact .inr ⟨hex, hnull rfl⟩
    · intro hcase
      refine ⟨0, s.pool, s.mem, hcall, fun _ => ?_, fun hne => absurd rfl hne⟩
      cases hcase with
      | inl hsame => exact hsame ▸ hex
      | inr hboth => exact hboth.2
  · obtain ⟨ptr, pool, mem, hcall, hptr, hnamed⟩ := h.alloc_named hplaced hfind hex
    rw [or_iff_left fun hboth => hex hboth.1]
    constructor
    · rintro ⟨ptr', pool', mem', hcall', -, hclass⟩
      cases hcall.symm.trans hcall'
      exact Option.some.inj (hnamed.symm.trans (hclass hptr))
    · rintro rfl
      exact ⟨ptr, pool, mem, hcall, fun hzero => absurd hzero hptr, fun _ => hnamed⟩

end

/-- The comparison leaves out the requests that are exactly of a class's size. -/
theorem alloc_tight_iff {obj beg end_ : Nat} (hplaced : Placed obj beg end_) {mem : Mem} {s : State}
    (hreach : Runs.Reachable State.step (.start obj beg end_ mem) s) {n : BitVec 64} {c : Fin 29}
    (hc : s.LeastClass n c) :
    AllocTight s n c ↔ c = 28 ∨ roundUp n ≠ s.blockSize c ∨
      s.Exhausted (c + 1) ∧ s.Exhausted c := by
  obtain ⟨L, h⟩ := hreach.invariant ⟨_, start_intact hplaced mem⟩ (step_intact hplaced)
  rw [h.blockSize_toNat]
  by_cases hfits : c = 28 ∨ roundUp n ≠ 2 ^ (c.val + 3)
  · rw [h.allocTight_some hplaced (h.find_least hc hfits)]
    exact iff_of_true (.inl rfl) (or_assoc.mp (.inl hfits))
  · obtain ⟨hlast, heq⟩ := not_or.mp hfits
    obtain ⟨i, hi, hfind⟩ := find_next hlast (not_not.mp heq)
    have hnext : i = c + 1 := by
      apply Fin.ext
      rw [hi, Fin.val_add]
      have hlt : c.val < 28 := by omega
      omega
    have hne : i ≠ c := fun hsame => by
      rw [hsame] at hi
      omega
    rw [h.allocTight_some hplaced hfind, or_iff_right hne, or_iff_right hlast, or_iff_right heq,
      hnext]

theorem start_leastClass {obj beg end_ : Nat} {mem : Mem} {n : BitVec 64} {c : Fin 29}
    (hle : roundUp n ≤ 2 ^ (c.val + 3)) (hlt : 2 ^ (c.val + 3) < 2 * roundUp n) :
    (State.start obj beg end_ mem).LeastClass n c := by
  have hsize (i : Fin 29) : (State.start obj beg end_ mem).blockSize i = 2 ^ (i.val + 3) :=
    create_blockSize obj beg end_ i
  constructor
  · exact Nat.le_trans hle (hsize c).ge
  · intro i hi
    have hi : roundUp n ≤ 2 ^ (i.val + 3) := Nat.le_trans hi (hsize i).le
    refine Fin.not_lt.mp fun hsmall => ?_
    have hpow : 2 ^ (i.val + 4) ≤ 2 ^ (c.val + 3) := Nat.pow_le_pow_right (by decide) (by omega)
    rw [Nat.pow_succ] at hpow
    omega

theorem alloc_tight_twenty : AllocTight (.start 64 4096 8192 fun _ => 0) 20 2 :=
  (alloc_tight_iff ⟨by decide, by decide, by decide, by decide⟩ ⟨[], rfl⟩
    (start_leastClass (by decide) (by decide))).mpr (.inr (.inl (by decide)))

theorem exactRequest_fails :
    (State.start 64 4096 4144 fun _ => 0).LeastClass 8 0 ∧
    Pool.alloc (.create 64 4096 4144) (fun _ => 0) 8 =
      some (0, .create 64 4096 4144, fun _ => 0) ∧
    ¬ (State.start 64 4096 4144 fun _ => 0).Exhausted 0 ∧
    ¬ AllocTight (.start 64 4096 4144 fun _ => 0) 8 0 := by
  have hcall : Pool.alloc (.create 64 4096 4144) (fun _ => 0) 8 =
      some (0, .create 64 4096 4144, fun _ => 0) := rfl
  have hroom : ¬ (State.start 64 4096 4144 fun _ => 0).Exhausted 0 := by
    rintro ⟨-, hlt⟩
    revert hlt
    decide
  refine ⟨start_leastClass (by decide) (by decide), hcall, hroom, ?_⟩
  rintro ⟨ptr, pool, mem, hcall', hnull, -⟩
  cases hcall.symm.trans hcall'
  exact hroom (hnull rfl)

end Flyzero.Mempool
