import Flyzero.Lib.Runs
import Flyzero.Mempool.Lists
import Mathlib.Data.List.Pairwise

/-! Runs of clients on a pool: every block stays on one list of its manager, intact and apart from
all others. -/
namespace Flyzero.Mempool
open ByteMem

structure Placed (obj beg end_ : Nat) : Prop where
  obj_le : obj + sizeofManager * 29 ≤ 2 ^ 64
  beg_pos : 0 < beg
  beg_le : beg ≤ end_
  end_lt : end_ < 2 ^ 64

/-- The pool and its range, the blocks `alloc_new` has carved with their managers, and the pointers
the clients hold. -/
structure State where
  pool : Pool
  mem : Mem
  carved : List (Nat × Fin 29)
  live : List (Nat × Fin 29)

inductive Event
  | alloc (size : BitVec 64)
  | free (ptr : Nat)
  | write (addr : Nat) (byte : UInt8)

namespace State

def start (obj beg end_ : Nat) (mem : Mem) : State :=
  { pool := Pool.create obj beg end_, mem, carved := [], live := [] }

def blockSize (s : State) (i : Fin 29) : Nat := (s.pool.managers i).blockSize.toNat

def implSize (s : State) (i : Fin 29) : Nat := (s.pool.managers i).implSize

def Beside (s : State) (b c : Nat × Fin 29) : Prop :=
  b.1 + s.implSize b.2 ≤ c.1 ∨ c.1 + s.implSize c.2 ≤ b.1

/-- No block has its header or its trailing checksum there. -/
def Harmless (s : State) (addr : Nat) : Prop :=
  ∀ b ∈ s.carved, addr < b.1 ∨ b.1 + s.implSize b.2 ≤ addr ∨
    b.1 + 32 ≤ addr ∧ addr < b.1 + 32 + s.blockSize b.2

instance (s : State) : DecidablePred s.Harmless := fun _ =>
  inferInstanceAs (Decidable (∀ b ∈ s.carved, _))

/-- Clients free what they hold and write where they may; `none` is such a call out of turn or the
dereference of a null pointer. -/
def step (s : State) : Event → Option State
  | .alloc size =>
    (s.pool.alloc s.mem size).map fun (ptr, pool, mem) =>
      let manager := (findBlockManager (align8 size)).toList
      { pool, mem,
        carved :=
          if pool.cur = s.pool.cur then s.carved
          else manager.map (fun i => (s.pool.cur, i)) ++ s.carved,
        live := if ptr = 0 then s.live else manager.map (fun i => (ptr, i)) ++ s.live }
  | .free ptr =>
    if ptr ∈ s.live.map (·.1) then
      (s.pool.free s.mem ptr).map fun (pool, mem) =>
        { s with pool, mem, live := s.live.filter (·.1 ≠ ptr) }
    else none
  | .write addr byte =>
    if ∃ b ∈ s.live, b.1 ≤ addr ∧ addr < b.1 + s.blockSize b.2 then
      some { s with mem := Function.update s.mem addr byte }
    else none

end State

inductive Kind
  | free
  | used
  deriving DecidableEq

def BlockManager.list (m : BlockManager) : Kind → BlockList
  | .free => m.freeList
  | .used => m.usedList

/-- The blocks lie one beside another in the range up to `cur_`. -/
structure Region (beg end_ : Nat) (s : State) : Prop where
  cur_le : s.pool.cur ≤ end_
  beg_le_cur : beg ≤ s.pool.cur
  inside : ∀ b ∈ s.carved, beg ≤ b.1 ∧ b.1 + s.implSize b.2 ≤ s.pool.cur
  disjoint : s.carved.Pairwise s.Beside

/-- The header names the manager and both checksums hold. -/
structure Sealed (s : State) (b : Nat × Fin 29) : Prop where
  named : s.pool.managerAt (mgr s.mem b.1) = some b.2
  check : check s.mem b.1 = true
  tail : checksum s.mem b.1 = word s.mem (b.1 + 32 + s.blockSize b.2)

/-- The lists have these nodes: those of the carved blocks, each once. -/
structure Lists (s : State) (L : Fin 29 → Kind → List Nat) : Prop where
  holds : ∀ i k, ((s.pool.managers i).list k).Holds s.mem (L i k)
  nodup : ∀ i, (L i .free ++ L i .used).Nodup
  carved : ∀ a i, (a, i) ∈ s.carved ↔ a ∈ L i .free ++ L i .used

structure SamePool (p q : Pool) : Prop where
  self : q.self = p.self
  beg : q.beg = p.beg
  end_ : q.end_ = p.end_
  blockSize : ∀ i, (q.managers i).blockSize = (p.managers i).blockSize

structure Intact (obj beg end_ : Nat) (s : State) (L : Fin 29 → Kind → List Nat) : Prop where
  pool : SamePool (Pool.create obj beg end_) s.pool
  region : Region beg end_ s
  intact : ∀ b ∈ s.carved, Sealed s b
  lists : Lists s L
  live_nodup : s.live.Nodup
  live : ∀ p i, (p, i) ∈ s.live ↔ ∃ a ∈ L i .used, p = a + 32

section Pieces
variable {obj beg end_ : Nat} {s t : State} {L : Fin 29 → Kind → List Nat} {b c : Nat × Fin 29}
  {i j : Fin 29} {xs ys : List Nat}

theorem State.implSize_eq (s : State) (i : Fin 29) : s.implSize i = 32 + s.blockSize i + 8 := rfl

theorem SamePool.refl (p : Pool) : SamePool p p := ⟨rfl, rfl, rfl, fun _ => rfl⟩

theorem SamePool.trans {p q r : Pool} (h : SamePool p q) (h' : SamePool q r) : SamePool p r :=
  ⟨h'.self.trans h.self, h'.beg.trans h.beg, h'.end_.trans h.end_,
    fun i => (h'.blockSize i).trans (h.blockSize i)⟩

theorem SamePool.setManager (p : Pool) (i : Fin 29) (freeList usedList : BlockList) :
    SamePool p (p.setManager i { p.managers i with freeList, usedList }) := by
  refine ⟨rfl, rfl, rfl, fun j => ?_⟩
  by_cases hj : j = i
  · rw [hj, Pool.setManager_self]
  · rw [Pool.setManager_of_ne _ _ hj]

theorem SamePool.state (h : SamePool s.pool t.pool) (i : Fin 29) :
    t.blockSize i = s.blockSize i ∧ t.implSize i = s.implSize i := by
  have hsize : t.blockSize i = s.blockSize i := congrArg BitVec.toNat (h.blockSize i)
  exact ⟨hsize, by rw [State.implSize_eq, State.implSize_eq, hsize]⟩

theorem find?_finRange {n : Nat} {α : Type} [DecidableEq α] {f : Fin n → α}
    (hf : Function.Injective f) (i : Fin n) :
    (List.finRange n).find? (fun j => f j = f i) = some i := by
  cases hfind : (List.finRange n).find? (fun j => f j = f i) with
  | none => exact absurd (decide_eq_true rfl) (List.find?_eq_none.mp hfind i (List.mem_finRange i))
  | some j =>
    have heq := List.find?_some hfind
    exact congrArg some (hf (of_decide_eq_true heq))

theorem Pool.managerAt_managerAddr {p : Pool} (h : p.self + sizeofManager * 29 ≤ 2 ^ 64)
    (i : Fin 29) : p.managerAt (BitVec.ofNat 64 (p.managerAddr i)) = some i := by
  have hlt (j : Fin 29) : p.managerAddr j < 2 ^ 64 := by
    have hj := j.isLt
    rw [managerAddr]
    unfold sizeofManager at *
    omega
  have hinj : Function.Injective fun i => BitVec.ofNat 64 (p.managerAddr i) := by
    intro j k heq
    have heq := congrArg BitVec.toNat heq
    simp only [BitVec.toNat_ofNat] at heq
    rw [Nat.mod_eq_of_lt (hlt j), Nat.mod_eq_of_lt (hlt k), managerAddr, managerAddr] at heq
    exact Fin.ext (Nat.eq_of_mul_eq_mul_left (by decide) (Nat.add_left_cancel heq))
  exact find?_finRange hinj i

theorem Pool.managerAt_congr {p q : Pool} (h : q.self = p.self) : q.managerAt = p.managerAt := by
  have haddr : q.managerAddr = p.managerAddr := by
    funext i
    rw [managerAddr, managerAddr, h]
  funext a
  rw [managerAt, managerAt, haddr]

theorem Region.separate (h : Region beg end_ s) (hb : b ∈ s.carved) (hc : c ∈ s.carved)
    (hne : b ≠ c) : s.Beside b c :=
  have : Std.Symm s.Beside := ⟨fun _ _ => Or.symm⟩
  h.disjoint.forall hb hc hne

theorem Region.apart (h : Region beg end_ s) (hb : b ∈ s.carved) (hc : c ∈ s.carved)
    (hne : b ≠ c) : Apart b.1 c.1 := by
  have hsep := h.separate hb hc hne
  rw [State.Beside, s.implSize_eq, s.implSize_eq] at hsep
  unfold Apart
  omega

theorem Region.manager_eq (h : Region beg end_ s) {a : Nat} (hi : (a, i) ∈ s.carved)
    (hj : (a, j) ∈ s.carved) : i = j := by
  by_contra hne
  have hapart : Apart a a := h.apart hi hj fun heq => hne (Prod.mk.inj heq).2
  unfold Apart at hapart
  omega

theorem Region.lt (h : Region beg end_ s) (hplaced : Placed obj beg end_) (hb : b ∈ s.carved) :
    b.1 < 2 ^ 64 := by
  have hend := hplaced.end_lt
  have hcur := h.cur_le
  have hinside := h.inside b hb
  omega

theorem Region.congr (h : Region beg end_ s) (hpool : SamePool s.pool t.pool)
    (hcur : t.pool.cur = s.pool.cur) (hcarved : t.carved = s.carved) : Region beg end_ t := by
  have himpl (i : Fin 29) : t.implSize i = s.implSize i := (hpool.state i).2
  constructor
  · exact hcur ▸ h.cur_le
  · exact hcur ▸ h.beg_le_cur
  · simpa only [hcarved, himpl, hcur] using h.inside
  · rw [hcarved]
    refine h.disjoint.imp fun {b c} hbc => ?_
    rwa [State.Beside, himpl, himpl]

/-- No link field of a block holds a byte of another block or a byte beside its own links. -/
theorem Region.beside_links (h : Region beg end_ s) (hb : b ∈ s.carved) (hc : c ∈ s.carved) {x : Nat}
    (hlo : b.1 ≤ x) (hhi : x < b.1 + s.implSize b.2)
    (hlinks : b = c → x < b.1 + 8 ∨ b.1 + 24 ≤ x) : x < c.1 + 8 ∨ c.1 + 24 ≤ x := by
  by_cases heq : b = c
  · exact heq ▸ hlinks heq
  · have hsep := h.separate hb hc heq
    rw [State.Beside, s.implSize_eq c.2] at hsep
    omega

theorem Sealed.congr (h : Sealed s b) (hpool : SamePool s.pool t.pool)
    (hsame : ∀ x, b.1 ≤ x → x < b.1 + s.implSize b.2 → (x < b.1 + 8 ∨ b.1 + 24 ≤ x) →
      (x < b.1 + 32 ∨ b.1 + 32 + s.blockSize b.2 ≤ x) → t.mem x = s.mem x) : Sealed t b := by
  have himpl := s.implSize_eq b.2
  have hmgr : mgr t.mem b.1 = mgr s.mem b.1 := by
    apply word_congr
    intro x hlo hhi
    exact hsame x hlo (by omega) (by omega) (by omega)
  have hsum : checksum t.mem b.1 = checksum s.mem b.1 := by
    apply word_congr
    intro x hlo hhi
    exact hsame x (by omega) (by omega) (by omega) (by omega)
  have htail : word t.mem (b.1 + 32 + s.blockSize b.2) =
      word s.mem (b.1 + 32 + s.blockSize b.2) := by
    apply word_congr
    intro x hlo hhi
    exact hsame x (by omega) (by omega) (by omega) (by omega)
  constructor
  · rw [hmgr, Pool.managerAt_congr hpool.self, h.named]
  · rw [Mempool.check, calcChecksum, hmgr, hsum]
    exact h.check
  · rw [hsum, (hpool.state b.2).1, htail, h.tail]

theorem Lists.mem_carved (h : Lists s L) {k : Kind} {a : Nat} (ha : a ∈ L i k) :
    (a, i) ∈ s.carved := by
  rw [h.carved, List.mem_append]
  cases k with
  | free => exact .inl ha
  | used => exact .inr ha

theorem Lists.spread (h : Lists s L) (hregion : Region beg end_ s) (hplaced : Placed obj beg end_)
    (i : Fin 29) : Spread (L i .free ++ L i .used) where
  nodup := h.nodup i
  apart a ha b hb hab := by
    rw [← h.carved] at ha hb
    exact hregion.apart ha hb fun heq => hab (Prod.mk.inj heq).1
  lt a ha := hregion.lt hplaced ((h.carved a i).mpr ha)

def relist (L : Fin 29 → Kind → List Nat) (i : Fin 29) (free used : List Nat) :
    Fin 29 → Kind → List Nat :=
  Function.update L i fun
    | .free => free
    | .used => used

theorem relist_self (L : Fin 29 → Kind → List Nat) (i : Fin 29) (xs ys : List Nat) :
    relist L i xs ys i .free = xs ∧ relist L i xs ys i .used = ys := by
  simp [relist]

theorem relist_of_ne (h : j ≠ i) : relist L i xs ys j = L j := Function.update_of_ne h _ _

theorem Lists.relist (h : Lists s L) (hother : ∀ j, j ≠ i → t.pool.managers j = s.pool.managers j)
    (hfree : (t.pool.managers i).freeList.Holds t.mem xs)
    (hused : (t.pool.managers i).usedList.Holds t.mem ys) (hnodup : (xs ++ ys).Nodup)
    (hframe : ∀ j, j ≠ i → ∀ k, ∀ a ∈ L j k, SameOn s.mem t.mem (a + 8) (a + 24))
    (hself : ∀ a, (a, i) ∈ t.carved ↔ a ∈ xs ++ ys)
    (hcarved : ∀ a j, j ≠ i → ((a, j) ∈ t.carved ↔ (a, j) ∈ s.carved)) :
    Lists t (relist L i xs ys) := by
  obtain ⟨hxs, hys⟩ := relist_self L i xs ys
  constructor
  · intro j k
    by_cases hj : j = i
    · subst hj
      cases k with
      | free => rw [hxs]; exact hfree
      | used => rw [hys]; exact hused
    · rw [relist_of_ne hj, hother j hj]
      exact (h.holds j k).congr (hframe j hj k)
  · intro j
    by_cases hj : j = i
    · rw [hj, hxs, hys]
      exact hnodup
    · rw [relist_of_ne hj]
      exact h.nodup j
  · intro a j
    by_cases hj : j = i
    · rw [hj, hxs, hys]
      exact hself a
    · rw [relist_of_ne hj, hcarved a j hj]
      exact h.carved a j

theorem Intact.relist (h : Intact obj beg end_ s L)
    {freeList usedList : BlockList}
    (hpool : t.pool = s.pool.setManager i { s.pool.managers i with freeList, usedList })
    (hcarved : t.carved = s.carved) (hfree : freeList.Holds t.mem xs)
    (hused : usedList.Holds t.mem ys) (hperm : (L i .free ++ L i .used).Perm (xs ++ ys))
    (htouched : Touched (L i .free ++ L i .used) s.mem t.mem) (hnodup : t.live.Nodup)
    (hself : ∀ p, (p, i) ∈ t.live ↔ ∃ a ∈ ys, p = a + 32)
    (hlive : ∀ p j, j ≠ i → ((p, j) ∈ t.live ↔ (p, j) ∈ s.live)) :
    Intact obj beg end_ t (Mempool.relist L i xs ys) := by
  have hsame : SamePool s.pool t.pool := hpool ▸ SamePool.setManager ..
  have hmanager : t.pool.managers i = { s.pool.managers i with freeList, usedList } := by
    rw [hpool, Pool.setManager_self]
  obtain ⟨-, hys⟩ := relist_self L i xs ys
  constructor
  · exact h.pool.trans hsame
  · exact h.region.congr hsame (by rw [hpool]; rfl) hcarved
  · intro b hb
    rw [hcarved] at hb
    apply (h.intact b hb).congr hsame
    intro x hlo hhi hlinks _
    apply htouched
    intro c hc
    exact h.region.beside_links hb ((h.lists.carved c i).mpr hc) hlo hhi fun _ => hlinks
  · apply h.lists.relist
    · intro j hj
      rw [hpool, Pool.setManager_of_ne _ _ hj]
    · rwa [hmanager]
    · rwa [hmanager]
    · exact hperm.nodup_iff.mp (h.lists.nodup i)
    · intro j hj k a ha x hlo hhi
      apply htouched
      intro b hb
      have hapart := h.region.apart (h.lists.mem_carved ha) ((h.lists.carved b i).mpr hb)
        fun heq => hj (Prod.mk.inj heq).2
      unfold Apart at hapart
      omega
    · intro a
      rw [hcarved, h.lists.carved, hperm.mem_iff]
    · intro a j _
      rw [hcarved]
  · exact hnodup
  · intro p j
    by_cases hj : j = i
    · rw [hj, hys]
      exact hself p
    · rw [relist_of_ne hj, hlive p j hj]
      exact h.live p j

theorem Intact.fresh (h : Intact obj beg end_ s L) {a : Nat} (ha : a ∉ L i .used) :
    (a + 32, i) ∉ s.live := by
  intro hmem
  obtain ⟨b, hb, heq⟩ := (h.live _ i).mp hmem
  exact ha (by rwa [Nat.add_right_cancel heq])

theorem Intact.allocExist (hplaced : Placed obj beg end_) (h : Intact obj beg end_ s L)
    (hhead : (s.pool.managers i).freeList.head ≠ 0) :
    ∃ ptr pool mem L', s.pool.allocExist s.mem i = some (ptr, pool, mem) ∧ ptr ≠ 0 ∧
      pool.cur = s.pool.cur ∧
      Intact obj beg end_ { s with pool, mem, live := (ptr, i) :: s.live } L' := by
  have hfree := h.lists.holds i .free
  cases hfs : L i .free with
  | nil => exact absurd (hfree.head_eq_zero.mpr hfs) hhead
  | cons block fs =>
    have hspread := h.lists.spread h.region hplaced i
    rw [hfs] at hfree hspread
    obtain ⟨freeList, usedList, mem, hcall, hfs', hus', htouched⟩ :=
      Pool.allocExist_spec hfree (h.lists.holds i .used) hspread
    have hout : block ∉ L i .used := fun hmem =>
      (List.nodup_append.mp hspread.nodup).2.2 block List.mem_cons_self block hmem rfl
    refine ⟨_, _, mem, Mempool.relist L i fs (block :: L i .used), hcall, Nat.succ_ne_zero _,
      rfl, ?_⟩
    refine h.relist rfl rfl hfs' hus' ?_ ?_ ?_ ?_ ?_
    · rw [hfs]
      exact List.perm_middle.symm
    · rwa [hfs]
    · exact List.nodup_cons.mpr ⟨h.fresh hout, h.live_nodup⟩
    · intro p
      simp [h.live]
    · intro p j hj
      simp [hj]

theorem Region.carve (h : Region beg end_ s) (hpool : SamePool s.pool t.pool)
    (hcur : t.pool.cur = s.pool.cur + s.implSize i) (hend : s.pool.cur + s.implSize i ≤ end_)
    (hcarved : t.carved = (s.pool.cur, i) :: s.carved) : Region beg end_ t := by
  have himpl (j : Fin 29) : t.implSize j = s.implSize j := (hpool.state j).2
  have hbeg := h.beg_le_cur
  constructor
  · exact hcur ▸ hend
  · omega
  · intro b hb
    rw [himpl, hcur]
    rcases List.mem_cons.mp (hcarved ▸ hb) with rfl | hb
    · exact ⟨hbeg, le_rfl⟩
    · have hinside := h.inside b hb
      omega
  · rw [hcarved]
    refine List.pairwise_cons.mpr ⟨fun b hb => ?_, h.disjoint.imp fun {b c} hbc => ?_⟩
    · rw [State.Beside, himpl, himpl]
      exact .inr (h.inside b hb).2
    · rwa [State.Beside, himpl, himpl]

theorem Intact.links_same (h : Intact obj beg end_ s L)
    (hrest : ∀ x < s.pool.cur, (∀ c ∈ L i .used, x < c + 8 ∨ c + 24 ≤ x) → t.mem x = s.mem x)
    {k : Kind} {a : Nat} (ha : a ∈ L j k) (hother : a ∉ L i .used) :
    SameOn s.mem t.mem (a + 8) (a + 24) := by
  intro x hlo hhi
  have hmem := h.lists.mem_carved ha
  have hle : a + s.implSize j ≤ s.pool.cur := (h.region.inside _ hmem).2
  have hsize := s.implSize_eq j
  apply hrest x (by omega)
  intro c hc
  have hlo : a ≤ x := by omega
  have hhi : x < a + s.implSize j := by omega
  apply h.region.beside_links hmem (h.lists.mem_carved hc) hlo hhi
  rintro ⟨⟩
  exact absurd hc hother

theorem Intact.carve (h : Intact obj beg end_ s L) (hpool : SamePool s.pool t.pool)
    (hcur : t.pool.cur = s.pool.cur + s.implSize i) (hend : s.pool.cur + s.implSize i ≤ end_)
    (hcarved : t.carved = (s.pool.cur, i) :: s.carved)
    (hlive : t.live = (s.pool.cur + 32, i) :: s.live)
    (hother : ∀ j, j ≠ i → t.pool.managers j = s.pool.managers j)
    (hfree : (t.pool.managers i).freeList = (s.pool.managers i).freeList)
    (hused : (t.pool.managers i).usedList.Holds t.mem (s.pool.cur :: L i .used))
    (hrest : ∀ x < s.pool.cur, (∀ c ∈ L i .used, x < c + 8 ∨ c + 24 ≤ x) → t.mem x = s.mem x)
    (hnew : Sealed t (s.pool.cur, i)) :
    Intact obj beg end_ t (Mempool.relist L i (L i .free) (s.pool.cur :: L i .used)) := by
  obtain ⟨-, hys⟩ := relist_self L i (L i .free) (s.pool.cur :: L i .used)
  have hout : s.pool.cur ∉ L i .free ++ L i .used := by
    intro hmem
    have hle : s.pool.cur + s.implSize i ≤ s.pool.cur :=
      (h.region.inside _ ((h.lists.carved _ i).mpr hmem)).2
    rw [s.implSize_eq] at hle
    omega
  have hfresh := h.fresh fun hmem => hout (List.mem_append_right _ hmem)
  constructor
  · exact h.pool.trans hpool
  · exact h.region.carve hpool hcur hend hcarved
  · intro b hb
    rcases List.mem_cons.mp (hcarved ▸ hb) with rfl | hb
    · exact hnew
    · apply (h.intact b hb).congr hpool
      intro x hlo hhi hlinks _
      have hle := (h.region.inside b hb).2
      apply hrest x (by omega)
      intro c hc
      exact h.region.beside_links hb (h.lists.mem_carved hc) hlo hhi fun _ => hlinks
  · apply h.lists.relist hother
    · rw [hfree]
      apply (h.lists.holds i .free).congr
      intro a ha
      exact h.links_same hrest ha fun hmem =>
        (List.nodup_append.mp (h.lists.nodup i)).2.2 a ha a hmem rfl
    · exact hused
    · exact List.nodup_middle.mpr (List.nodup_cons.mpr ⟨hout, h.lists.nodup i⟩)
    · intro j hj k a ha
      exact h.links_same hrest ha fun hmem => hj
        (h.region.manager_eq (h.lists.mem_carved ha) (h.lists.mem_carved hmem))
    · intro a
      rw [hcarved, List.mem_cons, h.lists.carved, Prod.mk.injEq, and_iff_left rfl,
        List.perm_middle.mem_iff, List.mem_cons]
    · intro a j hj
      simp [hcarved, hj]
  · rw [hlive]
    exact List.nodup_cons.mpr ⟨hfresh, h.live_nodup⟩
  · intro p j
    rw [hlive]
    by_cases hj : j = i
    · rw [hj, hys]
      simp [h.live]
    · rw [relist_of_ne hj, ← h.live]
      simp [hj]

theorem Intact.allocNew (hplaced : Placed obj beg end_) (h : Intact obj beg end_ s L)
    (hroom : s.implSize i ≤ s.pool.freeSize) :
    ∃ ptr pool mem L', s.pool.allocNew s.mem i = (ptr, pool, mem) ∧ ptr ≠ 0 ∧
      pool.cur ≠ s.pool.cur ∧ Intact obj beg end_
        { pool, mem, carved := (s.pool.cur, i) :: s.carved, live := (ptr, i) :: s.live } L' := by
  have hcur : s.pool.cur ≠ 0 := by
    have hbeg := hplaced.beg_pos
    have hle := h.region.beg_le_cur
    omega
  have himpl := s.implSize_eq i
  have hend : s.pool.cur + s.implSize i ≤ end_ := by
    have heq : s.pool.end_ = end_ := h.pool.end_
    rw [Pool.freeSize, heq] at hroom
    omega
  have hbefore (a : Nat) (ha : a ∈ L i .used) : a + 32 ≤ s.pool.cur := by
    have hle : a + s.implSize i ≤ s.pool.cur := (h.region.inside _ (h.lists.mem_carved ha)).2
    omega
  have hspread : Spread (s.pool.cur :: L i .used) := by
    have hlt := hplaced.end_lt
    have hall := h.lists.spread h.region hplaced i
    exact (hall.sublist (List.sublist_append_right _ _)).cons_behind hbefore (by omega)
  obtain ⟨usedList, mem, hcall, hus', hrest, hmgr, hcheck, htail⟩ :=
    Pool.allocNew_spec hroom (h.lists.holds i .used) hcur hspread hbefore
  let pool := { s.pool with cur := s.pool.cur + s.implSize i }.setManager i
    { s.pool.managers i with usedList }
  have hset := SamePool.setManager { s.pool with cur := s.pool.cur + s.implSize i } i
    (s.pool.managers i).freeList usedList
  have hpool : SamePool s.pool pool := ⟨hset.self, hset.beg, hset.end_, hset.blockSize⟩
  have hmanager : pool.managers i = { s.pool.managers i with usedList } :=
    Pool.setManager_self ..
  refine ⟨_, pool, mem, Mempool.relist L i (L i .free) (s.pool.cur :: L i .used), hcall,
    Nat.succ_ne_zero _, ?_, ?_⟩
  · change s.pool.cur + s.implSize i ≠ s.pool.cur
    omega
  · refine h.carve hpool rfl hend rfl rfl (fun j hj => Pool.setManager_of_ne _ _ hj) ?_ ?_ hrest ?_
    · rw [hmanager]
    · rwa [hmanager]
    · have hself : s.pool.self = obj := h.pool.self
      constructor
      · rw [Pool.managerAt_congr hpool.self, hmgr,
          Pool.managerAt_managerAddr (hself ▸ hplaced.obj_le)]
      · exact hcheck
      · rw [State.blockSize, hpool.blockSize]
        exact htail

theorem Intact.free (hplaced : Placed obj beg end_) (h : Intact obj beg end_ s L) {ptr : Nat}
    {pool : Pool} {mem : Mem} (hlive : (ptr, i) ∈ s.live)
    (hcall : s.pool.free s.mem ptr = some (pool, mem)) :
    (pool.managers i).freeList.head = ptr - 32 ∧ ∃ L',
      Intact obj beg end_ { s with pool, mem, live := s.live.filter (·.1 ≠ ptr) } L' := by
  obtain ⟨block, hblock, rfl⟩ := (h.live ptr i).mp hlive
  have hcarved : (block, i) ∈ s.carved := h.lists.mem_carved hblock
  have hsealed := h.intact _ hcarved
  have hsub : block + 32 - 32 = block := Nat.add_sub_cancel block 32
  obtain ⟨freeList, usedList, rfl, hfs', hus', htouched⟩ :=
    Pool.free_spec (by rw [hsub]; exact hsealed.check) (by rw [hsub]; exact hsealed.named)
      (by rw [hsub]; exact hsealed.tail) (h.lists.holds i .free) (h.lists.holds i .used)
      (h.lists.spread h.region hplaced i) (by rwa [hsub]) hcall
  rw [hsub] at hfs' hus' ⊢
  refine ⟨by rw [Pool.setManager_self]; exact hfs'.head,
    Mempool.relist L i (block :: L i .free) ((L i .used).erase block), ?_⟩
  have hnodup := (List.nodup_append.mp (h.lists.nodup i)).2.1
  refine h.relist rfl rfl hfs' hus' ?_ htouched (h.live_nodup.filter _) ?_ ?_
  · exact ((List.perm_cons_erase hblock).append_left _).trans List.perm_middle
  · intro p
    simp only [List.mem_filter, h.live, hnodup.mem_erase_iff, ne_eq, decide_not,
      Bool.not_eq_true', decide_eq_false_iff_not]
    constructor
    · rintro ⟨⟨a, ha, rfl⟩, hne⟩
      exact ⟨a, ⟨fun heq => hne (congrArg (· + 32) heq), ha⟩, rfl⟩
    · rintro ⟨a, ⟨hne, ha⟩, rfl⟩
      exact ⟨⟨a, ha, rfl⟩, fun heq => hne (Nat.add_right_cancel heq)⟩
  · intro p j hj
    refine ⟨fun hmem => (List.mem_filter.mp hmem).1, fun hmem => ?_⟩
    refine List.mem_filter.mpr ⟨hmem, decide_eq_true fun heq => ?_⟩
    obtain ⟨a, ha, rfl⟩ := (h.live p j).mp hmem
    obtain rfl : a = block := Nat.add_right_cancel heq
    exact hj (h.region.manager_eq (h.lists.mem_carved ha) hcarved)

/-- Bytes that are in no header and no trailing checksum may change. -/
theorem Intact.poke (h : Intact obj beg end_ s L) {addr : Nat} (byte : UInt8)
    (hout : s.Harmless addr) :
    Intact obj beg end_ { s with mem := Function.update s.mem addr byte } L := by
  have hsame (b : Nat × Fin 29) (hb : b ∈ s.carved) (x : Nat) (hlo : b.1 ≤ x)
      (hhi : x < b.1 + s.implSize b.2)
      (hpart : x < b.1 + 32 ∨ b.1 + 32 + s.blockSize b.2 ≤ x) :
      Function.update s.mem addr byte x = s.mem x := by
    apply Function.update_of_ne
    have hharm := hout b hb
    omega
  constructor
  · exact h.pool
  · exact h.region.congr (.refl _) rfl rfl
  · intro b hb
    exact (h.intact b hb).congr (.refl _) fun x hlo hhi _ hpart => hsame b hb x hlo hhi hpart
  · refine ⟨fun j k => (h.lists.holds j k).congr fun a ha x hlo hhi => ?_, h.lists.nodup,
      h.lists.carved⟩
    have hsize := s.implSize_eq j
    exact hsame (a, j) (h.lists.mem_carved ha) x (by dsimp only; omega) (by dsimp only; omega)
      (.inl (by dsimp only; omega))
  · exact h.live_nodup
  · exact h.live

theorem Intact.harmless (h : Intact obj beg end_ s L) {p addr : Nat} (hlive : (p, i) ∈ s.live)
    (hlo : p ≤ addr) (hhi : addr < p + s.blockSize i) : s.Harmless addr := by
  obtain ⟨block, hblock, rfl⟩ := (h.live p i).mp hlive
  have hcarved : (block, i) ∈ s.carved := h.lists.mem_carved hblock
  intro b hb
  have himpl := s.implSize_eq i
  by_cases heq : b = (block, i)
  · rw [heq]
    exact .inr (.inr ⟨hlo, hhi⟩)
  · have hsep : b.1 + s.implSize b.2 ≤ block ∨ block + s.implSize i ≤ b.1 :=
      h.region.separate hb hcarved heq
    omega

end Pieces

theorem start_intact {obj beg end_ : Nat} (hplaced : Placed obj beg end_) (mem : Mem) :
    Intact obj beg end_ (.start obj beg end_ mem) fun _ _ => [] := by
  constructor
  · exact .refl _
  · exact ⟨hplaced.beg_le, le_rfl, nofun, .nil⟩
  · exact nofun
  · refine ⟨fun i k => ?_, fun _ => .nil, by simp [State.start]⟩
    cases k <;> exact ⟨rfl, rfl, trivial⟩
  · exact .nil
  · simp [State.start]

section Calls
variable {obj beg end_ : Nat} {s : State} {L : Fin 29 → Kind → List Nat}

theorem Intact.alloc (hplaced : Placed obj beg end_) (h : Intact obj beg end_ s L)
    (size : BitVec 64) :
    s.pool.alloc s.mem size = some (0, s.pool, s.mem) ∨
    ∃ ptr pool mem i L', s.pool.alloc s.mem size = some (ptr, pool, mem) ∧ ptr ≠ 0 ∧
      findBlockManager (align8 size) = some i ∧ Intact obj beg end_
        { pool, mem,
          carved := if pool.cur = s.pool.cur then s.carved else (s.pool.cur, i) :: s.carved,
          live := (ptr, i) :: s.live } L' := by
  cases hfind : findBlockManager (align8 size) with
  | none => exact .inl (by rw [Pool.alloc, hfind])
  | some i =>
    by_cases hhead : (s.pool.managers i).freeList.head = 0
    · by_cases hroom : s.implSize i ≤ s.pool.freeSize
      · obtain ⟨ptr, pool, mem, L', hcall, hptr, hcur, h'⟩ := h.allocNew hplaced hroom
        refine .inr ⟨ptr, pool, mem, i, L', ?_, hptr, rfl, ?_⟩
        · rw [Pool.alloc, hfind]
          dsimp only
          rw [if_pos hhead, hcall]
        · rwa [if_neg hcur]
      · have hnull : s.pool.allocNew s.mem i = (0, s.pool, s.mem) := by
          rw [Pool.allocNew]
          exact if_neg hroom
        refine .inl ?_
        rw [Pool.alloc, hfind]
        dsimp only
        rw [if_pos hhead, hnull]
    · obtain ⟨ptr, pool, mem, L', hcall, hptr, hcur, h'⟩ := h.allocExist hplaced hhead
      refine .inr ⟨ptr, pool, mem, i, L', ?_, hptr, rfl, ?_⟩
      · rw [Pool.alloc, hfind]
        dsimp only
        rw [if_neg hhead, hcall]
      · rwa [if_pos hcur]

theorem step_intact (hplaced : Placed obj beg end_) (s : State) (e : Event) (t : State)
    (hstep : s.step e = some t) (h : ∃ L, Intact obj beg end_ s L) :
    ∃ L, Intact obj beg end_ t L := by
  obtain ⟨L, h⟩ := h
  cases e with
  | alloc size =>
    rw [State.step] at hstep
    rcases h.alloc hplaced size with hcall | ⟨ptr, pool, mem, i, L', hcall, hptr, hfind, h'⟩
    · rw [hcall] at hstep
      cases hstep
      exact ⟨L, by simpa using h⟩
    · rw [hcall, hfind] at hstep
      cases hstep
      exact ⟨L', by simpa [hptr] using h'⟩
  | free ptr =>
    obtain ⟨hmem, hstep⟩ := Option.ite_none_right_eq_some.mp hstep
    obtain ⟨⟨pool, mem⟩, hcall, rfl⟩ := Option.map_eq_some_iff.mp hstep
    obtain ⟨⟨p, i⟩, hlive, rfl⟩ := List.mem_map.mp hmem
    exact (h.free hplaced hlive hcall).2
  | write addr byte =>
    obtain ⟨⟨⟨p, i⟩, hlive, hlo, hhi⟩, hstep⟩ := Option.ite_none_right_eq_some.mp hstep
    cases hstep
    exact ⟨L, h.poke byte (h.harmless hlive hlo hhi)⟩

theorem Intact.usable_apart (h : Intact obj beg end_ s L) {b c : Nat × Fin 29} (hb : b ∈ s.live)
    (hc : c ∈ s.live) (hne : b ≠ c) :
    b.1 + s.blockSize b.2 ≤ c.1 ∨ c.1 + s.blockSize c.2 ≤ b.1 := by
  obtain ⟨p, i⟩ := b
  obtain ⟨q, j⟩ := c
  obtain ⟨a, ha, rfl⟩ := (h.live p i).mp hb
  obtain ⟨d, hd, rfl⟩ := (h.live q j).mp hc
  have hsep := h.region.separate (h.lists.mem_carved ha) (h.lists.mem_carved hd) (by grind)
  rw [State.Beside, s.implSize_eq, s.implSize_eq] at hsep
  dsimp only at *
  omega

theorem Intact.blockSize_eq {t : State} {L' : Fin 29 → Kind → List Nat}
    (h : Intact obj beg end_ s L) (h' : Intact obj beg end_ t L') (i : Fin 29) :
    t.blockSize i = s.blockSize i :=
  congrArg BitVec.toNat ((h'.pool.blockSize i).trans (h.pool.blockSize i).symm)

end Calls

def State.kind (s : State) (b : Nat × Fin 29) : Kind :=
  if (b.1 + 32, b.2) ∈ s.live then .used else .free

theorem Intact.mem_iff_kind {obj beg end_ : Nat} {s : State} {L : Fin 29 → Kind → List Nat}
    (h : Intact obj beg end_ s L) {a : Nat} {i : Fin 29} (ha : (a, i) ∈ s.carved) (k : Kind) :
    a ∈ L i k ↔ k = s.kind (a, i) := by
  have hlive : (a + 32, i) ∈ s.live ↔ a ∈ L i .used := by
    rw [h.live]
    constructor
    · rintro ⟨b, hb, heq⟩
      rwa [Nat.add_right_cancel heq]
    · exact fun hmem => ⟨a, hmem, rfl⟩
  have hone := (List.nodup_append.mp (h.lists.nodup i)).2.2
  rw [State.kind]
  by_cases hused : a ∈ L i .used
  · rw [if_pos (hlive.mpr hused)]
    cases k with
    | free => exact ⟨fun hfree => absurd rfl (hone a hfree a hused), nofun⟩
    | used => exact ⟨fun _ => rfl, fun _ => hused⟩
  · rw [if_neg (mt hlive.mp hused)]
    have hfree := (List.mem_append.mp ((h.lists.carved a i).mp ha)).resolve_right hused
    cases k with
    | free => exact ⟨fun _ => rfl, fun _ => hfree⟩
    | used => exact ⟨fun hmem => absurd hmem hused, nofun⟩

/-- Blocks are disjoint, intact and each on its one list; what `alloc` hands out next is apart from
all that is live, and `free` of a live pointer frees the block. -/
structure Safe (beg end_ : Nat) (s : State) : Prop where
  region : Region beg end_ s
  intact : ∀ b ∈ s.carved, Sealed s b
  listed : ∃ L : Fin 29 → Kind → List Nat,
    (∀ i k, ((s.pool.managers i).list k).Holds s.mem (L i k) ∧ (L i k).Nodup) ∧
    (∀ i k, ∀ a ∈ L i k, (a, i) ∈ s.carved) ∧
    ∀ b ∈ s.carved, ∀ i k, b.1 ∈ L i k ↔ i = b.2 ∧ k = s.kind b
  live_carved : ∀ b ∈ s.live, ∃ a, (a, b.2) ∈ s.carved ∧ b.1 = a + 32
  alloc_apart : ∀ size ptr pool mem, s.pool.alloc s.mem size = some (ptr, pool, mem) → ptr ≠ 0 →
    ∃ i, findBlockManager (align8 size) = some i ∧ ∀ b ∈ s.live,
      ptr + s.blockSize i ≤ b.1 ∨ b.1 + s.blockSize b.2 ≤ ptr
  free_moves : ∀ b ∈ s.live, ∀ pool mem, s.pool.free s.mem b.1 = some (pool, mem) →
    (pool.managers b.2).freeList.head = b.1 - 32

theorem Intact.safe {obj beg end_ : Nat} (hplaced : Placed obj beg end_) {s : State}
    {L : Fin 29 → Kind → List Nat} (h : Intact obj beg end_ s L) : Safe beg end_ s where
  region := h.region
  intact := h.intact
  listed := by
    refine ⟨L, fun i k => ⟨h.lists.holds i k, ?_⟩, fun i k a ha => h.lists.mem_carved ha, ?_⟩
    · have hnodup := List.nodup_append.mp (h.lists.nodup i)
      cases k
      · exact hnodup.1
      · exact hnodup.2.1
    · rintro ⟨a, j⟩ hb i k
      constructor
      · intro ha
        obtain rfl := h.region.manager_eq (h.lists.mem_carved ha) hb
        exact ⟨rfl, (h.mem_iff_kind hb k).mp ha⟩
      · rintro ⟨rfl, hk⟩
        exact (h.mem_iff_kind hb k).mpr hk
  live_carved := by
    rintro ⟨p, i⟩ hb
    obtain ⟨a, ha, rfl⟩ := (h.live p i).mp hb
    exact ⟨a, h.lists.mem_carved ha, rfl⟩
  alloc_apart := by
    intro size ptr pool mem hcall hptr
    rcases h.alloc hplaced size with hnull | ⟨ptr', pool', mem', i, L', hcall', -, hfind, h'⟩
    · rw [hnull] at hcall
      cases hcall
      exact absurd rfl hptr
    · rw [hcall'] at hcall
      cases hcall
      refine ⟨i, hfind, fun b hb => ?_⟩
      have hne : (ptr, i) ≠ b := by
        rintro rfl
        exact (List.nodup_cons.mp h'.live_nodup).1 hb
      have hapart := h'.usable_apart List.mem_cons_self (List.mem_cons_of_mem _ hb) hne
      rwa [h.blockSize_eq h', h.blockSize_eq h'] at hapart
  free_moves := by
    rintro ⟨p, i⟩ hb pool mem hcall
    exact (h.free hplaced hb hcall).1

/-- In every run of clients that write inside their live blocks and free live pointers. -/
theorem reachable_disjoint {obj beg end_ : Nat} (hplaced : Placed obj beg end_) {mem : Mem}
    {s : State} (h : Runs.Reachable State.step (.start obj beg end_ mem) s) : Safe beg end_ s := by
  obtain ⟨L, hintact⟩ := h.invariant ⟨_, start_intact hplaced mem⟩ (step_intact hplaced)
  exact hintact.safe hplaced

def reuse : List Event :=
  [.alloc 12, .alloc 16, .alloc 9, .write 4200 7, .free 4200, .alloc 10]

theorem reuse_disjoint : ∃ s, Runs.exec State.step (.start 64 4096 8192 fun _ => 0) reuse = some s ∧
    s.carved = [(4240, 2), (4168, 2), (4096, 2)] ∧ s.live = [(4200, 2), (4272, 2), (4128, 2)] ∧
    Safe 4096 8192 s := by
  obtain ⟨s, hs, hcarved, hlive⟩ : ∃ s,
      Runs.exec State.step (.start 64 4096 8192 fun _ => 0) reuse = some s ∧
        s.carved = [(4240, 2), (4168, 2), (4096, 2)] ∧
        s.live = [(4200, 2), (4272, 2), (4128, 2)] := ⟨_, rfl, rfl, rfl⟩
  exact ⟨s, hs, hcarved, hlive,
    reachable_disjoint ⟨by decide, by decide, by decide, by decide⟩ ⟨reuse, hs⟩⟩

end Flyzero.Mempool
