import Flyzero.Mempool.Disjoint

/-! A block whose checksums are damaged stays where it is. The damaged run goes on as one in which
nothing is damaged and the block is not freed; the two memories differ in the damaged words only. -/
namespace Flyzero.Mempool
open ByteMem DoublyLinked

section Overlay
variable {D : Nat → Prop} [DecidablePred D] {d m : Mem} {y v : Nat}

def Bare (D : Nat → Prop) (y : Nat) : Prop := y ≠ 0 → Clear D (y + 8) (y + 24)

theorem prev_overlay (h : Clear D (y + 8) (y + 24)) : prev (overlay D d m) y = prev m y :=
  congrArg BitVec.toNat (word_overlay (h.mono (by omega) (by omega)))

theorem next_overlay (h : Clear D (y + 8) (y + 24)) : next (overlay D d m) y = next m y :=
  congrArg BitVec.toNat (word_overlay (h.mono (by omega) (by omega)))

theorem setPrev_overlay (h : Clear D (y + 8) (y + 24)) :
    setPrev (overlay D d m) y v = overlay D d (setPrev m y v) :=
  setWord_overlay (h.mono (by omega) (by omega)) _

theorem setNext_overlay (h : Clear D (y + 8) (y + 24)) :
    setNext (overlay D d m) y v = overlay D d (setNext m y v) :=
  setWord_overlay (h.mono (by omega) (by omega)) _

namespace BlockList
variable {l : BlockList} {xs : List Nat} {node : Nat}

omit [DecidablePred D] in
theorem Holds.bare_head (h : l.Holds m xs) (hclear : ∀ y ∈ xs, Clear D (y + 8) (y + 24)) :
    Bare D l.head := by
  intro hne
  rw [h.head] at hne ⊢
  cases xs with
  | nil => exact absurd rfl hne
  | cons x xs => exact hclear x List.mem_cons_self

omit [DecidablePred D] in
theorem Holds.bare_neighbours (h : l.Holds m xs) (hclear : ∀ y ∈ xs, Clear D (y + 8) (y + 24))
    (hy : y ∈ xs) : Bare D (prev m y) ∧ Bare D (next m y) := by
  have hbare (z : Nat) (hz : z = 0 ∨ z ∈ xs) : Bare D z := by
    intro hne
    exact hclear z (hz.resolve_left hne)
  obtain ⟨hprev, hnext⟩ := h.linked.neighbours hy
  exact ⟨hbare _ hprev, hbare _ hnext⟩

theorem Holds.overlay (h : l.Holds m xs) (hclear : ∀ y ∈ xs, Clear D (y + 8) (y + 24)) :
    l.Holds (overlay D d m) xs := by
  apply h.congr
  intro y hy x hlo hhi
  exact if_neg (hclear y hy x hlo hhi)

theorem push_overlay (hnode : Clear D (node + 8) (node + 24)) (hhead : Bare D l.head) :
    l.push (overlay D d m) node = ((l.push m node).1, overlay D d (l.push m node).2) := by
  unfold push
  rw [setPrev_overlay hnode, setNext_overlay hnode]
  by_cases hzero : l.head = 0
  · simp only [hzero, if_true]
  · simp only [hzero, if_false, setPrev_overlay (hhead hzero)]

theorem pop_overlay (hhead : Bare D l.head) (hnext : l.head ≠ 0 → Bare D (next m l.head)) :
    l.pop (overlay D d m) = (l.pop m).map fun r => (r.1, r.2.1, overlay D d r.2.2) := by
  unfold pop
  by_cases hzero : l.head = 0
  · simp only [hzero, if_true, Option.map_none]
  · rw [if_neg hzero, if_neg hzero, next_overlay (hhead hzero)]
    by_cases hlast : next m l.head = 0
    · simp only [hlast, if_true, Option.map_some]
    · simp only [hlast, if_false, Option.map_some, setPrev_overlay (hnext hzero hlast)]

theorem detach_overlay (hnode : Clear D (node + 8) (node + 24)) (hprev : Bare D (prev m node))
    (hnext : Bare D (next m node)) :
    l.detach (overlay D d m) node = (l.detach m node).map fun r => (r.1, overlay D d r.2) := by
  unfold detach
  rw [prev_overlay hnode, next_overlay hnode]
  by_cases hfront : l.head = node ∧ prev m node = 0
  · have hbare : Bare D l.head := by
      rw [hfront.1]
      exact fun _ => hnode
    have hsecond : l.head ≠ 0 → Bare D (next m l.head) := by
      rw [hfront.1]
      exact fun _ => hnext
    simp only [hfront, if_true, and_self, pop_overlay hbare hsecond, Option.map_map]
    rfl
  · by_cases hnull : prev m node = 0 ∨ next m node = 0
    · simp only [hfront, hnull, if_true, if_false, Option.map_none]
    · obtain ⟨hbefore, hafter⟩ := not_or.mp hnull
      simp only [hfront, hnull, if_false, Option.map_some, setNext_overlay (hprev hbefore),
        setPrev_overlay (hnext hafter)]

end BlockList

namespace Pool
variable {p : Pool} {i : Fin 29}

theorem allocNew_overlay (hfresh : ∀ hi, Clear D p.cur hi)
    (hused : Bare D (p.managers i).usedList.head) :
    p.allocNew (overlay D d m) i =
      ((p.allocNew m i).1, (p.allocNew m i).2.1, overlay D d (p.allocNew m i).2.2) := by
  have himpl : (p.managers i).implSize = 32 + (p.managers i).blockSize.toNat + 8 := rfl
  have hclear {a : Nat} (ha : p.cur ≤ a) : Clear D a (a + 8) := (hfresh _).mono ha le_rfl
  unfold allocNew
  by_cases hroom : p.freeSize ≥ (p.managers i).implSize
  · rw [if_pos hroom, if_pos hroom]
    simp only [setMgr, setChecksum, calcChecksum, mgr, checksum]
    rw [setWord_overlay (hclear le_rfl),
      BlockList.push_overlay ((hfresh _).mono (by omega) le_rfl) hused]
    simp only
    rw [word_overlay (hclear le_rfl), setWord_overlay (hclear (by omega)),
      word_overlay (hclear (by omega)), setWord_overlay (hclear (by omega))]
  · rw [if_neg hroom, if_neg hroom]

theorem allocExist_overlay {fs us : List Nat} (hfree : (p.managers i).freeList.Holds m fs)
    (hused : (p.managers i).usedList.Holds m us)
    (hclear : ∀ y ∈ fs ++ us, Clear D (y + 8) (y + 24)) :
    p.allocExist (overlay D d m) i =
      (p.allocExist m i).map fun r => (r.1, r.2.1, overlay D d r.2.2) := by
  have hfs (y : Nat) (hy : y ∈ fs) := hclear y (List.mem_append_left us hy)
  have hus (y : Nat) (hy : y ∈ us) := hclear y (List.mem_append_right fs hy)
  have hbare := hfree.bare_head hfs
  have hmem (hne : (p.managers i).freeList.head ≠ 0) : (p.managers i).freeList.head ∈ fs := by
    rw [hfree.head] at hne ⊢
    cases fs with
    | nil => exact absurd rfl hne
    | cons y fs => exact List.mem_cons_self
  unfold allocExist
  dsimp only
  rw [BlockList.pop_overlay hbare fun hne => (hfree.bare_neighbours hfs (hmem hne)).2]
  rw [Option.map_map, Option.map_map]
  unfold BlockList.pop
  by_cases hzero : (p.managers i).freeList.head = 0
  · rw [if_pos hzero, Option.map_none, Option.map_none]
  · rw [if_neg hzero, Option.map_some, Option.map_some, Option.some_inj]
    simp only [Function.comp_apply]
    rw [BlockList.push_overlay (hbare hzero) (hused.bare_head hus)]

theorem free_overlay {ptr block : Nat} {us : List Nat} (hblock : ptr - sizeofHeader = block)
    (hheader : Clear D block (block + 32))
    (htail : Clear D (ptr + (p.managers i).blockSize.toNat)
      (ptr + (p.managers i).blockSize.toNat + 8))
    (hnamed : p.managerAt (mgr m block) = some i) (hused : (p.managers i).usedList.Holds m us)
    (hmem : block ∈ us) (hclear : ∀ y ∈ us, Clear D (y + 8) (y + 24))
    (hfree : Bare D (p.managers i).freeList.head) :
    p.free (overlay D d m) ptr = (p.free m ptr).map fun r => (r.1, overlay D d r.2) := by
  have hlinks := hclear _ hmem
  obtain ⟨hprev, hnext⟩ := hused.bare_neighbours hclear hmem
  have hmgr : mgr (overlay D d m) block = mgr m block :=
    word_overlay (hheader.mono le_rfl (by omega))
  have hsum : checksum (overlay D d m) block = checksum m block :=
    word_overlay (hheader.mono (by omega) (by omega))
  have hcheck : check (overlay D d m) block = check m block := by
    rw [check, calcChecksum, hsum, hmgr, check, calcChecksum]
  unfold free
  rw [hblock]
  simp only [hcheck, hmgr, hsum, hnamed, Option.bind_some, word_overlay htail,
    BlockList.detach_overlay hlinks hprev hnext]
  by_cases hsound : check m block = true
  · by_cases hword : checksum m block = word m (ptr + (p.managers i).blockSize.toNat)
    · simp only [hsound, hword, if_true, Option.map_map]
      refine congrFun (congrArg Option.map (funext fun r => ?_)) _
      simp only [Function.comp_apply, BlockList.push_overlay hlinks hfree]
    · simp only [hsound, hword, if_true, if_false, Option.map_some]
  · simp only [hsound, if_false, Option.map_some, Bool.false_eq_true]

end Pool

end Overlay

def Stamp (block size x : Nat) : Prop :=
  block + 24 ≤ x ∧ x < block + 32 ∨ block + 32 + size ≤ x ∧ x < block + 32 + size + 8

instance (block size : Nat) : DecidablePred (Stamp block size) := fun _ =>
  inferInstanceAs (Decidable (_ ∨ _))

/-- Of the carved part of the range only bytes of this block are covered, and of these neither its
links nor its usable bytes. -/
structure Within (D : Nat → Prop) (s : State) (b : Nat × Fin 29) : Prop where
  links : ∀ c ∈ s.carved, Clear D (c.1 + 8) (c.1 + 24)
  usable : ∀ c ∈ s.carved, Clear D (c.1 + 32) (c.1 + 32 + s.blockSize c.2)
  others : ∀ c ∈ s.carved, c ≠ b → Clear D c.1 (c.1 + s.implSize c.2)
  fresh : ∀ hi, Clear D s.pool.cur hi

theorem Region.within {beg end_ : Nat} {s : State} (h : Region beg end_ s) {b : Nat × Fin 29}
    (hb : b ∈ s.carved) : Within (Stamp b.1 (s.blockSize b.2)) s b := by
  have himpl := s.implSize_eq b.2
  have hinside := h.inside b hb
  have hother (c : Nat × Fin 29) (hc : c ∈ s.carved) (hne : c ≠ b) :
      Clear (Stamp b.1 (s.blockSize b.2)) c.1 (c.1 + s.implSize c.2) := by
    have hsep := h.separate hc hb hne
    unfold State.Beside at hsep
    unfold Clear Stamp
    omega
  refine ⟨fun c hc => ?_, fun c hc => ?_, hother, fun hi => ?_⟩
  · by_cases heq : c = b
    · rw [heq]
      unfold Clear Stamp
      omega
    · exact (hother c hc heq).mono (by omega) (by rw [s.implSize_eq]; omega)
  · by_cases heq : c = b
    · rw [heq]
      unfold Clear Stamp
      omega
    · exact (hother c hc heq).mono (by omega) (by rw [s.implSize_eq]; omega)
  · unfold Clear Stamp
    omega

theorem Sealed.checksum_eq {s : State} {b : Nat × Fin 29} (h : Sealed s b) :
    checksum s.mem b.1 = BitVec.ofNat 64 (s.pool.managerAddr b.2) ^^^ BitVec.ofNat 64 b.1 := by
  have hcheck : checksum s.mem b.1 = mgr s.mem b.1 ^^^ BitVec.ofNat 64 b.1 := eq_of_beq h.check
  have hnamed := h.named
  rw [Pool.managerAt] at hnamed
  have hfound := List.find?_some hnamed
  have hmgr : BitVec.ofNat 64 (s.pool.managerAddr b.2) = mgr s.mem b.1 := of_decide_eq_true hfound
  rw [hcheck, hmgr]

section Shadows
variable {obj beg end_ : Nat} {D : Nat → Prop} [DecidablePred D] {d : Mem} {r s t : State}
  {L : Fin 29 → Kind → List Nat} {b : Nat × Fin 29}

omit [DecidablePred D] in
theorem Intact.clear (h : Intact obj beg end_ s L) (hw : Within D s b) {i : Fin 29} {k : Kind}
    {y : Nat} (hy : y ∈ L i k) : Clear D (y + 8) (y + 24) :=
  hw.links (y, i) (h.lists.mem_carved hy)

theorem Intact.alloc_overlay (h : Intact obj beg end_ s L) (hw : Within D s b) (size : BitVec 64) :
    s.pool.alloc (overlay D d s.mem) size =
      (s.pool.alloc s.mem size).map fun r => (r.1, r.2.1, overlay D d r.2.2) := by
  unfold Pool.alloc
  cases findBlockManager (align8 size) with
  | none => rfl
  | some i =>
    have hfree := h.lists.holds i .free
    have hused := h.lists.holds i .used
    have hclear (y : Nat) (hy : y ∈ L i .free ++ L i .used) : Clear D (y + 8) (y + 24) := by
      cases List.mem_append.mp hy with
      | inl hy => exact h.clear hw hy
      | inr hy => exact h.clear hw hy
    dsimp only
    by_cases hhead : (s.pool.managers i).freeList.head = 0
    · rw [if_pos hhead, if_pos hhead, Option.map_some,
        Pool.allocNew_overlay hw.fresh (hused.bare_head fun y hy => h.clear hw hy)]
    · rw [if_neg hhead, if_neg hhead, Pool.allocExist_overlay hfree hused hclear]

theorem Intact.free_overlay (h : Intact obj beg end_ s L) (hw : Within D s b) {block : Nat}
    {i : Fin 29} (hblock : block ∈ L i .used) (hne : (block, i) ≠ b) :
    s.pool.free (overlay D d s.mem) (block + 32) =
      (s.pool.free s.mem (block + 32)).map fun r => (r.1, overlay D d r.2) := by
  have hcarved := h.lists.mem_carved hblock
  have hwhole := hw.others _ hcarved hne
  have himpl : s.implSize i = 32 + (s.pool.managers i).blockSize.toNat + 8 := rfl
  refine Pool.free_overlay rfl (hwhole.mono (by simp [sizeofHeader]) ?_) (hwhole.mono ?_ ?_)
    (h.intact _ hcarved).named (h.lists.holds i .used) hblock (fun y hy => h.clear hw hy)
    ((h.lists.holds i .free).bare_head fun y hy => h.clear hw hy)
  · dsimp only [sizeofHeader]
    omega
  · dsimp only
    omega
  · dsimp only
    omega

theorem Intact.refused (h : Intact obj beg end_ s L) (hb : b ∈ s.carved)
    (hdamaged : word d (b.1 + 24) ≠ checksum s.mem b.1 ∨
      word d (b.1 + 32 + s.blockSize b.2) ≠ checksum s.mem b.1) :
    s.pool.free (overlay (Stamp b.1 (s.blockSize b.2)) d s.mem) (b.1 + 32) =
      some (s.pool, overlay (Stamp b.1 (s.blockSize b.2)) d s.mem) := by
  have hsealed := h.intact b hb
  let m := overlay (Stamp b.1 (s.blockSize b.2)) d s.mem
  have hmgr : mgr m b.1 = mgr s.mem b.1 := by
    apply word_overlay
    unfold Clear Stamp
    omega
  have hsum : checksum m b.1 = word d (b.1 + 24) := by
    apply word_overlay_covered
    unfold Stamp
    omega
  have htail : word m (b.1 + 32 + s.blockSize b.2) = word d (b.1 + 32 + s.blockSize b.2) := by
    apply word_overlay_covered
    unfold Stamp
    omega
  have hcalc : calcChecksum m b.1 = checksum s.mem b.1 := by
    rw [calcChecksum, hmgr]
    exact (eq_of_beq hsealed.check).symm
  change s.pool.free m (b.1 + 32) = some (s.pool, m)
  unfold Pool.free
  rw [show b.1 + 32 - sizeofHeader = b.1 from Nat.add_sub_cancel b.1 32]
  by_cases hheader : word d (b.1 + 24) = checksum s.mem b.1
  · have hne := hdamaged.resolve_left (not_not.mpr hheader)
    rw [if_pos (by rw [check, hsum, hcalc, hheader, beq_self_eq_true]), hmgr, hsealed.named,
      Option.bind_some]
    refine if_neg ?_
    rw [hsum, hheader]
    intro heq
    exact hne (htail.symm.trans heq.symm)
  · refine if_neg ?_
    rw [check, hsum, hcalc]
    exact fun heq => hheader (eq_of_beq heq)

/-- `t` has the memory of `r` but for the damage; of the clients' pointers only that to the damaged
block may be missing. -/
structure Shadow (D : Nat → Prop) [DecidablePred D] (d : Mem) (b : Nat × Fin 29) (r t : State) :
    Prop where
  pool : t.pool = r.pool
  mem : t.mem = overlay D d r.mem
  carved : t.carved = r.carved
  stays : (b.1 + 32, b.2) ∈ r.live
  live : ∀ c ≠ (b.1 + 32, b.2), c ∈ t.live ↔ c ∈ r.live

theorem Shadow.live_sub (h : Shadow D d b r t) {c : Nat × Fin 29} (hc : c ∈ t.live) :
    c ∈ r.live := by
  by_cases heq : c = (b.1 + 32, b.2)
  · exact heq ▸ h.stays
  · exact (h.live c heq).mp hc

theorem Intact.live_eq (h : Intact obj beg end_ s L) {p : Nat} {i j : Fin 29}
    (hi : (p, i) ∈ s.live) (hj : (p, j) ∈ s.live) : i = j := by
  obtain ⟨a, ha, rfl⟩ := (h.live p i).mp hi
  obtain ⟨c, hc, heq⟩ := (h.live _ j).mp hj
  obtain rfl := Nat.add_right_cancel heq
  exact h.region.manager_eq (h.lists.mem_carved ha) (h.lists.mem_carved hc)

/-- What the damaged run does, the other does too, but for a `free` of the damaged block. -/
theorem Shadow.step {t' : State} (hplaced : Placed obj beg end_) (hr : Intact obj beg end_ r L)
    (hw : Within D r b) (h : Shadow D d b r t)
    (hrefused : r.pool.free (overlay D d r.mem) (b.1 + 32) = some (r.pool, overlay D d r.mem))
    {e : Event} (hstep : t.step e = some t') :
    ∃ r', (∃ L', Intact obj beg end_ r' L') ∧ Shadow D d b r' t' := by
  have hkept (e : Event) (r' : State) (hr' : r.step e = some r') :
      ∃ L', Intact obj beg end_ r' L' := step_intact hplaced r e r' hr' ⟨L, hr⟩
  cases e with
  | alloc size =>
    rw [State.step, h.pool, h.mem, hr.alloc_overlay hw, Option.map_map] at hstep
    obtain ⟨⟨ptr, pool, mem⟩, hcall, rfl⟩ := Option.map_eq_some_iff.mp hstep
    let manager := (findBlockManager (align8 size)).toList
    let carved :=
      if pool.cur = r.pool.cur then r.carved
      else manager.map (fun i => (r.pool.cur, i)) ++ r.carved
    let live := if ptr = 0 then r.live else manager.map (fun i => (ptr, i)) ++ r.live
    have hcall' : r.step (.alloc size) = some { pool, mem, carved, live } := by
      rw [State.step, hcall]
      rfl
    refine ⟨_, hkept _ _ hcall', rfl, rfl, ?_, ?_, fun c hc => ?_⟩
    · simp only [Function.comp_apply, h.carved, carved, manager]
    · unfold live
      split
      · exact h.stays
      · exact List.mem_append_right _ h.stays
    · simp only [Function.comp_apply, live]
      split
      · exact h.live c hc
      · rw [List.mem_append, List.mem_append, h.live c hc]
  | free ptr =>
    obtain ⟨hmem, hstep⟩ := Option.ite_none_right_eq_some.mp hstep
    obtain ⟨⟨p, i⟩, hlive, rfl⟩ := List.mem_map.mp hmem
    have hlive' := h.live_sub hlive
    obtain ⟨block, hblock, rfl⟩ := (hr.live p i).mp hlive'
    by_cases heq : (block, i) = b
    · subst heq
      rw [h.pool, h.mem, hrefused] at hstep
      cases hstep
      refine ⟨r, ⟨L, hr⟩, rfl, rfl, h.carved, h.stays, fun c hc => ?_⟩
      rw [List.mem_filter, ← h.live c hc]
      refine and_iff_left_of_imp fun hmem => decide_eq_true fun hptr => hc ?_
      obtain ⟨q, j⟩ := c
      obtain rfl : q = block + 32 := hptr
      rw [hr.live_eq (h.live_sub hmem) hlive']
    · rw [h.pool, h.mem, hr.free_overlay hw hblock heq, Option.map_map] at hstep
      obtain ⟨⟨pool, mem⟩, hcall, rfl⟩ := Option.map_eq_some_iff.mp hstep
      have hcall' : r.step (.free (block + 32)) =
          some { r with pool, mem, live := r.live.filter (·.1 ≠ block + 32) } := by
        rw [State.step, if_pos (List.mem_map.mpr ⟨_, hlive', rfl⟩), hcall]
        rfl
      refine ⟨_, hkept _ _ hcall', rfl, rfl, h.carved, ?_, fun c hc => ?_⟩
      · refine List.mem_filter.mpr ⟨h.stays, decide_eq_true fun hptr => heq ?_⟩
        obtain ⟨a, j⟩ := b
        obtain rfl : a = block := Nat.add_right_cancel hptr
        rw [hr.live_eq hlive' h.stays]
      · simp only [Function.comp_apply, List.mem_filter, h.live c hc]
  | write addr byte =>
    obtain ⟨⟨⟨p, i⟩, hlive, hlo, hhi⟩, hstep⟩ := Option.ite_none_right_eq_some.mp hstep
    cases hstep
    have hsize : t.blockSize i = r.blockSize i := by rw [State.blockSize, h.pool, State.blockSize]
    have hlive' := h.live_sub hlive
    obtain ⟨block, hblock, rfl⟩ := (hr.live p i).mp hlive'
    have hout : ¬ D addr := hw.usable _ (hr.lists.mem_carved hblock) addr hlo (hsize ▸ hhi)
    have hcall : r.step (.write addr byte) =
        some { r with mem := Function.update r.mem addr byte } := by
      rw [State.step, if_pos ⟨_, hlive', hlo, hsize ▸ hhi⟩]
    refine ⟨_, hkept _ _ hcall, h.pool, ?_, h.carved, h.stays, h.live⟩
    rw [h.mem]
    exact update_overlay hout byte

end Shadows

def State.damage (s : State) (b : Nat × Fin 29) (header tail : BitVec 64) : State :=
  { s with mem := setWord (setChecksum s.mem (b.1 - 32) header) (b.1 + s.blockSize b.2) tail }

/-- The block of `b` is refused and not handed out. All other blocks are disjoint, intact and each on
its one list; what `alloc` hands out next is apart from all that is live, and `free` of another live
pointer frees its block. -/
structure Quarantined (beg end_ : Nat) (b : Nat × Fin 29) (s : State) : Prop where
  refused : s.pool.free s.mem b.1 = some (s.pool, s.mem)
  alloc_outside : ∀ size ptr pool mem, s.pool.alloc s.mem size = some (ptr, pool, mem) → ptr ≠ 0 →
    ptr < b.1 - 32 ∨ b.1 - 32 + s.implSize b.2 ≤ ptr
  region : Region beg end_ s
  intact : ∀ c ∈ s.carved, c ≠ (b.1 - 32, b.2) → Sealed s c
  listed : ∃ L : Fin 29 → Kind → List Nat,
    (∀ i k, ((s.pool.managers i).list k).Holds s.mem (L i k) ∧ (L i k).Nodup) ∧
    (∀ i k, ∀ a ∈ L i k, (a, i) ∈ s.carved) ∧
    (∀ i k, b.1 - 32 ∈ L i k ↔ i = b.2 ∧ k = .used) ∧
    ∀ c ∈ s.carved, c ≠ (b.1 - 32, b.2) → ∀ i k, c.1 ∈ L i k ↔ i = c.2 ∧ k = s.kind c
  live_carved : ∀ c ∈ s.live, ∃ a, (a, c.2) ∈ s.carved ∧ c.1 = a + 32
  alloc_apart : ∀ size ptr pool mem, s.pool.alloc s.mem size = some (ptr, pool, mem) → ptr ≠ 0 →
    ∃ i, findBlockManager (align8 size) = some i ∧ ∀ c ∈ s.live,
      ptr + s.blockSize i ≤ c.1 ∨ c.1 + s.blockSize c.2 ≤ ptr
  free_moves : ∀ c ∈ s.live, c ≠ b → ∀ pool mem, s.pool.free s.mem c.1 = some (pool, mem) →
    (pool.managers c.2).freeList.head = c.1 - 32

section Quarantine
variable {obj beg end_ : Nat} {r s t : State} {L : Fin 29 → Kind → List Nat} {b : Nat × Fin 29}
  {D : Nat → Prop} [DecidablePred D] {d : Mem}

theorem Intact.alloc_outside (hplaced : Placed obj beg end_) (h : Intact obj beg end_ s L)
    (hlive : (b.1 + 32, b.2) ∈ s.live) {size : BitVec 64} {ptr : Nat} {pool : Pool} {mem : Mem}
    (hcall : s.pool.alloc s.mem size = some (ptr, pool, mem))
    (hptr : ptr ≠ 0) : ptr < b.1 ∨ b.1 + s.implSize b.2 ≤ ptr := by
  rcases h.alloc hplaced size with hnull | ⟨ptr', pool', mem', i, L', hcall', -, -, h'⟩
  · rw [hnull] at hcall
    cases hcall
    exact absurd rfl hptr
  · rw [hcall'] at hcall
    cases hcall
    obtain ⟨a, ha, rfl⟩ := (h'.live ptr i).mp List.mem_cons_self
    obtain ⟨c, hc, heq⟩ := (h'.live _ _).mp (List.mem_cons_of_mem _ hlive)
    obtain rfl := Nat.add_right_cancel heq
    have hne : (b.1 + 32, b.2) ≠ (a + 32, i) := by
      intro heq
      exact (List.nodup_cons.mp h'.live_nodup).1 (heq ▸ hlive)
    have hsep := h'.region.separate (h'.lists.mem_carved hc) (h'.lists.mem_carved ha) (by grind)
    have hsize := h.blockSize_eq h' b.2
    rw [State.Beside, State.implSize_eq, State.implSize_eq] at hsep
    rw [s.implSize_eq]
    dsimp only at *
    omega

theorem Shadow.quarantined (hplaced : Placed obj beg end_) (hr : Intact obj beg end_ r L)
    (hw : Within D r b) (hb : b ∈ r.carved) (h : Shadow D d b r t)
    (hrefused : r.pool.free (overlay D d r.mem) (b.1 + 32) = some (r.pool, overlay D d r.mem)) :
    Quarantined beg end_ (b.1 + 32, b.2) t := by
  have hsafe := hr.safe hplaced
  have halloc (size : BitVec 64) (ptr : Nat) (pool : Pool) (mem : Mem)
      (hcall : t.pool.alloc t.mem size = some (ptr, pool, mem)) :
      ∃ mem', r.pool.alloc r.mem size = some (ptr, pool, mem') := by
    rw [h.pool, h.mem, hr.alloc_overlay hw] at hcall
    obtain ⟨⟨ptr', pool', mem'⟩, hcall', heq⟩ := Option.map_eq_some_iff.mp hcall
    cases heq
    exact ⟨mem', hcall'⟩
  have hsize (i : Fin 29) : t.blockSize i = r.blockSize i := by
    rw [State.blockSize, h.pool, State.blockSize]
  have himpl (i : Fin 29) : t.implSize i = r.implSize i := by
    rw [State.implSize, h.pool, State.implSize]
  have hpool : SamePool r.pool t.pool := h.pool ▸ .refl _
  have hcur : t.pool.cur = r.pool.cur := by rw [h.pool]
  have hsub : b.1 + 32 - 32 = b.1 := Nat.add_sub_cancel b.1 32
  constructor
  · rw [h.pool, h.mem]
    exact hrefused
  · intro size ptr pool mem hcall hptr
    obtain ⟨mem', hcall'⟩ := halloc size ptr pool mem hcall
    rw [hsub, himpl]
    exact hr.alloc_outside hplaced h.stays hcall' hptr
  · exact hr.region.congr hpool hcur h.carved
  · intro c hc hne
    rw [hsub] at hne
    rw [h.carved] at hc
    apply (hr.intact c hc).congr hpool
    intro x hlo hhi _ _
    rw [h.mem]
    exact if_neg (hw.others c hc hne x hlo hhi)
  · have hkind (k : Kind) : k = r.kind b ↔ k = .used := by rw [State.kind, if_pos h.stays]
    obtain ⟨L', hholds, hmem, hone⟩ := hsafe.listed
    refine ⟨L', fun i k => ⟨?_, (hholds i k).2⟩, fun i k a ha => ?_, fun i k => ?_, ?_⟩
    · rw [h.pool, h.mem]
      exact (hholds i k).1.overlay fun y hy => hw.links _ (hmem i k y hy)
    · rw [h.carved]
      exact hmem i k a ha
    · rw [hsub, hone b hb i k, hkind]
    · intro c hc hne i k
      rw [hsub] at hne
      rw [h.carved] at hc
      have hkind : t.kind c = r.kind c := by
        simp only [State.kind, h.live (c.1 + 32, c.2) (by grind)]
      rw [hone c hc i k, hkind]
  · intro c hc
    rw [h.carved]
    exact hsafe.live_carved c (h.live_sub hc)
  · intro size ptr pool mem hcall hptr
    obtain ⟨mem', hcall'⟩ := halloc size ptr pool mem hcall
    obtain ⟨i, hfind, hapart⟩ := hsafe.alloc_apart size ptr pool mem' hcall' hptr
    refine ⟨i, hfind, fun c hc => ?_⟩
    rw [hsize, hsize]
    exact hapart c (h.live_sub hc)
  · rintro ⟨p, i⟩ hc hne pool mem hcall
    have hlive := h.live_sub hc
    obtain ⟨block, hblock, rfl⟩ := (hr.live p i).mp hlive
    have hother : (block, i) ≠ b := by
      rintro rfl
      exact hne rfl
    rw [h.pool, h.mem, hr.free_overlay hw hblock hother] at hcall
    obtain ⟨⟨pool', mem'⟩, hcall', heq⟩ := Option.map_eq_some_iff.mp hcall
    cases heq
    exact hsafe.free_moves _ hlive _ _ hcall'

theorem Intact.checksum_eq {L' : Fin 29 → Kind → List Nat} (hs : Intact obj beg end_ s L)
    (hr : Intact obj beg end_ r L') (hb : b ∈ s.carved) (hb' : b ∈ r.carved) :
    checksum r.mem b.1 = checksum s.mem b.1 := by
  have hself : r.pool.self = s.pool.self := hr.pool.self.trans hs.pool.self.symm
  rw [(hr.intact b hb').checksum_eq, (hs.intact b hb).checksum_eq, Pool.managerAddr,
    Pool.managerAddr, hself]

theorem damage_mem (s : State) (block : Nat) (i : Fin 29) (header tail : BitVec 64) :
    (s.damage (block + 32, i) header tail).mem =
      setWord (setWord s.mem (block + 24) header) (block + 32 + s.blockSize i) tail := rfl

theorem damage_words (s : State) (block : Nat) (i : Fin 29) (header tail : BitVec 64) :
    word (s.damage (block + 32, i) header tail).mem (block + 24) = header ∧
      word (s.damage (block + 32, i) header tail).mem (block + 32 + s.blockSize i) = tail := by
  rw [damage_mem, word_setWord, word_setWord_disjoint _ _ (.inl (by omega)), word_setWord]
  exact ⟨rfl, rfl⟩

theorem damage_overlay (s : State) (block : Nat) (i : Fin 29) (header tail : BitVec 64) :
    overlay (Stamp block (s.blockSize i)) (s.damage (block + 32, i) header tail).mem s.mem =
      (s.damage (block + 32, i) header tail).mem := by
  apply overlay_eq
  intro x hx
  unfold Stamp at hx
  rw [damage_mem, setWord_outside _ _ (by omega), setWord_outside _ _ (by omega)]

end Quarantine

/-- In every state that a run reaches after one of the two checksums of a live block has changed. -/
theorem damaged_quarantined {obj beg end_ : Nat} (hplaced : Placed obj beg end_) {mem : Mem}
    {s : State} (hreach : Runs.Reachable State.step (.start obj beg end_ mem) s)
    {b : Nat × Fin 29} (hb : b ∈ s.live) {header tail : BitVec 64}
    (hdamaged : header ≠ checksum s.mem (b.1 - 32) ∨
      tail ≠ word s.mem (b.1 + s.blockSize b.2)) {es : List Event} {t : State}
    (hrun : Runs.exec State.step (s.damage b header tail) es = some t) :
    Quarantined beg end_ b t := by
  obtain ⟨L, hs⟩ := hreach.invariant ⟨_, start_intact hplaced mem⟩ (step_intact hplaced)
  obtain ⟨p, i⟩ := b
  obtain ⟨block, hblock, rfl⟩ := (hs.live p i).mp hb
  have hcarved : (block, i) ∈ s.carved := hs.lists.mem_carved hblock
  let D := Stamp block (s.blockSize i)
  let d := (s.damage (block + 32, i) header tail).mem
  have hwords : word d (block + 24) ≠ checksum s.mem block ∨
      word d (block + 32 + s.blockSize i) ≠ checksum s.mem block := by
    obtain ⟨hheader, htail⟩ := damage_words s block i header tail
    rw [hheader, htail, (hs.intact _ hcarved).tail]
    rw [show block + 32 - 32 = block from Nat.add_sub_cancel block 32,
      (hs.intact _ hcarved).tail] at hdamaged
    exact hdamaged
  -- The facts the simulation needs hold in every intact state where the block is live.
  have hfacts (r : State) (L' : Fin 29 → Kind → List Nat) (hr : Intact obj beg end_ r L')
      (hlive : (block + 32, i) ∈ r.live) : Within D r (block, i) ∧ (block, i) ∈ r.carved ∧
        r.pool.free (overlay D d r.mem) (block + 32) = some (r.pool, overlay D d r.mem) := by
    obtain ⟨a, ha, heq⟩ := (hr.live _ i).mp hlive
    obtain rfl := Nat.add_right_cancel heq
    have hcarved' : (block, i) ∈ r.carved := hr.lists.mem_carved ha
    have hsize := hs.blockSize_eq hr i
    have hwithin := hr.region.within hcarved'
    have hrefused := hr.refused hcarved' (d := d)
    rw [hs.checksum_eq hr hcarved hcarved', hsize] at hrefused
    rw [hsize] at hwithin
    exact ⟨hwithin, hcarved', hrefused hwords⟩
  have hstart : Shadow D d (block, i) s (s.damage (block + 32, i) header tail) :=
    ⟨rfl, (damage_overlay s block i header tail).symm, rfl, hb, fun c _ => Iff.rfl⟩
  have hstep : ∀ u e u', State.step u e = some u' →
      (∃ r, (∃ L, Intact obj beg end_ r L) ∧ Shadow D d (block, i) r u) →
      ∃ r, (∃ L, Intact obj beg end_ r L) ∧ Shadow D d (block, i) r u' := by
    rintro u e u' hstep ⟨r, ⟨L', hr⟩, h⟩
    obtain ⟨hw, -, hrefused⟩ := hfacts r L' hr h.stays
    exact h.step hplaced hr hw hrefused hstep
  obtain ⟨r, ⟨L', hr⟩, hshadow⟩ := Runs.exec_invariant hstep hrun ⟨s, ⟨L, hs⟩, hstart⟩
  obtain ⟨hw, hcarved', hrefused⟩ := hfacts r L' hr hshadow.stays
  exact hshadow.quarantined hplaced hr hw hcarved' hrefused

def afterDamage : List Event := [.free 4200, .alloc 10, .free 4272, .alloc 9]

theorem afterDamage_quarantined : ∃ s t,
    Runs.exec State.step (.start 64 4096 8192 fun _ => 0) [.alloc 12, .alloc 16, .alloc 9] = some s ∧
    Runs.exec State.step (s.damage (4200, 2) 5 0) afterDamage = some t ∧
    t.live = [(4272, 2), (4344, 2), (4128, 2)] ∧ Quarantined 4096 8192 (4200, 2) t := by
  obtain ⟨s, t, hs, ht, hmem, hheader, hlive⟩ : ∃ s t,
      Runs.exec State.step (.start 64 4096 8192 fun _ => 0) [.alloc 12, .alloc 16, .alloc 9] =
        some s ∧
      Runs.exec State.step (s.damage (4200, 2) 5 0) afterDamage = some t ∧ (4200, 2) ∈ s.live ∧
      (5 : BitVec 64) ≠ checksum s.mem 4168 ∧ t.live = [(4272, 2), (4344, 2), (4128, 2)] :=
    ⟨_, _, rfl, rfl, by decide, by decide, rfl⟩
  exact ⟨s, t, hs, ht, hlive, damaged_quarantined ⟨by decide, by decide, by decide, by decide⟩
    ⟨_, hs⟩ hmem (.inl hheader) ht⟩

end Flyzero.Mempool
