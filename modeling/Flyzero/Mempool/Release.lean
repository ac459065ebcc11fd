import Flyzero.Mempool.Disjoint

/-! Where in its manager's used list a block can be freed. -/
namespace Flyzero.Mempool
open ByteMem

def FreeWorks (s : State) (b : Nat × Fin 29) : Prop :=
  ∃ pool mem fs us, s.pool.free s.mem b.1 = some (pool, mem) ∧
    (s.pool.managers b.2).freeList.Holds s.mem fs ∧
    (s.pool.managers b.2).usedList.Holds s.mem us ∧ b.1 - 32 ∈ us ∧
    (pool.managers b.2).freeList.Holds mem ((b.1 - 32) :: fs) ∧
    (pool.managers b.2).usedList.Holds mem (us.erase (b.1 - 32))

/-- The block is not behind all the others of its used list. -/
def Detachable (s : State) (b : Nat × Fin 29) : Prop :=
  (s.pool.managers b.2).usedList.head = b.1 - 32 ∨ next s.mem (b.1 - 32) ≠ 0

section
variable {obj beg end_ : Nat} {s : State} {L : Fin 29 → Kind → List Nat} {b : Nat × Fin 29}

theorem Intact.free_eq (h : Intact obj beg end_ s L) (hlive : b ∈ s.live) :
    s.pool.free s.mem b.1 =
      ((s.pool.managers b.2).usedList.detach s.mem (b.1 - 32)).map fun r =>
        let pushed := (s.pool.managers b.2).freeList.push r.2 (b.1 - 32)
        (s.pool.setManager b.2
          { s.pool.managers b.2 with freeList := pushed.1, usedList := r.1 }, pushed.2) := by
  obtain ⟨p, i⟩ := b
  obtain ⟨block, hblock, rfl⟩ := (h.live p i).mp hlive
  have hsealed := h.intact _ (h.lists.mem_carved hblock)
  have hsub : block + 32 - 32 = block := Nat.add_sub_cancel block 32
  apply Pool.free_eq
  · rw [hsub]
    exact hsealed.check
  · rw [hsub]
    exact hsealed.named
  · rw [hsub]
    exact hsealed.tail

theorem Intact.mem_used (h : Intact obj beg end_ s L) (hlive : b ∈ s.live) :
    b.1 - 32 ∈ L b.2 .used := by
  obtain ⟨p, i⟩ := b
  obtain ⟨block, hblock, rfl⟩ := (h.live p i).mp hlive
  exact hblock

theorem Intact.free_isSome (h : Intact obj beg end_ s L) (hlive : b ∈ s.live) :
    (s.pool.free s.mem b.1).isSome ↔ Detachable s b := by
  have hnodup := (List.nodup_append.mp (h.lists.nodup b.2)).2.1
  rw [h.free_eq hlive, Option.isSome_map]
  exact BlockList.detach_isSome (h.lists.holds b.2 .used) hnodup (h.mem_used hlive)

theorem Intact.freeWorks (hplaced : Placed obj beg end_) (h : Intact obj beg end_ s L)
    (hlive : b ∈ s.live) (hdetachable : Detachable s b) : FreeWorks s b := by
  obtain ⟨⟨pool, mem⟩, hcall⟩ := Option.isSome_iff_exists.mp
    ((h.free_isSome hlive).mpr hdetachable)
  have hmem := h.mem_used hlive
  have hsealed := h.intact _ (h.lists.mem_carved hmem)
  have hsum : b.1 - 32 + 32 = b.1 := by
    obtain ⟨p, i⟩ := b
    obtain ⟨block, -, rfl⟩ := (h.live p i).mp hlive
    rfl
  have htail := hsealed.tail
  dsimp only at htail
  rw [hsum] at htail
  obtain ⟨freeList, usedList, rfl, hfree, hused, -⟩ :=
    Pool.free_spec hsealed.check hsealed.named htail (h.lists.holds b.2 .free)
      (h.lists.holds b.2 .used) (h.lists.spread h.region hplaced b.2) hmem hcall
  refine ⟨_, mem, _, _, hcall, h.lists.holds b.2 .free, h.lists.holds b.2 .used, hmem, ?_, ?_⟩
  · rw [Pool.setManager_self]
    exact hfree
  · rw [Pool.setManager_self]
    exact hused

end

/-- In every reachable state. -/
theorem free_works_iff {obj beg end_ : Nat} (hplaced : Placed obj beg end_) {mem : Mem} {s : State}
    (hreach : Runs.Reachable State.step (.start obj beg end_ mem) s) {b : Nat × Fin 29}
    (hlive : b ∈ s.live) : FreeWorks s b ↔ Detachable s b := by
  obtain ⟨L, h⟩ := hreach.invariant ⟨_, start_intact hplaced mem⟩ (step_intact hplaced)
  constructor
  · rintro ⟨pool, mem, fs, us, hcall, -⟩
    exact (h.free_isSome hlive).mp (Option.isSome_iff_exists.mpr ⟨_, hcall⟩)
  · exact h.freeWorks hplaced hlive

def twoBlocks : List Event := [.alloc 8, .alloc 8]

theorem twoBlocks_free : ∃ s,
    Runs.exec State.step (.start 64 4096 8192 fun _ => 0) twoBlocks = some s ∧
    (4184, 1) ∈ s.live ∧ FreeWorks s (4184, 1) := by
  obtain ⟨s, hs, hlive, hhead⟩ : ∃ s,
      Runs.exec State.step (.start 64 4096 8192 fun _ => 0) twoBlocks = some s ∧
        (4184, 1) ∈ s.live ∧ (s.pool.managers 1).usedList.head = 4152 :=
    ⟨_, rfl, List.mem_cons_self, rfl⟩
  exact ⟨s, hs, hlive, (free_works_iff ⟨by decide, by decide, by decide, by decide⟩
    ⟨twoBlocks, hs⟩ hlive).mpr (.inl hhead)⟩

theorem twoBlocks_not_free : ∃ s,
    Runs.exec State.step (.start 64 4096 8192 fun _ => 0) twoBlocks = some s ∧
    (4128, 1) ∈ s.live ∧ s.pool.free s.mem 4128 = none ∧ ¬ FreeWorks s (4128, 1) := by
  obtain ⟨s, hs, hlive, hfree⟩ : ∃ s,
      Runs.exec State.step (.start 64 4096 8192 fun _ => 0) twoBlocks = some s ∧
        (4128, 1) ∈ s.live ∧ s.pool.free s.mem 4128 = none :=
    ⟨_, rfl, List.mem_cons_of_mem _ List.mem_cons_self, rfl⟩
  refine ⟨s, hs, hlive, hfree, ?_⟩
  rintro ⟨pool, mem, fs, us, hcall, -⟩
  cases hfree.symm.trans hcall

end Flyzero.Mempool
