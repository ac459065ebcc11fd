import Flyzero.Mempool.Disjoint
import Mathlib.Algebra.BigOperators.Fin

/-! What a pool carves: a block of a class only when all that it has are live. -/
namespace Flyzero.Mempool
open ByteMem

namespace Pool
variable {p q : Pool} {m m' : Mem} {ptr : Nat}

/-- Memory is carved only for a manager without a free block. -/
theorem alloc_carves {size : BitVec 64} (h : p.alloc m size = some (ptr, q, m'))
    (hcur : q.cur ≠ p.cur) :
    ∃ i, findBlockManager (align8 size) = some i ∧ (p.managers i).freeList.head = 0 ∧
      q.cur = p.cur + (p.managers i).implSize := by
  rw [alloc] at h
  cases hfind : findBlockManager (align8 size) with
  | none =>
    rw [hfind] at h
    cases h
    exact absurd rfl hcur
  | some i =>
    rw [hfind] at h
    dsimp only at h
    by_cases hhead : (p.managers i).freeList.head = 0
    · rw [if_pos hhead, allocNew] at h
      by_cases hroom : p.freeSize ≥ (p.managers i).implSize
      · rw [if_pos hroom] at h
        cases h
        exact ⟨i, rfl, hhead, rfl⟩
      · rw [if_neg hroom] at h
        cases h
        exact absurd rfl hcur
    · rw [if_neg hhead] at h
      obtain ⟨⟨block, freeList, m₁⟩, -, heq⟩ := Option.map_eq_some_iff.mp h
      cases heq
      exact absurd rfl hcur

theorem free_cur (h : p.free m ptr = some (q, m')) : q.cur = p.cur := by
  rw [free] at h
  dsimp only at h
  split at h
  · obtain ⟨i, -, h⟩ := Option.bind_eq_some_iff.mp h
    split at h
    · obtain ⟨⟨usedList, m₁⟩, -, heq⟩ := Option.map_eq_some_iff.mp h
      cases heq
      rfl
    · cases h
      rfl
  · cases h
    rfl

end Pool

namespace State

def carefulStep (s : State) : Event → Option State
  | .alloc size => s.step (.alloc size)
  | .free ptr => s.step (.free ptr)
  | .write addr byte =>
    if s.Harmless addr then some { s with mem := Function.update s.mem addr byte } else none

def carvedCount (s : State) (i : Fin 29) : Nat := s.carved.countP (·.2 = i)

def liveCount (s : State) (i : Fin 29) : Nat := s.live.countP (·.2 = i)

end State

theorem countP_class {bs : List (Nat × Fin 29)} {xs : List Nat} {i : Fin 29} (hbs : bs.Nodup)
    (hxs : xs.Nodup) (hmem : ∀ a, (a, i) ∈ bs ↔ a ∈ xs) : bs.countP (·.2 = i) = xs.length := by
  have hnodup : ((bs.filter (·.2 = i)).map (·.1)).Nodup := by
    refine (hbs.filter _).map_on fun b hb c hc heq => ?_
    have hbi := of_decide_eq_true (List.mem_filter.mp hb).2
    have hci := of_decide_eq_true (List.mem_filter.mp hc).2
    exact Prod.ext heq (hbi.trans hci.symm)
  have hperm : ((bs.filter (·.2 = i)).map (·.1)).Perm xs := by
    refine (List.perm_ext_iff_of_nodup hnodup hxs).mpr fun a => ?_
    rw [← hmem]
    simp
  rw [List.countP_eq_length_filter, ← hperm.length_eq, List.length_map]

theorem sum_class {bs : List (Nat × Fin 29)} (size : Fin 29 → Nat) :
    (bs.map fun b => size b.2).sum = ∑ i, bs.countP (·.2 = i) * size i := by
  induction bs with
  | nil => simp
  | cons b bs ih =>
    simp [List.countP_cons, Nat.add_mul, Finset.sum_add_distrib, ih, Nat.add_comm]

section
variable {obj beg end_ : Nat} {s t : State} {L : Fin 29 → Kind → List Nat}

theorem Region.carved_nodup (h : Region beg end_ s) : s.carved.Nodup := by
  refine h.disjoint.imp fun {b c} hbc heq => ?_
  have hsize := s.implSize_eq b.2
  rw [heq, State.Beside] at hbc
  rw [heq] at hsize
  omega

theorem Intact.carvedCount_eq (h : Intact obj beg end_ s L) (i : Fin 29) :
    s.carvedCount i = (L i .free).length + (L i .used).length := by
  rw [State.carvedCount, countP_class h.region.carved_nodup (h.lists.nodup i)
    fun a => h.lists.carved a i, List.length_append]

theorem Intact.liveCount_eq (h : Intact obj beg end_ s L) (i : Fin 29) :
    s.liveCount i = (L i .used).length := by
  have hnodup : ((L i .used).map (· + 32)).Nodup :=
    (List.nodup_append.mp (h.lists.nodup i)).2.1.map fun a b heq => Nat.add_right_cancel heq
  have hmem : ∀ p, (p, i) ∈ s.live ↔ p ∈ (L i .used).map (· + 32) := by
    intro p
    rw [h.live, List.mem_map]
    simp only [eq_comm]
  rw [State.liveCount, countP_class h.live_nodup hnodup hmem, List.length_map]

/-- What a step carves: nothing, or one block of a class without a free one, which is then live. -/
theorem carefulStep_carves (hplaced : Placed obj beg end_) (h : Intact obj beg end_ s L) {e : Event}
    (hstep : s.carefulStep e = some t) :
    (∃ L', Intact obj beg end_ t L') ∧
      (t.carved = s.carved ∧ t.pool.cur = s.pool.cur ∨
        ∃ i ptr, (L i .free) = [] ∧ t.carved = (s.pool.cur, i) :: s.carved ∧
          t.live = (ptr, i) :: s.live ∧ t.pool.cur = s.pool.cur + s.implSize i) := by
  cases e with
  | alloc size =>
    refine ⟨step_intact hplaced s (.alloc size) t hstep ⟨L, h⟩, ?_⟩
    rw [State.carefulStep, State.step] at hstep
    rcases h.alloc hplaced size with hcall | ⟨ptr, pool, mem, i, L', hcall, hptr, hfind, h'⟩
    · rw [hcall] at hstep
      cases hstep
      exact .inl ⟨if_pos rfl, rfl⟩
    · rw [hcall, hfind] at hstep
      cases hstep
      by_cases hcur : pool.cur = s.pool.cur
      · exact .inl ⟨if_pos hcur, hcur⟩
      · obtain ⟨j, hj, hhead, hnext⟩ := Pool.alloc_carves hcall hcur
        obtain rfl : i = j := Option.some.inj (hfind.symm.trans hj)
        have hfree := (h.lists.holds i .free).head_eq_zero.mp hhead
        exact .inr ⟨i, ptr, hfree, if_neg hcur, if_neg hptr, hnext⟩
  | free ptr =>
    refine ⟨step_intact hplaced s (.free ptr) t hstep ⟨L, h⟩, .inl ?_⟩
    obtain ⟨-, hstep⟩ := Option.ite_none_right_eq_some.mp hstep
    obtain ⟨⟨pool, mem⟩, hcall, rfl⟩ := Option.map_eq_some_iff.mp hstep
    exact ⟨rfl, Pool.free_cur hcall⟩
  | write addr byte =>
    obtain ⟨hout, hstep⟩ := Option.ite_none_right_eq_some.mp hstep
    cases hstep
    exact ⟨⟨L, h.poke byte hout⟩, .inl ⟨rfl, rfl⟩⟩

def Filled (beg : Nat) (s : State) : Prop :=
  s.pool.cur = beg + (s.carved.map fun b => s.implSize b.2).sum

theorem carefulStep_filled (hplaced : Placed obj beg end_) (h : Intact obj beg end_ s L)
    (hfilled : Filled beg s) {e : Event} (hstep : s.carefulStep e = some t) : Filled beg t := by
  obtain ⟨⟨L', h'⟩, hcarves⟩ := carefulStep_carves hplaced h hstep
  have himpl (i : Fin 29) : t.implSize i = s.implSize i := by
    rw [State.implSize_eq, State.implSize_eq, h.blockSize_eq h']
  rw [Filled] at hfilled ⊢
  simp only [himpl]
  rcases hcarves with ⟨hcarved, hcur⟩ | ⟨i, ptr, -, hcarved, -, hcur⟩
  · rw [hcarved, hcur, hfilled]
  · rw [hcarved, hcur, List.map_cons, List.sum_cons]
    dsimp only
    omega

theorem carefulStep_counts (hplaced : Placed obj beg end_) (h : Intact obj beg end_ s L)
    {e : Event} (hstep : s.carefulStep e = some t) (i : Fin 29) :
    t.liveCount i ≤ t.carvedCount i ∧ (t.carvedCount i = s.carvedCount i ∨
      s.carvedCount i ≤ t.carvedCount i ∧ t.carvedCount i = t.liveCount i) := by
  obtain ⟨⟨L', h'⟩, hcarves⟩ := carefulStep_carves hplaced h hstep
  refine ⟨by rw [h'.carvedCount_eq, h'.liveCount_eq]; omega, ?_⟩
  rcases hcarves with ⟨hcarved, -⟩ | ⟨j, ptr, hfree, hcarved, hlive, -⟩
  · exact .inl (by rw [State.carvedCount, hcarved, State.carvedCount])
  · have hcarved : t.carvedCount i = s.carvedCount i + if j = i then 1 else 0 := by
      simp [State.carvedCount, hcarved, List.countP_cons]
    have hlive : t.liveCount i = s.liveCount i + if j = i then 1 else 0 := by
      simp [State.liveCount, hlive, List.countP_cons]
    by_cases hji : j = i
    · subst hji
      rw [hcarved, hlive, h.carvedCount_eq, h.liveCount_eq, hfree, List.length_nil]
      exact .inr ⟨by omega, by omega⟩
    · exact .inl (by rw [hcarved, if_neg hji, Nat.add_zero])

end

/-- In every careful run as many blocks of a class are carved as were live at once, and the range
is carved for no others. -/
theorem carved_peak {obj beg end_ : Nat} (hplaced : Placed obj beg end_) {mem : Mem}
    {es : List Event} {s : State}
    (hrun : Runs.exec State.carefulStep (.start obj beg end_ mem) es = some s) :
    (∀ i, IsGreatest {n | ∃ t, Runs.Visits State.carefulStep (.start obj beg end_ mem) es t ∧
      t.liveCount i = n} (s.carvedCount i)) ∧
    s.pool.cur - beg = ∑ i, s.carvedCount i * s.implSize i := by
  have hstart := start_intact hplaced mem
  have hstep : ∀ s e t, s.carefulStep e = some t →
      (∃ L, Intact obj beg end_ s L) ∧ Filled beg s →
        (∃ L, Intact obj beg end_ t L) ∧ Filled beg t := by
    rintro s e t hstep ⟨⟨L, h⟩, hfilled⟩
    exact ⟨(carefulStep_carves hplaced h hstep).1, carefulStep_filled hplaced h hfilled hstep⟩
  constructor
  · intro i
    have hcounts : ∀ s e t, s.carefulStep e = some t →
        (∃ L, Intact obj beg end_ s L) ∧ Filled beg s →
          t.liveCount i ≤ t.carvedCount i ∧ (t.carvedCount i = s.carvedCount i ∨
            s.carvedCount i ≤ t.carvedCount i ∧ t.carvedCount i = t.liveCount i) := by
      rintro s e t hstep ⟨⟨L, h⟩, -⟩
      exact carefulStep_counts hplaced h hstep i
    exact Runs.isGreatest_of_steps (f := (·.liveCount i)) (g := (·.carvedCount i))
      ⟨⟨_, hstart⟩, rfl⟩ rfl hstep hcounts hrun
  · have hfilled := (Runs.exec_invariant hstep hrun ⟨⟨_, hstart⟩, rfl⟩).2
    rw [hfilled, Nat.add_sub_cancel_left]
    exact sum_class s.implSize

def twoLive : List Event :=
  [.alloc 12, .alloc 16, .write 4136 7, .free 4200, .alloc 9, .free 4200, .alloc 10]

theorem twoLive_carves : ∃ s,
    Runs.exec State.carefulStep (.start 64 4096 8192 fun _ => 0) twoLive = some s ∧
    s.carvedCount 2 = 2 ∧ s.pool.cur - 4096 = ∑ i, s.carvedCount i * s.implSize i := by
  obtain ⟨s, hs, hcarved⟩ : ∃ s,
      Runs.exec State.carefulStep (.start 64 4096 8192 fun _ => 0) twoLive = some s ∧
        s.carvedCount 2 = 2 := ⟨_, rfl, rfl⟩
  exact ⟨s, hs, hcarved,
    (carved_peak ⟨by decide, by decide, by decide, by decide⟩ hs).2⟩

end Flyzero.Mempool
