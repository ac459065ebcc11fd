import Mathlib.Data.Multiset.AddSub
import Mathlib.Tactic.Common

/-! Binary heaps in arrays, ordered by a comparison `gt a b`: `a` comes out after `b`. -/
namespace BinHeap
variable {α : Type*}

/-- A strict weak ordering, by what it does not put after what. -/
class StrictWeak (gt : α → α → Bool) : Prop where
  asymm : ∀ a b, gt a b = true → gt b a = false
  trans : ∀ a b c, gt a b = false → gt b c = false → gt a c = false

def parent (i : Nat) : Nat := (i - 1) / 2

theorem parent_lt {i : Nat} (h : i ≠ 0) : parent i < i := by
  unfold parent
  omega

def swapped (i j x : Nat) : Nat := if x = i then j else if x = j then i else x

theorem swapped_lt {i j x n : Nat} (hi : i < n) (hj : j < n) (hx : x < n) : swapped i j x < n := by
  unfold swapped
  split
  · exact hj
  · split
    · exact hi
    · exact hx

theorem getElem_swapped {a : Array α} {i j x : Nat} (hi : i < a.size) (hj : j < a.size)
    (hx : x < (a.swap i j).size) (hs : swapped i j x < a.size) :
    (a.swap i j)[x] = a[swapped i j x] := by
  rw [Array.getElem_swap]
  unfold swapped
  split
  · rfl
  · split <;> rfl

/-- Cell `i` does not come after cell `j`; cells outside the array are no constraint. -/
def Le (gt : α → α → Bool) (a : Array α) (i j : Nat) : Prop :=
  ∀ (hi : i < a.size) (hj : j < a.size), gt a[i] a[j] = false

variable {gt : α → α → Bool}

theorem Le.refl [StrictWeak gt] (a : Array α) (i : Nat) : Le gt a i i := by
  intro hi _
  by_contra h
  have h : gt a[i] a[i] = true := by simpa using h
  rw [StrictWeak.asymm _ _ h] at h
  cases h

theorem Le.trans [StrictWeak gt] {a : Array α} {i j k : Nat} (hj : j < a.size)
    (hij : Le gt a i j) (hjk : Le gt a j k) : Le gt a i k :=
  fun hi hk => StrictWeak.trans _ _ _ (hij hi hj) (hjk hj hk)

theorem Le.swap {a : Array α} {i j x y : Nat} (hi : i < a.size) (hj : j < a.size)
    (h : Le gt a (swapped i j x) (swapped i j y)) : Le gt (a.swap i j) x y := by
  intro hx hy
  rw [Array.size_swap] at hx hy
  have hsx := swapped_lt hi hj hx
  have hsy := swapped_lt hi hj hy
  rw [getElem_swapped hi hj _ hsx, getElem_swapped hi hj _ hsy]
  exact h hsx hsy

def Ordered (gt : α → α → Bool) (a : Array α) : Prop := ∀ i, i ≠ 0 → Le gt a (parent i) i

theorem Ordered.head [StrictWeak gt] {a : Array α} (h : Ordered gt a) (i : Nat)
    (hi : i < a.size) : Le gt a 0 i := by
  induction i using Nat.strongRecOn with
  | ind i ih =>
    rcases Nat.eq_zero_or_pos i with rfl | hpos
    · exact Le.refl a 0
    · have hp := parent_lt hpos.ne'
      exact (ih _ hp (hp.trans hi)).trans (hp.trans hi) (h i hpos.ne')

/-- `push_heap`: the entry moves up while its parent comes after it. -/
def siftUp (gt : α → α → Bool) (a : Array α) (i : Nat) (hi : i < a.size) : Array α :=
  if h0 : i = 0 then a
  else
    have hp : parent i < a.size := (parent_lt h0).trans hi
    if gt a[parent i] a[i] then
      siftUp gt (a.swap i (parent i)) (parent i) (by rwa [Array.size_swap])
    else a
termination_by i
decreasing_by exact parent_lt h0

theorem siftUp_perm (gt : α → α → Bool) (a : Array α) (i : Nat) (hi : i < a.size) :
    (siftUp gt a i hi).Perm a := by
  fun_induction siftUp gt a i hi with
  | case1 => exact .refl _
  | case2 a i hi h0 hp hgt ih => exact ih.trans (Array.swap_perm hi hp)
  | case3 => exact .refl _

/-- Ordered but for cell `i`, which may come before its parent. -/
structure OrderedAbove (gt : α → α → Bool) (a : Array α) (i : Nat) : Prop where
  others : ∀ j, j ≠ 0 → j ≠ i → Le gt a (parent j) j
  across : ∀ j, j ≠ 0 → parent j = i → i ≠ 0 → Le gt a (parent i) j

theorem siftUp_ordered [StrictWeak gt] (a : Array α) (i : Nat) (hi : i < a.size)
    (h : OrderedAbove gt a i) : Ordered gt (siftUp gt a i hi) := by
  fun_induction siftUp gt a i hi with
  | case1 a hi => exact fun j hj => h.others j hj hj
  | case2 a i hi h0 hp hgt ih =>
    have hlt := parent_lt h0
    have hup : Le gt a i (parent i) := fun _ _ => StrictWeak.asymm _ _ hgt
    refine ih ⟨fun j hj hne => ?_, fun j hj hpar hp0 => ?_⟩
    · apply Le.swap hi hp
      have hj' := parent_lt hj
      by_cases hji : j = i
      · subst hji
        simpa [swapped, hlt.ne] using hup
      by_cases hpi : parent j = i
      · simpa [swapped, hpi, hji, hne] using h.across j hj hpi h0
      by_cases hpp : parent j = parent i
      · simpa [swapped, hpp, hlt.ne, hji, hne] using hup.trans hp (hpp ▸ h.others j hj hji)
      · simpa [swapped, hpi, hpp, hji, hne] using h.others j hj hji
    · apply Le.swap hi hp
      have hpp := parent_lt hp0
      have hgrand := h.others _ hp0 hlt.ne
      have hj' := parent_lt hj
      have hjp : j ≠ parent i := by omega
      by_cases hji : j = i
      · subst hji
        simpa [swapped, (hpp.trans hlt).ne, hpp.ne] using hgrand
      · simpa [swapped, (hpp.trans hlt).ne, hpp.ne, hji, hjp] using
          hgrand.trans hp (hpar ▸ h.others j hj hji)
  | case3 a i hi h0 hp hgt =>
    intro j hj
    by_cases hji : j = i
    · subst hji
      exact fun _ _ => by simpa using hgt
    · exact h.others j hj hji

theorem siftUp_head (a : Array α) (i : Nat) (hi : i < a.size) (hle : Le gt a 0 i) :
    (siftUp gt a i hi)[0]? = a[0]? := by
  fun_induction siftUp gt a i hi with
  | case1 => rfl
  | case2 a i hi h0 hp hgt ih =>
    have hpos : parent i ≠ 0 := by
      intro hpar
      have := hle (hpar ▸ hp) hi
      simp only [hpar] at hgt
      rw [this] at hgt
      cases hgt
    have h0i : 0 ≠ i := Ne.symm h0
    rw [ih (Le.swap hi hp (by simpa [swapped, h0i, hpos.symm, (parent_lt h0).ne] using hle)),
      Array.getElem?_swap, if_neg hpos, if_neg h0]
  | case3 => rfl

theorem siftUp_head_or (a : Array α) (i : Nat) (hi : i < a.size) :
    (siftUp gt a i hi)[0]? = a[0]? ∨ (siftUp gt a i hi)[0]? = a[i]? := by
  fun_induction siftUp gt a i hi with
  | case1 => exact .inl rfl
  | case2 a i hi h0 hp hgt ih =>
    rw [Array.getElem?_swap (k := 0), Array.getElem?_swap, if_pos rfl, if_neg h0,
      ← Array.getElem?_eq_getElem hi] at ih
    rcases ih with ih | ih
    · rw [ih]
      split
      · exact .inr rfl
      · exact .inl rfl
    · exact .inr ih
  | case3 => exact .inl rfl

def firstChild (gt : α → α → Bool) (a : Array α) (i : Nat) : Nat :=
  if h : 2 * i + 2 < a.size then
    if gt a[2 * i + 1] a[2 * i + 2] then 2 * i + 2 else 2 * i + 1
  else 2 * i + 1

theorem firstChild_eq (gt : α → α → Bool) (a : Array α) (i : Nat) :
    firstChild gt a i = 2 * i + 1 ∨ firstChild gt a i = 2 * i + 2 ∧ 2 * i + 2 < a.size := by
  unfold firstChild
  split
  · rename_i h
    split
    · exact .inr ⟨rfl, h⟩
    · exact .inl rfl
  · exact .inl rfl

theorem parent_firstChild (gt : α → α → Bool) (a : Array α) (i : Nat) :
    parent (firstChild gt a i) = i := by
  rcases firstChild_eq gt a i with h | ⟨h, -⟩ <;> rw [h, parent] <;> omega

theorem firstChild_gt (gt : α → α → Bool) (a : Array α) (i : Nat) : i < firstChild gt a i := by
  rcases firstChild_eq gt a i with h | ⟨h, -⟩ <;> omega

theorem le_firstChild [StrictWeak gt] (a : Array α) {i j : Nat} (hj : j ≠ 0) (hpar : parent j = i) :
    Le gt a (firstChild gt a i) j := by
  have hcase : j = 2 * i + 1 ∨ j = 2 * i + 2 := by
    unfold parent at hpar
    omega
  unfold firstChild
  split
  · split
    · rename_i hgt
      rcases hcase with rfl | rfl
      · exact fun _ _ => StrictWeak.asymm _ _ hgt
      · exact Le.refl _ _
    · rename_i hgt
      rcases hcase with rfl | rfl
      · exact Le.refl _ _
      · exact fun _ _ => by simpa using hgt
  · rcases hcase with rfl | rfl
    · exact Le.refl _ _
    · exact fun _ hlt => absurd hlt ‹_›

/-- `pop_heap`: the entry moves down while it comes after a child. -/
def siftDown (gt : α → α → Bool) (a : Array α) (i : Nat) (hi : i < a.size) : Array α :=
  if hc : firstChild gt a i < a.size then
    if gt a[i] a[firstChild gt a i] then
      siftDown gt (a.swap i (firstChild gt a i)) (firstChild gt a i) (by rwa [Array.size_swap])
    else a
  else a
termination_by a.size - i
decreasing_by
  have := firstChild_gt gt a i
  rw [Array.size_swap]
  omega

theorem siftDown_perm (gt : α → α → Bool) (a : Array α) (i : Nat) (hi : i < a.size) :
    (siftDown gt a i hi).Perm a := by
  fun_induction siftDown gt a i hi with
  | case1 a i hi hc hgt ih => exact ih.trans (Array.swap_perm hi hc)
  | case2 => exact .refl _
  | case3 => exact .refl _

/-- Ordered but for cell `i`, which may come after its children. -/
structure OrderedBelow (gt : α → α → Bool) (a : Array α) (i : Nat) : Prop where
  others : ∀ j, j ≠ 0 → parent j ≠ i → Le gt a (parent j) j
  across : ∀ j, j ≠ 0 → parent j = i → i ≠ 0 → Le gt a (parent i) j

theorem siftDown_ordered [StrictWeak gt] (a : Array α) (i : Nat) (hi : i < a.size)
    (h : OrderedBelow gt a i) : Ordered gt (siftDown gt a i hi) := by
  fun_induction siftDown gt a i hi with
  | case1 a i hi hc hgt ih =>
    obtain ⟨c, hceq⟩ : ∃ c, firstChild gt a i = c := ⟨_, rfl⟩
    have hci := firstChild_gt gt a i
    have hcpar := parent_firstChild gt a i
    have hfirst : ∀ j, j ≠ 0 → parent j = i → Le gt a (firstChild gt a i) j :=
      fun j => le_firstChild a
    simp only [hceq] at hc hgt ih hci hcpar hfirst ⊢
    have hdown : Le gt a c i := fun _ _ => StrictWeak.asymm _ _ hgt
    refine ih ⟨fun j hj hne => ?_, fun j hj hpar hc0 => ?_⟩
    · apply Le.swap hi hc
      have hj' := parent_lt hj
      by_cases hjc : j = c
      · subst hjc
        simpa [swapped, hcpar, hci.ne, hci.ne'] using hdown
      by_cases hji : j = i
      · subst hji
        have hpj : parent j ≠ j := hj'.ne
        simpa [swapped, hpj, hne] using h.across c (by omega) hcpar hj
      by_cases hpi : parent j = i
      · simpa [swapped, hpi, hji, hjc] using hfirst j hj hpi
      · simpa [swapped, hpi, hne, hji, hjc] using h.others j hj hpi
    · apply Le.swap hi hc
      have hj' := parent_lt hj
      have hjc : j ≠ c := by omega
      have hji : j ≠ i := by omega
      rw [hcpar]
      have hle := h.others j hj (by omega)
      rw [hpar] at hle
      simpa [swapped, hji, hjc] using hle
  | case2 a i hi hc hgt =>
    intro j hj
    by_cases hpi : parent j = i
    · have hle : Le gt a i (firstChild gt a i) := fun _ _ => by simpa using hgt
      exact hpi ▸ hle.trans hc (le_firstChild a hj hpi)
    · exact h.others j hj hpi
  | case3 a i hi hc =>
    intro j hj
    by_cases hpi : parent j = i
    · intro _ hlt
      unfold parent at hpi
      rcases firstChild_eq gt a i with h | ⟨h, _⟩ <;> omega
    · exact h.others j hj hpi

/-- `priority_queue::pop` on the cells: the last entry replaces the first and moves down. -/
def popCells (gt : α → α → Bool) (a : Array α) : Array α :=
  if h : 1 < a.size then
    siftDown gt (a.swap 0 (a.size - 1)).pop 0 (by rw [Array.size_pop, Array.size_swap]; omega)
  else a.pop

theorem Le.pop {a : Array α} {i j : Nat} (h : j < a.size - 1 → Le gt a i j) : Le gt a.pop i j := by
  intro hi hj
  rw [Array.size_pop] at hi hj
  rw [Array.getElem_pop, Array.getElem_pop]
  exact h hj _ _

theorem popCells_ordered [StrictWeak gt] {a : Array α} (h : Ordered gt a) :
    Ordered gt (popCells gt a) := by
  unfold popCells
  split
  · apply siftDown_ordered
    refine ⟨fun j hj hpar => Le.pop fun hlt => ?_, fun _ _ _ h0 => absurd rfl h0⟩
    rw [Array.size_swap] at hlt
    have hp := parent_lt hj
    apply Le.swap
    have hjl : j ≠ a.size - 1 := by omega
    have hpl : parent j ≠ a.size - 1 := by omega
    simpa [swapped, hj, hpar, hjl, hpl] using h j hj
  · exact fun j hj => Le.pop fun _ => h j hj

theorem pop_append {a : Array α} {t : α} (h : a[a.size - 1]? = some t) :
    a.pop.toList ++ [t] = a.toList := by
  obtain ⟨hlt, hlast⟩ := Array.getElem?_eq_some_iff.mp h
  have hne : a.toList ≠ [] := List.ne_nil_of_length_pos (Nat.zero_lt_of_lt hlt)
  rw [← List.dropLast_concat_getLast hne, Array.toList_pop, List.getLast_eq_getElem hne]
  simp [hlast]

theorem popCells_perm {a : Array α} {t : α} (h : a[0]? = some t) :
    (t :: (popCells gt a).toList).Perm a.toList := by
  obtain ⟨hpos, hhead⟩ := Array.getElem?_eq_some_iff.mp h
  unfold popCells
  split
  · rename_i hlt
    obtain ⟨b, hb⟩ : ∃ b, a.swap 0 (a.size - 1) = b := ⟨_, rfl⟩
    have hsize : b.size = a.size := by rw [← hb, Array.size_swap]
    have hlast : b[b.size - 1]? = some t := by
      rw [hsize, ← hb, Array.getElem?_swap, if_pos rfl, hhead]
    have hpop := pop_append hlast
    have hperm := Array.perm_iff_toList_perm.mp
      (siftDown_perm gt b.pop 0 (by rw [Array.size_pop]; omega))
    simp only [hb]
    calc (t :: (siftDown gt b.pop 0 _).toList).Perm (t :: b.pop.toList) := hperm.cons t
      _ |>.Perm (b.pop.toList ++ [t]) := (List.perm_append_singleton t _).symm
      _ |>.Perm a.toList := by
        rw [hpop, ← hb]
        exact Array.perm_iff_toList_perm.mp (Array.swap_perm hpos (by omega))
  · have hlast : a[a.size - 1]? = some t := by
      rw [show a.size - 1 = 0 by omega, h]
    rw [← pop_append hlast]
    exact (List.perm_append_singleton t _).symm

end BinHeap

structure PriorityQueue (α : Type*) (gt : α → α → Bool) where
  cells : Array α
  ordered : BinHeap.Ordered gt cells

namespace PriorityQueue
open BinHeap
variable {α : Type*} {gt : α → α → Bool}

def empty : PriorityQueue α gt where
  cells := #[]
  ordered _ _ _ hj := absurd hj (Nat.not_lt_zero _)

def top? (q : PriorityQueue α gt) : Option α := q.cells[0]?

def push [StrictWeak gt] (q : PriorityQueue α gt) (x : α) : PriorityQueue α gt where
  cells := siftUp gt (q.cells.push x) q.cells.size (by rw [Array.size_push]; omega)
  ordered := by
    apply siftUp_ordered
    refine ⟨fun j hj hne hp hlt => ?_, fun j hj hpar _ _ hlt => ?_⟩
    · rw [Array.size_push] at hp hlt
      have hpar := parent_lt hj
      rw [Array.getElem_push_lt (by omega), Array.getElem_push_lt (by omega)]
      exact q.ordered j hj _ _
    · rw [Array.size_push] at hlt
      have := parent_lt hj
      omega

def pop [StrictWeak gt] (q : PriorityQueue α gt) : PriorityQueue α gt where
  cells := popCells gt q.cells
  ordered := popCells_ordered q.ordered

def entries (q : PriorityQueue α gt) : Multiset α := q.cells.toList

@[simp] theorem entries_empty : (empty : PriorityQueue α gt).entries = 0 := rfl

theorem top?_eq_none {q : PriorityQueue α gt} : q.top? = none ↔ q.entries = 0 := by
  simp [top?, entries]

theorem top?_mem {q : PriorityQueue α gt} {t : α} (h : q.top? = some t) : t ∈ q.entries := by
  obtain ⟨hlt, rfl⟩ := Array.getElem?_eq_some_iff.mp h
  simp [entries]

theorem top?_of_entries_eq {q : PriorityQueue α gt} {t : α} (h : q.entries = {t}) :
    q.top? = some t := by
  cases htop : q.top? with
  | none =>
    rw [top?_eq_none.mp htop] at h
    exact absurd h.symm (Multiset.singleton_ne_zero t)
  | some x =>
    have hx := top?_mem htop
    rw [h, Multiset.mem_singleton] at hx
    rw [hx]

variable [StrictWeak gt]

theorem top?_le {q : PriorityQueue α gt} {t x : α} (h : q.top? = some t) (hx : x ∈ q.entries) :
    gt t x = false := by
  obtain ⟨hlt, rfl⟩ := Array.getElem?_eq_some_iff.mp h
  obtain ⟨i, hi, rfl⟩ := Array.mem_iff_getElem.mp (Array.mem_toList_iff.mp hx)
  exact q.ordered.head i hi hlt hi

theorem entries_push (q : PriorityQueue α gt) (x : α) : (q.push x).entries = x ::ₘ q.entries := by
  have hperm := Array.perm_iff_toList_perm.mp
    (siftUp_perm gt (q.cells.push x) q.cells.size (by rw [Array.size_push]; omega))
  rw [Array.toList_push] at hperm
  exact Multiset.coe_eq_coe.mpr (hperm.trans (List.perm_append_singleton x _))

theorem top?_push {q : PriorityQueue α gt} {t x : α} (h : q.top? = some t) (hle : gt t x = false) :
    (q.push x).top? = some t := by
  obtain ⟨hlt, ht⟩ := Array.getElem?_eq_some_iff.mp h
  have hhead : Le gt (q.cells.push x) 0 q.cells.size := by
    intro _ _
    rw [Array.getElem_push_eq, Array.getElem_push_lt hlt, ht]
    exact hle
  change (siftUp gt _ _ _)[0]? = _
  rw [siftUp_head _ _ _ hhead, Array.getElem?_push_lt hlt, ht]

theorem top?_push_or {q : PriorityQueue α gt} {t : α} (h : q.top? = some t) (x : α) :
    (q.push x).top? = some t ∨ (q.push x).top? = some x := by
  obtain ⟨hlt, -⟩ := Array.getElem?_eq_some_iff.mp h
  have hold : (q.cells.push x)[0]? = some t := (Array.getElem?_push_lt hlt).trans
    ((Array.getElem?_eq_getElem hlt).symm.trans h)
  have hsize : q.cells.size < (q.cells.push x).size := by
    rw [Array.size_push]
    exact Nat.lt_succ_self _
  rw [← hold, ← (Array.getElem?_push_size : (q.cells.push x)[q.cells.size]? = some x)]
  exact siftUp_head_or _ _ hsize

theorem top?_push_gt {q : PriorityQueue α gt} {t x : α} (h : q.top? = some t) (hgt : gt t x = true) :
    (q.push x).top? = some x := by
  refine (top?_push_or h x).resolve_left fun hold => ?_
  have hx : x ∈ (q.push x).entries := entries_push q x ▸ Multiset.mem_cons_self x _
  rw [top?_le hold hx] at hgt
  cases hgt

theorem size_push (q : PriorityQueue α gt) (x : α) :
    (q.push x).cells.size = q.cells.size + 1 := by
  have hcard := congrArg Multiset.card (entries_push q x)
  rwa [Multiset.card_cons] at hcard

theorem entries_pop {q : PriorityQueue α gt} {t : α} (h : q.top? = some t) :
    q.entries = t ::ₘ q.pop.entries :=
  (Multiset.coe_eq_coe.mpr (popCells_perm h)).symm

/-- The top that is popped is the old one when the new entry does not come before it. -/
theorem entries_pop_push {q : PriorityQueue α gt} {t x : α} (h : q.top? = some t)
    (hle : gt t x = false) : (q.push x).pop.entries = x ::ₘ q.pop.entries := by
  have hentries := entries_pop (top?_push h hle)
  rw [entries_push, entries_pop h, Multiset.cons_swap] at hentries
  exact ((Multiset.cons_inj_right t).mp hentries).symm

theorem pop_le_pop_push {q : PriorityQueue α gt} {t : α} (h : q.top? = some t) (x : α) :
    q.pop.entries ≤ (q.push x).pop.entries := by
  rcases top?_push_or h x with htop | htop
  · have hentries := entries_pop htop
    rw [entries_push, entries_pop h, Multiset.cons_swap] at hentries
    rw [← (Multiset.cons_inj_right t).mp hentries]
    exact Multiset.le_cons_self _ x
  · have hentries := entries_pop htop
    rw [entries_push] at hentries
    rw [← (Multiset.cons_inj_right x).mp hentries, entries_pop h]
    exact Multiset.le_cons_self _ t

end PriorityQueue
