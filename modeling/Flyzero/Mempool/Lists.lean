import Flyzero.Mempool.Pool

/-! What the operations of a `block_list` do to its nodes and to the memory. -/
namespace Flyzero.Mempool
open ByteMem DoublyLinked

def Apart (a b : Nat) : Prop := a + 32 ≤ b ∨ b + 32 ≤ a

section Links
variable {m : Mem} {a b v : Nat}

theorem prev_setPrev (hv : v < 2 ^ 64) : prev (setPrev m b v) b = v := by
  rw [prev, setPrev, word_setWord, BitVec.toNat_ofNat, Nat.mod_eq_of_lt hv]

theorem next_setNext (hv : v < 2 ^ 64) : next (setNext m b v) b = v := by
  rw [next, setNext, word_setWord, BitVec.toNat_ofNat, Nat.mod_eq_of_lt hv]

theorem next_setPrev (h : a = b ∨ Apart a b) : next (setPrev m b v) a = next m a := by
  unfold Apart at h
  rw [next, setPrev, word_setWord_disjoint _ _ (by omega), next]

theorem prev_setNext (h : a = b ∨ Apart a b) : prev (setNext m b v) a = prev m a := by
  unfold Apart at h
  rw [prev, setNext, word_setWord_disjoint _ _ (by omega), prev]

theorem prev_setPrev_apart (h : Apart a b) : prev (setPrev m b v) a = prev m a := by
  unfold Apart at h
  rw [prev, setPrev, word_setWord_disjoint _ _ (by omega), prev]

theorem next_setNext_apart (h : Apart a b) : next (setNext m b v) a = next m a := by
  unfold Apart at h
  rw [next, setNext, word_setWord_disjoint _ _ (by omega), next]

end Links

/-- Only the links of these blocks have changed. -/
def Touched (bs : List Nat) (m m' : Mem) : Prop :=
  ∀ x, (∀ b ∈ bs, x < b + 8 ∨ b + 24 ≤ x) → m' x = m x

section Touched
variable {bs cs : List Nat} {m m' m'' : Mem} {a b v : Nat}

theorem Touched.refl (bs : List Nat) (m : Mem) : Touched bs m m := fun _ _ => rfl

theorem Touched.trans (h : Touched bs m m') (h' : Touched bs m' m'') : Touched bs m m'' :=
  fun x hx => (h' x hx).trans (h x hx)

theorem Touched.mono (h : Touched bs m m') (hsub : ∀ b ∈ bs, b ∈ cs) : Touched cs m m' :=
  fun x hx => h x fun b hb => hx b (hsub b hb)

theorem Touched.setPrev (h : Touched bs m m') (hb : b ∈ bs) :
    Touched bs m (setPrev m' b v) := by
  intro x hx
  have hout := hx b hb
  rw [Mempool.setPrev, setWord_outside _ _ (by omega), h x hx]

theorem Touched.setNext (h : Touched bs m m') (hb : b ∈ bs) :
    Touched bs m (setNext m' b v) := by
  intro x hx
  have hout := hx b hb
  rw [Mempool.setNext, setWord_outside _ _ (by omega), h x hx]

theorem Touched.header (h : Touched bs m m') (hapart : ∀ b ∈ bs, Apart a b) :
    SameOn m m' a (a + 32) := by
  intro x hlo hhi
  apply h
  intro b hb
  have hout := hapart b hb
  unfold Apart at hout
  omega

end Touched

/-- The list has these nodes, linked both ways in memory. -/
structure BlockList.Holds (l : BlockList) (m : Mem) (xs : List Nat) : Prop where
  head : l.head = xs.headD 0
  length : l.length = xs.length
  linked : Segment (next m) (prev m) 0 0 xs

structure Spread (xs : List Nat) : Prop where
  nodup : xs.Nodup
  apart : ∀ a ∈ xs, ∀ b ∈ xs, a ≠ b → Apart a b
  lt : ∀ a ∈ xs, a < 2 ^ 64

theorem Spread.sublist {xs ys : List Nat} (h : Spread ys) (hsub : List.Sublist xs ys) :
    Spread xs where
  nodup := h.nodup.sublist hsub
  apart a ha b hb := h.apart a (hsub.subset ha) b (hsub.subset hb)
  lt a ha := h.lt a (hsub.subset ha)

theorem Spread.cons_behind {xs : List Nat} (h : Spread xs) {a : Nat}
    (hbefore : ∀ b ∈ xs, b + 32 ≤ a) (hlt : a < 2 ^ 64) : Spread (a :: xs) where
  nodup := List.nodup_cons.mpr ⟨fun hmem => by have := hbefore a hmem; omega, h.nodup⟩
  apart b hb c hc hbc := by
    rcases List.mem_cons.mp hb with hb' | hb' <;> rcases List.mem_cons.mp hc with hc' | hc'
    · exact absurd (hb'.trans hc'.symm) hbc
    · exact .inr (hb' ▸ hbefore c hc')
    · exact .inl (hc' ▸ hbefore b hb')
    · exact h.apart b hb' c hc' hbc
  lt b hb := by
    rcases List.mem_cons.mp hb with rfl | hb
    · exact hlt
    · exact h.lt b hb

theorem Spread.same_or_apart {xs : List Nat} (h : Spread xs) {a b : Nat} (ha : a ∈ xs)
    (hb : b ∈ xs) : a = b ∨ Apart a b := by
  by_cases hab : a = b
  · exact .inl hab
  · exact .inr (h.apart a ha b hb hab)

namespace BlockList
variable {l l' : BlockList} {m m' : Mem} {xs : List Nat} {node : Nat}

theorem Holds.congr (h : l.Holds m xs) (hsame : ∀ y ∈ xs, SameOn m m' (y + 8) (y + 24)) :
    l.Holds m' xs where
  head := h.head
  length := h.length
  linked := by
    apply h.linked.congr
    intro y hy
    have hnext := (hsame y hy).word (a := y + 16) (by omega) (by omega)
    have hprev := (hsame y hy).word (a := y + 8) (by omega) (by omega)
    exact ⟨congrArg BitVec.toNat hnext, congrArg BitVec.toNat hprev⟩

theorem Holds.touched {bs : List Nat} (h : l.Holds m xs) (htouched : Touched bs m m')
    (hapart : ∀ y ∈ xs, ∀ b ∈ bs, Apart y b) : l.Holds m' xs := by
  apply h.congr
  intro y hy x hlo hhi
  exact htouched.header (hapart y hy) x (by omega) (by omega)

theorem Holds.head_eq_zero (h : l.Holds m xs) : l.head = 0 ↔ xs = [] := by
  cases xs with
  | nil => exact ⟨fun _ => rfl, fun _ => h.head⟩
  | cons x xs => exact ⟨fun hz => absurd (h.head.symm.trans hz) h.linked.1, nofun⟩

theorem push_holds (h : l.Holds m xs) (hspread : Spread (node :: xs)) (hnode : node ≠ 0) :
    (l.push m node).1.Holds (l.push m node).2 (node :: xs) ∧
      Touched (node :: xs) m (l.push m node).2 := by
  have hlt := hspread.lt
  cases xs with
  | nil =>
    have hhead : l.head = 0 := h.head
    rw [push, if_pos hhead, hhead]
    refine ⟨⟨rfl, congrArg (· + 1) h.length, hnode, ?_, ?_, trivial⟩, ?_⟩
    · rw [prev_setNext (.inl rfl), prev_setPrev (by omega)]
    · exact next_setNext (by omega)
    · exact ((Touched.refl _ m).setPrev List.mem_cons_self).setNext List.mem_cons_self
  | cons x xs =>
    have hhead : l.head = x := h.head
    have hx : x < 2 ^ 64 := hlt x (by simp)
    have hne : node ≠ x := fun heq => (List.nodup_cons.mp hspread.nodup).1 (by simp [heq])
    have hfar : Apart node x := hspread.apart node (by simp) x (by simp) hne
    rw [push, if_neg (by rw [hhead]; exact h.linked.1), hhead]
    refine ⟨⟨rfl, congrArg (· + 1) h.length, hnode, ?_, ?_, ?_⟩, ?_⟩
    · rw [prev_setPrev_apart hfar, prev_setNext (.inl rfl), prev_setPrev (by omega)]
    · rw [next_setPrev (.inr hfar), next_setNext hx, List.headD_cons]
    · apply h.linked.rehead
      · intro y hy
        have hyn : y ≠ node := fun heq => (List.nodup_cons.mp hspread.nodup).1 (heq ▸ hy)
        have hy' := List.mem_cons_of_mem node hy
        have hfar : Apart y node := hspread.apart y hy' node (by simp) hyn
        rw [next_setPrev (hspread.same_or_apart hy' (by simp)), next_setNext_apart hfar,
          next_setPrev (.inr hfar)]
      · intro y hy
        cases hy
        exact prev_setPrev (hlt node (by simp))
      · intro y hy
        have hnodup := List.nodup_cons.mp hspread.nodup
        have hyx : y ≠ x := fun heq => (List.nodup_cons.mp hnodup.2).1 (heq ▸ hy)
        have hyn : y ≠ node := fun heq => hnodup.1 (heq ▸ List.mem_cons_of_mem x hy)
        have hy' : y ∈ node :: x :: xs := by simp [List.mem_of_mem_tail hy]
        have hfar : Apart y node := hspread.apart y hy' node (by simp) hyn
        rw [prev_setPrev_apart (hspread.apart y hy' x (by simp) hyx), prev_setNext (.inr hfar),
          prev_setPrev_apart hfar]
    · exact (((Touched.refl _ m).setPrev (by simp)).setNext (by simp)).setPrev (by simp)

theorem pop_holds (h : l.Holds m (node :: xs)) (hspread : Spread (node :: xs)) :
    ∃ l' m', l.pop m = some (node, l', m') ∧ l'.Holds m' xs ∧ Touched xs m m' := by
  obtain ⟨hnode, -, hnext, hrest⟩ := h.linked
  have hhead : l.head = node := h.head
  have hlength : l.length - 1 = xs.length := by rw [h.length]; rfl
  rw [pop, if_neg (by rw [hhead]; exact hnode), hhead, hnext]
  refine ⟨_, _, rfl, ?_⟩
  cases xs with
  | nil => exact ⟨⟨rfl, hlength, trivial⟩, .refl _ m⟩
  | cons x xs =>
    rw [List.headD_cons, if_neg hrest.1]
    have hnodup := (List.nodup_cons.mp hspread.nodup).2
    refine ⟨⟨rfl, hlength, ?_⟩, (Touched.refl _ m).setPrev List.mem_cons_self⟩
    apply hrest.rehead
    · intro y hy
      exact next_setPrev (hspread.same_or_apart (List.mem_cons_of_mem _ hy) (by simp))
    · intro y hy
      cases hy
      exact prev_setPrev (by omega)
    · intro y hy
      have hyx : y ≠ x := fun heq => (List.nodup_cons.mp hnodup).1 (heq ▸ hy)
      have hy' : y ∈ node :: x :: xs := by simp [show y ∈ xs from hy]
      exact prev_setPrev_apart (hspread.apart y hy' x (by simp) hyx)

theorem erase_middle {pre post : List Nat} {before after : Nat}
    (hnodup : (pre ++ before :: node :: after :: post).Nodup) :
    (pre ++ before :: node :: after :: post).erase node = pre ++ before :: after :: post := by
  have hout : node ∉ pre := fun hmem =>
    (List.nodup_append.mp hnodup).2.2 node hmem node (by simp) rfl
  have hne : before ≠ node := fun heq => by simp [List.nodup_append, heq] at hnodup
  rw [List.erase_append_right _ hout, List.erase_cons_tail (by simpa using hne),
    List.erase_cons_head]

theorem unlink_linked {pre post : List Nat} {before after : Nat}
    (h : Segment (next m) (prev m) 0 0 (pre ++ before :: node :: after :: post))
    (hspread : Spread (pre ++ before :: node :: after :: post))
    (hm' : m' = setPrev (setNext m before after) after before) :
    Segment (next m') (prev m') 0 0 (pre ++ before :: after :: post) := by
  have hnodup := hspread.nodup
  have hkept : ∀ y ∈ pre ++ before :: after :: post,
      y ∈ pre ++ before :: node :: after :: post := by
    intro y hy
    exact List.mem_of_mem_erase (erase_middle hnodup ▸ hy)
  have hne : before ≠ after := by
    rintro rfl
    simp [List.nodup_append] at hnodup
  have hfar : Apart before after := hspread.apart before (by simp) after (by simp) hne
  rw [hm']
  apply h.detach hnodup
  · rw [next_setPrev (.inr hfar), next_setNext (hspread.lt after (by simp))]
  · exact prev_setPrev (hspread.lt before (by simp))
  · intro y hy hyb
    have hy := hkept y hy
    rw [next_setPrev (hspread.same_or_apart hy (by simp)),
      next_setNext_apart (hspread.apart y hy before (by simp) hyb)]
  · intro y hy hya
    have hy := hkept y hy
    rw [prev_setPrev_apart (hspread.apart y hy after (by simp) hya),
      prev_setNext (hspread.same_or_apart hy (by simp))]

/-- A node that is not the last behind others can be detached; the last one's missing successor is
dereferenced. -/
theorem detach_holds (h : l.Holds m xs) (hspread : Spread xs) (hnode : node ∈ xs)
    (hdetach : l.detach m node = some (l', m')) :
    l'.Holds m' (xs.erase node) ∧ Touched xs m m' := by
  obtain ⟨pre, post, rfl⟩ := List.append_of_mem hnode
  rcases List.eq_nil_or_concat pre with rfl | ⟨pre, before, rfl⟩
  · obtain ⟨-, hprev, -⟩ := h.linked
    have hhead : l.head = node := h.head
    obtain ⟨l₁, m₁, hpop, hholds, htouched⟩ := pop_holds h hspread
    rw [detach, if_pos ⟨hhead, hprev⟩, hpop] at hdetach
    cases hdetach
    rw [List.nil_append, List.erase_cons_head]
    exact ⟨hholds, htouched.mono fun b hb => List.mem_cons_of_mem _ hb⟩
  · have hlinked := h.linked
    rw [List.concat_eq_append, List.append_assoc, List.singleton_append] at *
    obtain ⟨-, hbefore, -, -, -, hprev, hnext, -⟩ := segment_append.mp hlinked
    rw [detach, hprev, hnext, if_neg fun hc => hbefore hc.2] at hdetach
    cases post with
    | nil => simp at hdetach
    | cons after post =>
      have hafter : after ≠ 0 := hlinked.ne_zero after (by simp)
      rw [List.headD_cons, if_neg (by simp [hbefore, hafter])] at hdetach
      cases hdetach
      have herase := erase_middle hspread.nodup
      rw [herase]
      refine ⟨⟨?_, ?_, unlink_linked hlinked hspread rfl⟩, ?_⟩
      · rw [h.head]
        cases pre <;> rfl
      · rw [← herase, List.length_erase_of_mem (by simp), ← h.length]
      · exact ((Touched.refl _ m).setNext (by simp)).setPrev (by simp)

theorem detach_isSome (h : l.Holds m xs) (hnodup : xs.Nodup) (hnode : node ∈ xs) :
    (l.detach m node).isSome ↔ l.head = node ∨ next m node ≠ 0 := by
  obtain ⟨pre, post, rfl⟩ := List.append_of_mem hnode
  rw [detach]
  rcases List.eq_nil_or_concat pre with rfl | ⟨pre, before, rfl⟩
  · obtain ⟨hne, hprev, -⟩ := h.linked
    have hhead : l.head = node := h.head
    simp [hhead, hprev, pop, hne]
  · have hlinked := h.linked
    rw [List.concat_eq_append, List.append_assoc, List.singleton_append] at *
    obtain ⟨-, hbefore, -, -, -, hprev, -⟩ := segment_append.mp hlinked
    have hhead : l.head ≠ node := by
      rw [h.head]
      rintro heq
      cases pre with
      | nil => simp [show before = node from heq] at hnodup
      | cons x pre => simp [show x = node from heq] at hnodup
    simp [hprev, hbefore, hhead]

end BlockList

theorem Spread.apart_append {xs ys : List Nat} (h : Spread (xs ++ ys)) {a b : Nat} (ha : a ∈ xs)
    (hb : b ∈ ys) : Apart a b :=
  h.apart a (List.mem_append_left _ ha) b (List.mem_append_right _ hb)
    ((List.nodup_append.mp h.nodup).2.2 a ha b hb)

theorem Apart.symm {a b : Nat} (h : Apart a b) : Apart b a := Or.symm h

theorem Spread.perm {xs ys : List Nat} (h : Spread xs) (hperm : xs.Perm ys) : Spread ys where
  nodup := hperm.nodup_iff.mp h.nodup
  apart a ha b hb := h.apart a (hperm.mem_iff.mpr ha) b (hperm.mem_iff.mpr hb)
  lt a ha := h.lt a (hperm.mem_iff.mpr ha)

namespace Pool
variable {p : Pool} {m : Mem} {i : Fin 29} {fs us : List Nat} {block : Nat}

theorem stamp_spec {m₁ m₂ : Mem} {tail : Nat} (htail : block + 32 ≤ tail)
    (h₁ : m₁ = setChecksum m block (calcChecksum m block))
    (h₂ : m₂ = setWord m₁ tail (checksum m₁ block)) :
    (∀ x < block + 24, m₂ x = m x) ∧ check m₂ block = true ∧
      checksum m₂ block = word m₂ tail := by
  have hsame (x : Nat) (hx : x < block + 24) : m₂ x = m x := by
    have hx₁ : m₁ x = m x := by rw [h₁, setChecksum, setWord_outside _ _ (.inl hx)]
    rw [← hx₁, h₂, setWord_outside _ _ (by omega)]
  have hmgr : mgr m₂ block = mgr m block := word_congr fun x hlo hhi => hsame x (by omega)
  have hsum₁ : checksum m₁ block = calcChecksum m block := by
    rw [h₁, checksum, setChecksum, word_setWord]
  have hsum₂ : checksum m₂ block = checksum m₁ block := by
    rw [h₂, checksum, word_setWord_disjoint _ _ (.inl (by omega)), checksum]
  refine ⟨hsame, ?_, ?_⟩
  · rw [check, hsum₂, hsum₁, calcChecksum, calcChecksum, hmgr, beq_self_eq_true]
  · rw [hsum₂, h₂, word_setWord]

/-- A new block is written at `cur_`; what lies before it changes only in the links of the used
list. -/
theorem allocNew_spec (hroom : (p.managers i).implSize ≤ p.freeSize)
    (hused : (p.managers i).usedList.Holds m us) (hcur : p.cur ≠ 0)
    (hspread : Spread (p.cur :: us)) (hbefore : ∀ b ∈ us, b + 32 ≤ p.cur) :
    ∃ usedList m', p.allocNew m i = (p.cur + 32,
        { p with cur := p.cur + (p.managers i).implSize }.setManager i
          { p.managers i with usedList }, m') ∧
      usedList.Holds m' (p.cur :: us) ∧
      (∀ x < p.cur, (∀ b ∈ us, x < b + 8 ∨ b + 24 ≤ x) → m' x = m x) ∧
      mgr m' p.cur = BitVec.ofNat 64 (p.managerAddr i) ∧ check m' p.cur = true ∧
      checksum m' p.cur = word m' (p.cur + 32 + (p.managers i).blockSize.toNat) := by
  let block := p.cur
  let m₁ := setMgr m block (BitVec.ofNat 64 (p.managerAddr i))
  let m₂ := ((p.managers i).usedList.push m₁ block).2
  let m₃ := setChecksum m₂ block (calcChecksum m₂ block)
  let m₄ := setWord m₃ (block + (p.managers i).implSize - 8) (checksum m₃ block)
  have htail : block + (p.managers i).implSize - 8 =
      block + 32 + (p.managers i).blockSize.toNat := by
    rw [BlockManager.implSize, sizeofHeader]
    omega
  have h₁ (x : Nat) (hx : x < block) : m₁ x = m x := setWord_outside _ _ (.inl hx)
  have hused₁ : (p.managers i).usedList.Holds m₁ us := by
    apply hused.congr
    intro y hy x hlo hhi
    exact h₁ x (by have := hbefore y hy; omega)
  obtain ⟨hused₂, htouched⟩ := BlockList.push_holds hused₁ hspread hcur
  have h₂ (x : Nat) (hx : x < block + 8) (hlinks : ∀ b ∈ us, x < b + 8 ∨ b + 24 ≤ x) :
      m₂ x = m₁ x := by
    apply htouched
    intro b hb
    rcases List.mem_cons.mp hb with rfl | hb
    · exact .inl hx
    · exact hlinks b hb
  obtain ⟨h₄, hcheck, hsum⟩ := stamp_spec (by omega) (rfl : m₃ = _) (rfl : m₄ = _)
  have hlinks₄ (y : Nat) (hy : y ∈ block :: us) : SameOn m₂ m₄ (y + 8) (y + 24) := by
    intro x hlo hhi
    apply h₄
    rcases List.mem_cons.mp hy with rfl | hy
    · exact hhi
    · have := hbefore y hy
      omega
  have hmgr : mgr m₄ block = BitVec.ofNat 64 (p.managerAddr i) := by
    rw [mgr, ← word_setWord m block (BitVec.ofNat 64 (p.managerAddr i))]
    apply word_congr
    intro x hlo hhi
    rw [h₄ x (by omega)]
    apply h₂ x (by omega)
    intro b hb
    have := hbefore b hb
    omega
  refine ⟨_, m₄, ?_, hused₂.congr hlinks₄, ?_, hmgr, hcheck, ?_⟩
  · rw [allocNew, if_pos hroom]
    rfl
  · intro x hx hlinks
    rw [h₄ x (by omega), h₂ x (by omega) hlinks, h₁ x hx]
  · rw [← htail]
    exact hsum

theorem allocExist_spec (hfree : (p.managers i).freeList.Holds m (block :: fs))
    (hused : (p.managers i).usedList.Holds m us) (hspread : Spread (block :: fs ++ us)) :
    ∃ freeList usedList m', p.allocExist m i =
        some (block + 32, p.setManager i { p.managers i with freeList, usedList }, m') ∧
      freeList.Holds m' fs ∧ usedList.Holds m' (block :: us) ∧
      Touched (block :: fs ++ us) m m' := by
  have hperm : (block :: fs ++ us).Perm (fs ++ block :: us) := List.perm_middle.symm
  have hspread' := hspread.perm hperm
  obtain ⟨freeList, m₁, hpop, hfree₁, htouched₁⟩ :=
    BlockList.pop_holds hfree (hspread.sublist (List.sublist_append_left _ _))
  have hused₁ : (p.managers i).usedList.Holds m₁ us := by
    apply hused.touched htouched₁
    intro y hy b hb
    exact (hspread.apart_append (List.mem_cons_of_mem _ hb) hy).symm
  obtain ⟨hused₂, htouched₂⟩ := BlockList.push_holds hused₁
    (hspread'.sublist (List.sublist_append_right _ _)) (hfree.linked.ne_zero _ (by simp))
  have hfree₂ := hfree₁.touched htouched₂ fun y hy b hb => hspread'.apart_append hy hb
  refine ⟨freeList, _, _, ?_, hfree₂, hused₂, ?_⟩
  · rw [allocExist, hpop]
    rfl
  · refine (htouched₁.mono fun b hb => ?_).trans (htouched₂.mono fun b hb => ?_)
    · simp [hb]
    · exact hperm.mem_iff.mpr (List.mem_append_right _ hb)

theorem free_eq {ptr : Nat} (hcheck : check m (ptr - 32) = true)
    (hnamed : p.managerAt (mgr m (ptr - 32)) = some i)
    (htail : checksum m (ptr - 32) = word m (ptr + (p.managers i).blockSize.toNat)) :
    p.free m ptr = ((p.managers i).usedList.detach m (ptr - 32)).map fun r =>
      let pushed := (p.managers i).freeList.push r.2 (ptr - 32)
      (p.setManager i { p.managers i with freeList := pushed.1, usedList := r.1 }, pushed.2) := by
  rw [free, sizeofHeader]
  simp only [hcheck, hnamed, htail, if_true, Option.bind_some]

/-- A block both checks accept goes from its manager's used list to the front of the free list. -/
theorem free_spec {ptr : Nat} {q : Pool} {m' : Mem} (hcheck : check m (ptr - 32) = true)
    (hnamed : p.managerAt (mgr m (ptr - 32)) = some i)
    (htail : checksum m (ptr - 32) = word m (ptr + (p.managers i).blockSize.toNat))
    (hfree : (p.managers i).freeList.Holds m fs) (hused : (p.managers i).usedList.Holds m us)
    (hspread : Spread (fs ++ us)) (hmem : ptr - 32 ∈ us)
    (hcall : p.free m ptr = some (q, m')) :
    ∃ freeList usedList, q = p.setManager i { p.managers i with freeList, usedList } ∧
      freeList.Holds m' ((ptr - 32) :: fs) ∧ usedList.Holds m' (us.erase (ptr - 32)) ∧
      Touched (fs ++ us) m m' := by
  have hperm : (fs ++ us).Perm ((ptr - 32) :: fs ++ us.erase (ptr - 32)) :=
    ((List.perm_cons_erase hmem).append_left fs).trans List.perm_middle
  have hspread' := hspread.perm hperm
  rw [free_eq hcheck hnamed htail] at hcall
  obtain ⟨⟨usedList, m₁⟩, hdetach, heq⟩ := Option.map_eq_some_iff.mp hcall
  cases heq
  obtain ⟨hused₁, htouched₁⟩ := BlockList.detach_holds hused
    (hspread.sublist (List.sublist_append_right _ _)) hmem hdetach
  have hfree₁ := hfree.touched htouched₁ fun y hy b hb => hspread.apart_append hy hb
  obtain ⟨hfree₂, htouched₂⟩ := BlockList.push_holds hfree₁
    (hspread'.sublist (List.sublist_append_left _ _)) (hused.linked.ne_zero _ hmem)
  have hused₂ := hused₁.touched htouched₂ fun y hy b hb => (hspread'.apart_append hb hy).symm
  refine ⟨_, _, rfl, hfree₂, hused₂, ?_⟩
  refine (htouched₁.mono fun b hb => ?_).trans (htouched₂.mono fun b hb => ?_)
  · exact List.mem_append_right _ hb
  · exact hperm.mem_iff.mpr (List.mem_append_left _ hb)

end Pool

end Flyzero.Mempool
