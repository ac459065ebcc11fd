import Mathlib.Data.List.Basic
import Mathlib.Data.List.Nodup

/-! Doubly linked lists of numbered nodes; `0` is no node. -/
namespace DoublyLinked

/-- The nodes `xs` are linked both ways, from `before` on the left to `after` on the right. -/
def Segment (next prev : Nat → Nat) (before after : Nat) : List Nat → Prop
  | [] => True
  | x :: xs => x ≠ 0 ∧ prev x = before ∧ next x = xs.headD after ∧ Segment next prev x after xs

variable {next prev next' prev' : Nat → Nat} {before before' after x : Nat} {xs ys : List Nat}

theorem Segment.ne_zero (h : Segment next prev before after xs) : ∀ y ∈ xs, y ≠ 0 := by
  induction xs generalizing before with
  | nil => exact nofun
  | cons x xs ih =>
    intro y hy
    rcases List.mem_cons.mp hy with rfl | hy
    · exact h.1
    · exact ih h.2.2.2 y hy

theorem Segment.congr (h : Segment next prev before after xs)
    (hsame : ∀ y ∈ xs, next' y = next y ∧ prev' y = prev y) :
    Segment next' prev' before after xs := by
  induction xs generalizing before with
  | nil => trivial
  | cons x xs ih =>
    obtain ⟨hx, hprev, hnext, hrest⟩ := h
    obtain ⟨hn, hp⟩ := hsame x List.mem_cons_self
    exact ⟨hx, hp.trans hprev, hn.trans hnext,
      ih hrest fun y hy => hsame y (List.mem_cons_of_mem _ hy)⟩

theorem segment_append : Segment next prev before after (xs ++ ys) ↔
    Segment next prev before (ys.headD after) xs ∧
      Segment next prev (xs.getLastD before) after ys := by
  induction xs generalizing before with
  | nil => simp [Segment]
  | cons x xs ih =>
    have hhead : (xs ++ ys).headD after = xs.headD (ys.headD after) := by cases xs <;> rfl
    have hlast : (x :: xs).getLastD before = xs.getLastD x := by cases xs <;> rfl
    rw [List.cons_append, Segment, Segment, ih, hhead, hlast]
    tauto

theorem Segment.rehead (h : Segment next prev before after xs)
    (hnext : ∀ y ∈ xs, next' y = next y) (hhead : ∀ y ∈ xs.head?, prev' y = before')
    (hprev : ∀ y ∈ xs.tail, prev' y = prev y) : Segment next' prev' before' after xs := by
  cases xs with
  | nil => trivial
  | cons x xs =>
    obtain ⟨hx, -, hn, hrest⟩ := h
    refine ⟨hx, hhead x rfl, (hnext x List.mem_cons_self).trans hn, hrest.congr fun y hy => ?_⟩
    exact ⟨hnext y (List.mem_cons_of_mem _ hy), hprev y hy⟩

theorem Segment.neighbours (h : Segment next prev before after xs) (hx : x ∈ xs) :
    (prev x = before ∨ prev x ∈ xs) ∧ (next x = after ∨ next x ∈ xs) := by
  induction xs generalizing before with
  | nil => cases hx
  | cons y xs ih =>
    obtain ⟨-, hprev, hnext, hrest⟩ := h
    cases List.mem_cons.mp hx with
    | inl hxy =>
      subst hxy
      refine ⟨.inl hprev, ?_⟩
      cases xs with
      | nil => exact .inl hnext
      | cons z xs => exact .inr (hnext ▸ List.mem_cons_of_mem _ List.mem_cons_self)
    | inr hx =>
      obtain ⟨hp, hn⟩ := ih hrest hx
      constructor
      · cases hp with
        | inl hp => exact .inr (hp ▸ List.mem_cons_self)
        | inr hp => exact .inr (List.mem_cons_of_mem y hp)
      · exact hn.imp_right (List.mem_cons_of_mem y)

theorem Segment.detach {l r : Nat} (h : Segment next prev before after (xs ++ l :: x :: r :: ys))
    (hnodup : (xs ++ l :: x :: r :: ys).Nodup) (hl : next' l = r) (hr : prev' r = l)
    (hnext : ∀ y ∈ xs ++ l :: r :: ys, y ≠ l → next' y = next y)
    (hprev : ∀ y ∈ xs ++ l :: r :: ys, y ≠ r → prev' y = prev y) :
    Segment next' prev' before after (xs ++ l :: r :: ys) := by
  rw [segment_append] at h ⊢
  obtain ⟨hxs, hl0, hprevl, -, -, -, -, hr0, -, hnextr, hys⟩ := h
  have hsub : ∀ y ∈ xs, y ≠ l ∧ y ≠ r := by
    intro y hy
    have hdisjoint := (List.nodup_append.mp hnodup).2.2 y hy
    exact ⟨hdisjoint l (by simp), hdisjoint r (by simp)⟩
  have htail := (List.nodup_append.mp hnodup).2.1
  have hlr : l ≠ r := fun heq => by simp [heq] at htail
  have hsub' : ∀ y ∈ ys, y ≠ l ∧ y ≠ r := by
    intro y hy
    constructor
    · rintro rfl
      simp [hy] at htail
    · rintro rfl
      simp [hy] at htail
  refine ⟨hxs.congr fun y hy => ?_, hl0, ?_, hl, hr0, hr, ?_, hys.congr fun y hy => ?_⟩
  · exact ⟨hnext y (by simp [hy]) (hsub y hy).1, hprev y (by simp [hy]) (hsub y hy).2⟩
  · exact (hprev l (by simp) hlr).trans hprevl
  · exact (hnext r (by simp) hlr.symm).trans hnextr
  · exact ⟨hnext y (by simp [hy]) (hsub' y hy).1, hprev y (by simp [hy]) (hsub' y hy).2⟩

end DoublyLinked
