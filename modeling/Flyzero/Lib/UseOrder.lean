import Mathlib.Data.List.Induction
import Mathlib.Data.List.Nodup

/-! Orders by last use: what is used goes to the end of the list. -/
namespace UseOrder
variable {α : Type*} [DecidableEq α]

def use (l : List α) (q : α) : List α := l.erase q ++ [q]

def uses (l : List α) (log : List α) : List α := log.foldl use l

/-- If `p` is used, everything else that is in the list by its last use is used after it. -/
def Overtaken (p : α) (l log : List α) : Prop :=
  p ∈ log → ∃ before after, log = before ++ p :: after ∧ p ∉ after ∧
    ∀ q, q ∈ l ∨ q ∈ before → q ≠ p → q ∈ after

variable {p q : α} {l log log' : List α}

theorem uses_concat : uses l (log ++ [q]) = use (uses l log) q := by
  rw [uses, List.foldl_append]
  rfl

theorem uses_append : uses l (log ++ log') = uses (uses l log) log' := List.foldl_append

theorem mem_use (h : l.Nodup) {x : α} : x ∈ use l q ↔ x ∈ l ∨ x = q := by
  rw [use, List.mem_append, h.mem_erase_iff, List.mem_singleton]
  tauto

theorem nodup_use (h : l.Nodup) : (use l q).Nodup := by
  refine List.nodup_append.mpr ⟨h.erase q, List.nodup_singleton q, fun x hx y hy => ?_⟩
  rw [List.mem_singleton.mp hy]
  exact (h.mem_erase_iff.mp hx).1

theorem nodup_uses (h : l.Nodup) (log : List α) : (uses l log).Nodup := by
  induction log generalizing l with
  | nil => exact h
  | cons q log ih => exact ih (nodup_use h)

theorem mem_uses (h : l.Nodup) {x : α} : x ∈ uses l log ↔ x ∈ l ∨ x ∈ log := by
  induction log generalizing l with
  | nil => simp [uses]
  | cons q log ih =>
    change x ∈ uses (use l q) log ↔ _
    rw [ih (nodup_use h), mem_use h, List.mem_cons, or_assoc]

theorem uses_eq (h : l.Nodup) : uses l log = l.filter (· ∉ log) ++ uses [] log := by
  induction log using List.reverseRecOn with
  | nil => simp [uses]
  | append_singleton log q ih =>
    have hnodup := nodup_uses h log
    have hrest : (uses ([] : List α) log).Nodup := nodup_uses List.nodup_nil log
    rw [uses_concat, uses_concat, use, use, hnodup.erase_eq_filter, hrest.erase_eq_filter, ih,
      List.filter_append, List.filter_filter, List.append_assoc]
    simp [and_comm, bne, beq_eq_decide]

omit [DecidableEq α] in
theorem exists_last (h : p ∈ log) : ∃ before after, log = before ++ p :: after ∧ p ∉ after := by
  obtain ⟨after, before, heq, hout⟩ := List.eq_append_cons_of_mem (List.mem_reverse.mpr h)
  refine ⟨before.reverse, after.reverse, ?_, fun hmem => hout (List.mem_reverse.mp hmem)⟩
  rw [← List.reverse_reverse log, heq]
  simp

theorem head?_uses_last {before after : List α} (h : l.Nodup) (hafter : p ∉ after) :
    (uses l (before ++ p :: after)).head? = some p ↔
      ∀ q, q ∈ l ∨ q ∈ before → q ≠ p → q ∈ after := by
  have hnodup := nodup_uses h before
  have hsplit : uses l (before ++ p :: after) =
      ((uses l before).erase p).filter (· ∉ after) ++ p :: uses [] after := by
    rw [uses_append]
    change uses (use (uses l before) p) after = _
    rw [uses_eq (nodup_use hnodup), use, List.filter_append]
    simp [hafter]
  have hothers : ∀ q, q ∈ ((uses l before).erase p).filter (· ∉ after) ↔
      (q ≠ p ∧ (q ∈ l ∨ q ∈ before)) ∧ q ∉ after := by
    intro q
    rw [List.mem_filter, hnodup.mem_erase_iff, mem_uses h, decide_eq_true_iff]
  rw [hsplit]
  constructor
  · intro hhead q hq hne
    by_contra hout
    cases hkept : ((uses l before).erase p).filter (· ∉ after) with
    | nil =>
      have hmem := (hothers q).mpr ⟨⟨hne, hq⟩, hout⟩
      rw [hkept] at hmem
      cases hmem
    | cons x kept =>
      rw [hkept] at hhead
      have hx : x = p := Option.some.inj hhead
      exact ((hothers x).mp (hkept ▸ List.mem_cons_self)).1.1 hx
  · intro hall
    have hnone : ((uses l before).erase p).filter (· ∉ after) = [] := by
      refine List.eq_nil_iff_forall_not_mem.mpr fun q hq => ?_
      obtain ⟨⟨hne, hmem⟩, hout⟩ := (hothers q).mp hq
      exact hout (hall q hmem hne)
    rw [hnone]
    rfl

/-- The front stays in front while it is not used, and gets there again when all others pass it. -/
theorem head?_uses {rest : List α} (h : (p :: rest).Nodup) :
    (uses (p :: rest) log).head? = some p ↔ Overtaken p (p :: rest) log := by
  by_cases hlog : p ∈ log
  · constructor
    · intro hhead _
      obtain ⟨before, after, rfl, hafter⟩ := exists_last hlog
      exact ⟨before, after, rfl, hafter, (head?_uses_last h hafter).mp hhead⟩
    · intro hover
      obtain ⟨before, after, rfl, hafter, hall⟩ := hover hlog
      exact (head?_uses_last h hafter).mpr hall
  · have hkept : (p :: rest).filter (· ∉ log) = p :: rest.filter (· ∉ log) :=
      List.filter_cons_of_pos (by simpa using hlog)
    rw [uses_eq h, hkept]
    exact iff_of_true rfl fun hmem => absurd hmem hlog

end UseOrder
