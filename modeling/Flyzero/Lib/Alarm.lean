import Mathlib.Algebra.Order.Group.Defs
import Mathlib.Data.List.Chain

/-! A periodic alarm that somebody polls: how often it goes off, and how late. -/
namespace Alarm
variable {α : Type*}

def armings (start : α) (calls : List (α × Bool)) : List α := start :: calls.map Prod.fst

@[simp] theorem armings_nil (start : α) : armings start [] = [start] := rfl

@[simp] theorem armings_concat (start : α) (calls : List (α × Bool)) (call : α × Bool) :
    armings start (calls ++ [call]) = armings start calls ++ [call.1] := by
  simp [armings]

variable [AddCommGroup α] [LinearOrder α]

/-- Armed at `start`, the alarm has been polled at these times, has gone off at these with the
answer whether to go on, and is due at `next`. It is armed anew by the poll, whenever it was due. -/
inductive Polled (period start : α) : List α → List (α × Bool) → Option α → Prop
  | armed : Polled period start [] [] (some (start + period))
  | early {polls calls next now} (h : Polled period start polls calls next)
    (hearly : ∀ d ∈ next, now < d) : Polled period start (polls ++ [now]) calls next
  | rings {polls calls d now} (again : Bool) (h : Polled period start polls calls (some d))
    (hdue : d ≤ now) : Polled period start (polls ++ [now]) (calls ++ [(now, again)])
      (if again then some (now + period) else none)

namespace Polled
variable {period start gap d p : α} {polls : List α} {calls : List (α × Bool)} {next : Option α}

theorem due (h : Polled period start polls calls next) (hd : next = some d) :
    ∃ a, (armings start calls).getLast? = some a ∧ d = a + period := by
  induction h with
  | armed => exact ⟨start, rfl, (Option.some.inj hd).symm⟩
  | early _ _ ih => exact ih hd
  | @rings polls calls d' now again _ _ _ =>
    refine ⟨now, by simp, ?_⟩
    cases again with
    | false => cases hd
    | true => exact (Option.some.inj hd).symm

theorem spaced (h : Polled period start polls calls next) :
    (armings start calls).IsChain fun a b => a + period ≤ b := by
  induction h with
  | armed => exact List.isChain_singleton start
  | early _ _ ih => exact ih
  | rings again h hdue ih =>
    obtain ⟨a, ha, rfl⟩ := h.due rfl
    rw [armings_concat]
    refine List.isChain_append.mpr ⟨ih, List.isChain_singleton _, ?_⟩
    simp [ha, hdue]

theorem goesOn (h : Polled period start polls calls next) (hd : next = some d) :
    ∀ call ∈ calls, call.2 = true := by
  induction h generalizing d with
  | armed => simp
  | early _ _ ih => exact ih hd
  | @rings polls calls d' now again _ _ ih =>
    intro call hcall
    cases List.mem_append.mp hcall with
    | inl hold => exact ih rfl call hold
    | inr hnew =>
      obtain rfl := List.mem_singleton.mp hnew
      cases again with
      | false => cases hd
      | true => rfl

theorem stopped (h : Polled period start polls calls next) (hnone : next = none) :
    ∃ before now, calls = before ++ [(now, false)] ∧ ∀ call ∈ before, call.2 = true := by
  induction h with
  | armed => cases hnone
  | early _ _ ih => exact ih hnone
  | @rings polls calls d' now again h _ _ =>
    cases again with
    | false => exact ⟨calls, now, rfl, h.goesOn rfl⟩
    | true => cases hnone

variable [IsOrderedAddMonoid α]

theorem ahead (h : Polled period start polls calls next) (hpos : 0 < period)
    (hd : next = some d) (hp : (start :: polls).getLast? = some p) : p < d := by
  cases h with
  | armed =>
    obtain rfl : start = p := by simpa using hp
    obtain rfl := Option.some.inj hd
    exact lt_add_of_pos_right start hpos
  | early _ hearly =>
    rw [← List.cons_append, List.getLast?_concat] at hp
    cases hp
    exact hearly d hd
  | @rings polls calls d' now again _ _ =>
    rw [← List.cons_append, List.getLast?_concat] at hp
    cases hp
    cases again with
    | false => cases hd
    | true =>
      obtain rfl := Option.some.inj hd
      exact lt_add_of_pos_right _ hpos

/-- Polled often enough, it is late by less than the time between two polls. -/
theorem prompt (h : Polled period start polls calls next) (hpos : 0 < period)
    (hgap : (start :: polls).IsChain fun a b => b ≤ a + gap) :
    (armings start calls).IsChain fun a b => b < a + period + gap := by
  induction h with
  | armed => exact List.isChain_singleton start
  | early _ _ ih =>
    rw [← List.cons_append] at hgap
    exact ih (List.isChain_append.mp hgap).1
  | @rings polls calls d now again h hdue ih =>
    rw [← List.cons_append] at hgap
    obtain ⟨hgaps, -, hlast⟩ := List.isChain_append.mp hgap
    obtain ⟨a, ha, rfl⟩ := h.due rfl
    rw [armings_concat]
    refine List.isChain_append.mpr ⟨ih hgaps, List.isChain_singleton _, ?_⟩
    obtain ⟨p, hp⟩ : ∃ p, (start :: polls).getLast? = some p := ⟨_, List.getLast?_cons⟩
    have hahead : p < a + period := h.ahead hpos rfl hp
    have hpoll : now ≤ p + gap := hlast p hp now (by simp)
    have hlate : now < a + period + gap :=
      lt_of_le_of_lt hpoll (add_lt_add_left hahead gap)
    simp [ha, hlate]

end Polled

end Alarm
