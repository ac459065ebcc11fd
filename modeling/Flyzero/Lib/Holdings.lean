import Mathlib.Data.Option.Basic
import Mathlib.Logic.Function.Basic

/-! Owners of parts of a resource: each place of it is as it was at first, or has one owner. -/
namespace Holdings
variable {α β ρ κ : Type*} {covers : ρ → α → Prop} {free : β} {base mem mem' : α → β}
  {held held' : κ → Option ρ} {k l : κ} {r : ρ}

/-- The parts that are held have been free, are not free, and do not overlap. -/
structure Held (covers : ρ → α → Prop) (free : β) (base mem : α → β) (held : κ → Option ρ) :
    Prop where
  outside : ∀ a, (∀ k r, held k = some r → ¬ covers r a) → mem a = base a
  inside : ∀ k r a, held k = some r → covers r a → base a = free ∧ mem a ≠ free
  apart : ∀ k l r s a, held k = some r → held l = some s → covers r a → covers s a → k = l

theorem held_nothing : Held covers free base base (fun _ : κ => none) :=
  ⟨fun _ _ => rfl, nofun, nofun⟩

theorem Held.eq_base (h : Held covers free base mem held) (hnone : ∀ k, held k = none) :
    mem = base := by
  funext a
  refine h.outside a fun k r hk => ?_
  simp [hnone k] at hk

theorem Held.congr (h : Held covers free base mem held)
    (hheld : ∀ k r a, covers r a → (held' k = some r ↔ held k = some r)) :
    Held covers free base mem held' := by
  refine ⟨fun a ha => h.outside a fun k r hk hcovers => ?_, fun k r a hk hcovers => ?_,
    fun k l r s a hk hl hr hs => ?_⟩
  · exact ha k r ((hheld k r a hcovers).mpr hk) hcovers
  · exact h.inside k r a ((hheld k r a hcovers).mp hk) hcovers
  · exact h.apart k l r s a ((hheld k r a hr).mp hk) ((hheld l s a hs).mp hl) hr hs

variable [DecidableEq κ]

theorem Held.acquire (h : Held covers free base mem held) (hk : held k = none)
    (hfree : ∀ a, covers r a → mem a = free) (htaken : ∀ a, covers r a → mem' a ≠ free)
    (hframe : ∀ a, ¬ covers r a → mem' a = mem a) :
    Held covers free base mem' (Function.update held k (some r)) := by
  have hnew (l : κ) (s : ρ) (a : α) (hl : held l = some s) (hs : covers s a) : ¬ covers r a := by
    intro hr
    exact (h.inside l s a hl hs).2 (hfree a hr)
  refine ⟨fun a ha => ?_, fun l s a hl hs => ?_, fun l m s t a hl hm hs ht => ?_⟩
  · have hr : ¬ covers r a := ha k r (Function.update_self ..)
    rw [hframe a hr]
    refine h.outside a fun l s hl => ha l s ?_
    have hne : l ≠ k := by
      intro heq
      simp [heq, hk] at hl
    rwa [Function.update_of_ne hne]
  · by_cases hlk : l = k
    · rw [hlk, Function.update_self] at hl
      obtain rfl := Option.some.inj hl
      refine ⟨?_, htaken a hs⟩
      rw [← hfree a hs]
      exact (h.outside a fun m t hm ht => hnew m t a hm ht hs).symm
    · rw [Function.update_of_ne hlk] at hl
      rw [hframe a (hnew l s a hl hs)]
      exact h.inside l s a hl hs
  · by_cases hlk : l = k <;> by_cases hmk : m = k
    · rw [hlk, hmk]
    · rw [hlk, Function.update_self] at hl
      rw [Function.update_of_ne hmk] at hm
      exact absurd (Option.some.inj hl ▸ hs) (hnew m t a hm ht)
    · rw [Function.update_of_ne hlk] at hl
      rw [hmk, Function.update_self] at hm
      exact absurd (Option.some.inj hm ▸ ht) (hnew l s a hl hs)
    · rw [Function.update_of_ne hlk] at hl
      rw [Function.update_of_ne hmk] at hm
      exact h.apart l m s t a hl hm hs ht

theorem Held.release (h : Held covers free base mem held) (hk : held k = some r)
    (hgiven : ∀ a, covers r a → mem' a = free) (hframe : ∀ a, ¬ covers r a → mem' a = mem a) :
    Held covers free base mem' (Function.update held k none) := by
  have hother {l : κ} {s : ρ} (hl : Function.update held k none l = some s) :
      l ≠ k ∧ held l = some s := by
    by_cases hlk : l = k
    · simp [hlk] at hl
    · exact ⟨hlk, by rwa [Function.update_of_ne hlk] at hl⟩
  refine ⟨fun a ha => ?_, fun l s a hl hs => ?_, fun l m s t a hl hm hs ht => ?_⟩
  · by_cases hr : covers r a
    · rw [hgiven a hr, (h.inside k r a hk hr).1]
    · rw [hframe a hr]
      refine h.outside a fun l s hl hs => ?_
      by_cases hlk : l = k
      · rw [hlk, hk] at hl
        exact hr (Option.some.inj hl ▸ hs)
      · exact ha l s (by rwa [Function.update_of_ne hlk]) hs
  · obtain ⟨hlk, hl⟩ := hother hl
    have hr : ¬ covers r a := by
      intro hr
      exact hlk (h.apart l k s r a hl hk hs hr)
    rw [hframe a hr]
    exact h.inside l s a hl hs
  · exact h.apart l m s t a (hother hl).2 (hother hm).2 hs ht

theorem Held.transfer (h : Held covers free base mem held) (hk : held k = some r)
    (hl : held l = none) :
    Held covers free base mem (Function.update (Function.update held k none) l (some r)) := by
  -- the owner before
  let owner (m : κ) : κ := if m = l then k else m
  have hne : k ≠ l := by
    intro heq
    simp [← heq, hk] at hl
  have howner {m : κ} {s : ρ}
      (hm : Function.update (Function.update held k none) l (some r) m = some s) :
      held (owner m) = some s ∧ m ≠ k := by
    by_cases hml : m = l
    · rw [hml, Function.update_self] at hm
      simp only [owner, hml, if_true]
      exact ⟨hk.trans hm, hne.symm⟩
    · rw [Function.update_of_ne hml] at hm
      by_cases hmk : m = k
      · simp [hmk] at hm
      · rw [Function.update_of_ne hmk] at hm
        simp only [owner, hml, if_false]
        exact ⟨hm, hmk⟩
  refine ⟨fun a ha => h.outside a fun m s hm hs => ?_, fun m s a hm hs => ?_,
    fun m n s t a hm hn hs ht => ?_⟩
  · by_cases hmk : m = k
    · rw [hmk, hk] at hm
      exact ha l s (by rw [Function.update_self, hm]) hs
    · have hml : m ≠ l := by
        intro heq
        simp [heq, hl] at hm
      exact ha m s (by rwa [Function.update_of_ne hml, Function.update_of_ne hmk]) hs
  · exact h.inside _ s a (howner hm).1 hs
  · obtain ⟨hm, hmk⟩ := howner hm
    obtain ⟨hn, hnk⟩ := howner hn
    have hsame := h.apart _ _ s t a hm hn hs ht
    by_cases hml : m = l <;> by_cases hnl : n = l <;> simp_all [owner]

theorem Held.move (h : Held covers free base mem held) {v : Option ρ} (hk : held k = v)
    (hl : held l = none) :
    Held covers free base mem (Function.update (Function.update held k none) l v) := by
  cases v with
  | none =>
    have hkeep : Function.update held k none = held := Function.update_eq_self_iff.mpr hk.symm
    rwa [hkeep, Function.update_eq_self_iff.mpr hl.symm]
  | some r => exact h.transfer hk hl

end Holdings
