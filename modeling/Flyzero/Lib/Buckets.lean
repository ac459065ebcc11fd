import Mathlib.Data.List.Nodup
import Mathlib.Data.List.Perm.Basic
import Mathlib.Data.Nat.Bitwise
import Mathlib.Logic.Function.Basic

/-! Intrusive hash tables: elements chained in buckets by the hash each carries in its hook. -/
namespace Buckets
variable {α : Type*}

def slot (count : Nat) (h : BitVec 64) : Nat := h.toNat &&& (count - 1)

theorem slot_lt {count : Nat} (h : BitVec 64) (hcount : ∃ k, count = 2 ^ k) :
    slot count h < count := by
  obtain ⟨k, rfl⟩ := hcount
  rw [slot, Nat.and_two_pow_sub_one_eq_mod]
  exact Nat.mod_lt _ (Nat.two_pow_pos k)

end Buckets

/-- A table with its elements in the buckets of their stored hashes, each of them once. -/
structure Buckets (α : Type*) where
  count : Nat
  bucket : Nat → List α
  stored : α → BitVec 64
  pow2 : ∃ k, count = 2 ^ k
  placed : ∀ b, ∀ x ∈ bucket b, b = Buckets.slot count (stored x)
  nodup : ∀ b, (bucket b).Nodup

namespace Buckets
variable {α : Type*} (t : Buckets α)

def Linked (x : α) : Prop := x ∈ t.bucket (slot t.count (t.stored x))

theorem mem_bucket {b : Nat} {x : α} :
    x ∈ t.bucket b ↔ t.Linked x ∧ b = slot t.count (t.stored x) := by
  constructor
  · intro hx
    have hb := t.placed b x hx
    exact ⟨by rwa [Linked, ← hb], hb⟩
  · rintro ⟨hx, rfl⟩
    exact hx

def elements : List α := (List.range t.count).flatMap t.bucket

@[simp] theorem mem_elements {x : α} : x ∈ t.elements ↔ t.Linked x := by
  simp only [elements, List.mem_flatMap, List.mem_range, mem_bucket]
  constructor
  · rintro ⟨b, -, hx, -⟩
    exact hx
  · intro hx
    exact ⟨_, slot_lt _ t.pow2, hx, rfl⟩

theorem nodup_elements : t.elements.Nodup := by
  rw [elements, List.nodup_flatMap]
  refine ⟨fun b _ => t.nodup b, List.nodup_range.imp ?_⟩
  intro b c hne x hb hc
  exact hne ((t.placed b x hb).trans (t.placed c x hc).symm)

def empty (count : Nat) (hcount : ∃ k, count = 2 ^ k) : Buckets α where
  count := count
  bucket _ := []
  stored _ := 0
  pow2 := hcount
  placed _ _ hx := absurd hx List.not_mem_nil
  nodup _ := .nil

@[simp] theorem not_linked_empty {count : Nat} (hcount : ∃ k, count = 2 ^ k) (x : α) :
    ¬ (empty count hcount).Linked x := List.not_mem_nil

def find? (h : BitVec 64) (same : α → Bool) : Option α :=
  (t.bucket (slot t.count h)).find? fun x => t.stored x == h && same x

theorem find?_some {h : BitVec 64} {same : α → Bool} {x : α} (hx : t.find? h same = some x) :
    t.Linked x ∧ same x = true := by
  have hmem := List.mem_of_find?_eq_some hx
  have hsame := List.find?_some hx
  exact ⟨(t.mem_bucket.mp hmem).1, (Bool.and_eq_true_iff.mp hsame).2⟩

/-- What is not found is not there, when the matches carry the hash. -/
theorem find?_none {h : BitVec 64} {same : α → Bool} (hnone : t.find? h same = none)
    (hhash : ∀ x, t.Linked x → same x = true → t.stored x = h) (x : α) (hx : t.Linked x) :
    same x = false := by
  by_contra hsame
  have hsame : same x = true := by simpa using hsame
  have hh := hhash x hx hsame
  have hmem : x ∈ t.bucket (slot t.count h) := t.mem_bucket.mpr ⟨hx, by rw [hh]⟩
  have := List.find?_eq_none.mp hnone x hmem
  simp [hh, hsame] at this

section
variable [DecidableEq α]

instance (x : α) : Decidable (t.Linked x) := inferInstanceAs (Decidable (x ∈ t.bucket _))

def insertCommit (x : α) (h : BitVec 64) (hx : ¬ t.Linked x) : Buckets α where
  count := t.count
  bucket := Function.update t.bucket (slot t.count h) (x :: t.bucket (slot t.count h))
  stored := Function.update t.stored x h
  pow2 := t.pow2
  placed := by
    have hother : ∀ b, ∀ y ∈ t.bucket b, b = slot t.count (Function.update t.stored x h y) := by
      intro b y hy
      have hne : y ≠ x := fun heq => hx (heq ▸ (t.mem_bucket.mp hy).1)
      rw [Function.update_of_ne hne]
      exact t.placed b y hy
    intro b y hy
    rcases Decidable.em (b = slot t.count h) with rfl | hb
    · rw [Function.update_self, List.mem_cons] at hy
      rcases hy with rfl | hy
      · rw [Function.update_self]
      · exact hother _ y hy
    · rw [Function.update_of_ne hb] at hy
      exact hother b y hy
  nodup := by
    intro b
    rcases Decidable.em (b = slot t.count h) with rfl | hb
    · rw [Function.update_self, List.nodup_cons]
      exact ⟨fun hmem => hx (t.mem_bucket.mp hmem).1, t.nodup _⟩
    · rw [Function.update_of_ne hb]
      exact t.nodup b

theorem linked_insertCommit {x : α} {h : BitVec 64} {hx : ¬ t.Linked x} {y : α} :
    (t.insertCommit x h hx).Linked y ↔ y = x ∨ t.Linked y := by
  have hmem : (t.insertCommit x h hx).Linked y ↔ ∃ b, y ∈ (t.insertCommit x h hx).bucket b :=
    ⟨fun hy => ⟨_, hy⟩, fun ⟨b, hy⟩ => ((mem_bucket _).mp hy).1⟩
  rw [hmem]
  constructor
  · rintro ⟨b, hy⟩
    simp only [insertCommit, Function.update_apply] at hy
    split at hy
    · rcases List.mem_cons.mp hy with rfl | hy
      · exact .inl rfl
      · exact .inr (t.mem_bucket.mp hy).1
    · exact .inr (t.mem_bucket.mp hy).1
  · intro hy
    rcases Decidable.em (y = x) with rfl | hne
    · refine ⟨slot t.count h, ?_⟩
      simp [insertCommit]
    · have hy := hy.resolve_left hne
      refine ⟨slot t.count (t.stored y), ?_⟩
      simp only [insertCommit, Function.update_apply]
      split
      · rename_i hs
        exact List.mem_cons_of_mem _ (hs ▸ hy)
      · exact hy

theorem stored_insertCommit {x : α} {h : BitVec 64} {hx : ¬ t.Linked x} {y : α} :
    (t.insertCommit x h hx).stored y = if y = x then h else t.stored y := by
  simp [insertCommit, Function.update_apply]

def erase (x : α) : Buckets α where
  count := t.count
  bucket := Function.update t.bucket (slot t.count (t.stored x))
    ((t.bucket (slot t.count (t.stored x))).erase x)
  stored := t.stored
  pow2 := t.pow2
  placed := by
    intro b y hy
    rcases Decidable.em (b = slot t.count (t.stored x)) with rfl | hb
    · rw [Function.update_self] at hy
      exact t.placed _ y (List.mem_of_mem_erase hy)
    · rw [Function.update_of_ne hb] at hy
      exact t.placed b y hy
  nodup := by
    intro b
    rcases Decidable.em (b = slot t.count (t.stored x)) with rfl | hb
    · rw [Function.update_self]
      exact (t.nodup _).erase x
    · rw [Function.update_of_ne hb]
      exact t.nodup b

theorem linked_erase {x y : α} : (t.erase x).Linked y ↔ y ≠ x ∧ t.Linked y := by
  change y ∈ Function.update t.bucket _ _ (slot t.count (t.stored y)) ↔ _
  rcases Decidable.em (slot t.count (t.stored y) = slot t.count (t.stored x)) with hs | hs
  · rw [hs, Function.update_self, (t.nodup _).mem_erase_iff, Linked, hs]
  · rw [Function.update_of_ne hs]
    exact ⟨fun hy => ⟨fun heq => hs (heq ▸ rfl), hy⟩, fun hy => hy.2⟩

end

def rehash (count : Nat) (hcount : ∃ k, count = 2 ^ k) : Buckets α where
  count := count
  bucket b := t.elements.filter fun x => slot count (t.stored x) = b
  stored := t.stored
  pow2 := hcount
  placed _ _ hx := (of_decide_eq_true (List.mem_filter.mp hx).2).symm
  nodup _ := t.nodup_elements.filter _

theorem linked_rehash {count : Nat} {hcount : ∃ k, count = 2 ^ k} {x : α} :
    (t.rehash count hcount).Linked x ↔ t.Linked x := by
  rw [Linked, rehash, List.mem_filter, mem_elements]
  simp

end Buckets
