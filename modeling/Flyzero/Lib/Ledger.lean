import Flyzero.Lib.Runs
import Mathlib.Data.Multiset.AddSub

/-! Books on resources that are allocated, then destroyed, then given back. -/
namespace Ledger
variable {α : Type*}

inductive Entry (α : Type*) where
  | allocate (x : α)
  | destroy (x : α)
  | deallocate (x : α)

/-- What is held, and what of it has been destroyed already. -/
structure Books (α : Type*) where
  alive : Multiset α
  destroyed : Multiset α

def Books.empty : Books α := { alive := 0, destroyed := 0 }

section
variable [DecidableEq α]

/-- Only what is held is destroyed and only what is destroyed is given back. -/
def Books.record (b : Books α) : Entry α → Option (Books α)
  | .allocate x => some { b with alive := x ::ₘ b.alive }
  | .destroy x =>
    if x ∈ b.alive then some { alive := b.alive.erase x, destroyed := x ::ₘ b.destroyed } else none
  | .deallocate x =>
    if x ∈ b.destroyed then some { b with destroyed := b.destroyed.erase x } else none

def books (es : List (Entry α)) : Option (Books α) := Runs.exec Books.record .empty es

variable {x y : α} {es : List (Entry α)} {held : Multiset α}

theorem books_allocate (h : books es = some { alive := held, destroyed := 0 }) :
    books (es ++ [.allocate x]) = some { alive := x ::ₘ held, destroyed := 0 } :=
  Runs.exec_concat.mpr ⟨_, h, rfl⟩

theorem books_release (h : books es = some { alive := x ::ₘ held, destroyed := 0 }) :
    books (es ++ [.destroy x, .deallocate x]) = some { alive := held, destroyed := 0 } := by
  have hdestroy : books (es ++ [.destroy x]) = some { alive := held, destroyed := {x} } := by
    refine Runs.exec_concat.mpr ⟨_, h, ?_⟩
    simp [Books.record]
  have hdeallocate : books (es ++ [.destroy x] ++ [.deallocate x]) =
      some { alive := held, destroyed := 0 } := by
    refine Runs.exec_concat.mpr ⟨_, hdestroy, ?_⟩
    simp [Books.record]
  rwa [List.append_assoc] at hdeallocate

theorem books_replace (h : books es = some { alive := x ::ₘ held, destroyed := 0 }) :
    books (es ++ [.allocate y, .destroy x, .deallocate x]) =
      some { alive := y ::ₘ held, destroyed := 0 } := by
  have hboth : books (es ++ [.allocate y]) =
      some { alive := x ::ₘ y ::ₘ held, destroyed := 0 } := by
    rw [books_allocate h, Multiset.cons_swap]
  have hrelease := books_release hboth
  rwa [List.append_assoc] at hrelease

end

end Ledger
