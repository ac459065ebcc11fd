import Mathlib.Data.Finset.Erase
import Mathlib.Data.Finset.Insert
import Mathlib.Logic.Function.Basic

/-! Descriptors that lead to open files, several of them to one, and watches on both. A watch
belongs to a number and a file, and goes with the last descriptor of the file. -/
namespace OpenFiles
variable {φ ι : Type*}

structure Table (φ ι : Type*) where
  opened : Finset Int
  file : Int → φ
  watch : Int → φ → Option ι

namespace Table
variable {t : Table φ ι} {fd n other : Int} {f : φ} {l : ι}

def Opens (t : Table φ ι) (f : φ) : Prop := ∃ n ∈ t.opened, t.file n = f

def Shared (t : Table φ ι) (fd : Int) : Prop := ∃ n ∈ t.opened, n ≠ fd ∧ t.file n = t.file fd

instance [DecidableEq φ] (t : Table φ ι) (f : φ) : Decidable (t.Opens f) :=
  inferInstanceAs (Decidable (∃ n ∈ t.opened, t.file n = f))

instance [DecidableEq φ] (t : Table φ ι) (fd : Int) : Decidable (t.Shared fd) :=
  inferInstanceAs (Decidable (∃ n ∈ t.opened, n ≠ fd ∧ t.file n = t.file fd))

def insert (t : Table φ ι) (fd : Int) (f : φ) : Table φ ι :=
  { t with opened := Insert.insert fd t.opened, file := Function.update t.file fd f }

section
variable [DecidableEq φ]

def close (t : Table φ ι) (fd : Int) : Table φ ι :=
  { t with
    opened := t.opened.erase fd
    watch := fun n f => if ¬ t.Shared fd ∧ f = t.file fd then none else t.watch n f }

def setWatch (t : Table φ ι) (fd : Int) (x : Option ι) : Table φ ι :=
  { t with watch := fun n f => if n = fd ∧ f = t.file fd then x else t.watch n f }

def add (t : Table φ ι) (fd : Int) (l : ι) : Option (Table φ ι) :=
  if fd ∈ t.opened ∧ (t.watch fd (t.file fd)).isNone then some (t.setWatch fd (some l)) else none

def del (t : Table φ ι) (fd : Int) : Option (Table φ ι) :=
  if fd ∈ t.opened ∧ (t.watch fd (t.file fd)).isSome then some (t.setWatch fd none) else none

end

def Known (t : Table φ ι) : Prop := ∀ n f l, t.watch n f = some l → t.Opens f

@[simp] theorem insert_watch : (t.insert fd f).watch = t.watch := rfl

theorem mem_insert : n ∈ (t.insert fd f).opened ↔ n = fd ∨ n ∈ t.opened := Finset.mem_insert

theorem insert_file_of_ne (h : n ≠ fd) : (t.insert fd f).file n = t.file n :=
  Function.update_of_ne h _ _

@[simp] theorem insert_file_self : (t.insert fd f).file fd = f := Function.update_self _ _ _

theorem insert_file_of_mem (hfd : fd ∉ t.opened) (hn : n ∈ t.opened) :
    (t.insert fd f).file n = t.file n := by
  refine insert_file_of_ne ?_
  intro h
  exact hfd (h ▸ hn)

theorem Opens.insert {g : φ} (hfd : fd ∉ t.opened) (h : t.Opens g) : (t.insert fd f).Opens g := by
  obtain ⟨n, hn, hfile⟩ := h
  exact ⟨n, mem_insert.mpr (.inr hn), (insert_file_of_mem hfd hn).trans hfile⟩

theorem Known.insert (h : t.Known) (hfd : fd ∉ t.opened) : (t.insert fd f).Known :=
  fun n g l hw => (h n g l hw).insert hfd

section
variable [DecidableEq φ]

theorem watch_close : (t.close fd).watch n f =
    if ¬ t.Shared fd ∧ f = t.file fd then none else t.watch n f := rfl

theorem mem_close : n ∈ (t.close fd).opened ↔ n ≠ fd ∧ n ∈ t.opened := Finset.mem_erase

@[simp] theorem close_file : (t.close fd).file = t.file := rfl

theorem watch_of_close (h : (t.close fd).watch n f = some l) :
    t.watch n f = some l ∧ (f = t.file fd → t.Shared fd) := by
  rw [watch_close] at h
  split at h
  · cases h
  · rename_i hkept
    refine ⟨h, fun hf => ?_⟩
    by_contra hshared
    exact hkept ⟨hshared, hf⟩

theorem Shared.watch_close (h : t.Shared fd) : (t.close fd).watch n f = t.watch n f := by
  simp [Table.watch_close, h]

theorem Known.close (h : t.Known) : (t.close fd).Known := by
  intro n f l hw
  obtain ⟨hw, hshared⟩ := watch_of_close hw
  obtain ⟨m, hm, hfile⟩ := h n f l hw
  by_cases heq : m = fd
  · obtain ⟨m', hm', hne, hsame⟩ := hshared (by rw [← hfile, heq])
    exact ⟨m', mem_close.mpr ⟨hne, hm'⟩, by rw [close_file, hsame, ← heq, hfile]⟩
  · exact ⟨m, mem_close.mpr ⟨heq, hm⟩, hfile⟩

theorem watch_setWatch {x : Option ι} : (t.setWatch fd x).watch n f =
    if n = fd ∧ f = t.file fd then x else t.watch n f := rfl

theorem add_some {t' : Table φ ι} (h : t.add fd l = some t') :
    fd ∈ t.opened ∧ t' = t.setWatch fd (some l) := by
  unfold add at h
  split at h
  · rename_i hfree
    cases h
    exact ⟨hfree.1, rfl⟩
  · cases h

theorem del_some {t' : Table φ ι} (h : t.del fd = some t') :
    fd ∈ t.opened ∧ t' = t.setWatch fd none := by
  unfold del at h
  split at h
  · rename_i hfound
    cases h
    exact ⟨hfound.1, rfl⟩
  · cases h

theorem Known.setWatch (h : t.Known) (hfd : fd ∈ t.opened) (x : Option ι) :
    (t.setWatch fd x).Known := by
  intro n f l hw
  rw [watch_setWatch] at hw
  split at hw
  · rename_i heq
    exact ⟨fd, hfd, heq.2.symm⟩
  · exact h n f l hw

/-- Who watches lives, has the descriptor still, and watches the file behind it. -/
def Leads (t : Table φ ι) (own : ι → Option Int) : Prop :=
  ∀ n f l, t.watch n f = some l → own l = some n ∧ n ∈ t.opened ∧ t.file n = f

def Watched (t : Table φ ι) (fd : Int) : Prop := (t.watch fd (t.file fd)).isSome

variable {own own' : ι → Option Int} {x : ι}

omit [DecidableEq φ] in
theorem Leads.known (h : t.Leads own) : t.Known := by
  intro n f l hw
  obtain ⟨-, hn, hfile⟩ := h n f l hw
  exact ⟨n, hn, hfile⟩

omit [DecidableEq φ] in
theorem Leads.watched (h : t.Leads own) (hfd : t.Watched fd) :
    fd ∈ t.opened ∧ ∃ l, own l = some fd ∧ t.watch fd (t.file fd) = some l := by
  obtain ⟨l, hw⟩ := Option.isSome_iff_exists.mp hfd
  obtain ⟨hl, hmem, -⟩ := h fd _ l hw
  exact ⟨hmem, l, hl, hw⟩

omit [DecidableEq φ] in
theorem Leads.mono (h : t.Leads own)
    (hown : ∀ l n, n ∈ t.opened → own l = some n → own' l = some n) : t.Leads own' := by
  intro n f l hw
  obtain ⟨hl, hn, hfile⟩ := h n f l hw
  exact ⟨hown l n hn hl, hn, hfile⟩

omit [DecidableEq φ] in
theorem Leads.insert (h : t.Leads own) (hfd : fd ∉ t.opened) : (t.insert fd f).Leads own := by
  intro n g l hw
  obtain ⟨hl, hn, hfile⟩ := h n g l hw
  exact ⟨hl, mem_insert.mpr (.inr hn), (insert_file_of_mem hfd hn).trans hfile⟩

theorem Leads.close (h : t.Leads own) (hfree : ∀ l, own l ≠ some fd) :
    (t.close fd).Leads own := by
  intro n g l hw
  obtain ⟨hl, hn, hfile⟩ := h n g l (watch_of_close hw).1
  have hne : n ≠ fd := by
    intro heq
    exact hfree l (heq ▸ hl)
  exact ⟨hl, mem_close.mpr ⟨hne, hn⟩, hfile⟩

/-- When the owner of a descriptor closes it, its watch is left behind exactly when the file stays
open. -/
theorem Leads.close_iff (h : t.Leads own) (hx : own x = some fd)
    (hunique : ∀ l, own l = some fd → l = x) (hother : ∀ l, l ≠ x → own' l = own l)
    (hlost : own' x ≠ some fd) :
    (t.close fd).Leads own' ↔ ¬ (t.Watched fd ∧ t.Shared fd) := by
  constructor
  · intro hleads hstays
    obtain ⟨-, l, hl, hw⟩ := h.watched hstays.1
    rw [hunique l hl, ← hstays.2.watch_close] at hw
    exact hlost (hleads fd _ x hw).1
  · intro hgoes n f l hclosed
    obtain ⟨hw, hshared⟩ := watch_of_close hclosed
    obtain ⟨hl, hn, hfile⟩ := h n f l hw
    have hne : n ≠ fd := by
      intro heq
      subst heq
      subst hfile
      exact hgoes ⟨Option.isSome_iff_exists.mpr ⟨l, hw⟩, hshared rfl⟩
    have hlx : l ≠ x := by
      intro heq
      rw [heq, hx] at hl
      exact hne (Option.some.inj hl).symm
    exact ⟨(hother l hlx).trans hl, mem_close.mpr ⟨hne, hn⟩, hfile⟩

theorem Leads.add {t' : Table φ ι} (h : t.Leads own) (hx : own x = some fd)
    (hadd : t.add fd x = some t') : t'.Leads own := by
  obtain ⟨hmem, rfl⟩ := add_some hadd
  intro n g l hw
  rw [watch_setWatch] at hw
  split at hw
  · rename_i heq
    obtain ⟨rfl, rfl⟩ := heq
    cases hw
    exact ⟨hx, hmem, rfl⟩
  · exact h n g l hw

theorem Leads.del {t' : Table φ ι} (h : t.Leads own) (hdel : t.del fd = some t') :
    t'.Leads own := by
  obtain ⟨-, rfl⟩ := del_some hdel
  intro n g l hw
  rw [watch_setWatch] at hw
  split at hw
  · cases hw
  · exact h n g l hw

def Stale (t : Table φ ι) (n : Int) (f : φ) (l : ι) : Prop :=
  t.watch n f = some l ∧ ¬ (n ∈ t.opened ∧ t.file n = f)

omit [DecidableEq φ] in
theorem Stale.insert (h : t.Stale n f l) {g : φ} (hne : fd = n → g ≠ f) :
    (t.insert fd g).Stale n f l := by
  refine ⟨h.1, fun hback => ?_⟩
  by_cases heq : n = fd
  · subst heq
    rw [insert_file_self] at hback
    exact hne rfl hback.2
  · rw [mem_insert, or_iff_right heq, insert_file_of_ne heq] at hback
    exact h.2 hback

theorem Stale.close (h : t.Stale n f l) (hopens : (t.close fd).Opens f) :
    (t.close fd).Stale n f l := by
  refine ⟨?_, fun hback => h.2 ⟨(mem_close.mp hback.1).2, hback.2⟩⟩
  rw [watch_close, if_neg, h.1]
  intro hgone
  obtain ⟨m, hm, hfile⟩ := hopens
  obtain ⟨hne, hm⟩ := mem_close.mp hm
  exact hgone.1 ⟨m, hm, hne, by rw [← hgone.2]; exact hfile⟩

/-- It can neither be taken out nor replaced. -/
theorem Stale.setWatch (h : t.Stale n f l) {v : Option ι} (hfd : fd ∈ t.opened) :
    (t.setWatch fd v).Stale n f l := by
  refine ⟨?_, h.2⟩
  rw [watch_setWatch, if_neg, h.1]
  intro heq
  exact h.2 ⟨heq.1 ▸ hfd, by rw [heq.1, ← heq.2]⟩

end

end Table

end OpenFiles
