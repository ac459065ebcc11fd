import Flyzero.Lib.Runs
import Mathlib.Data.Finset.Erase
import Mathlib.Data.Finset.Insert
import Mathlib.Logic.Equiv.Basic
import Mathlib.Logic.Function.Basic

/-! `file_descriptor`: objects that own descriptors of the kernel. -/
namespace Flyzero.FileDescriptor

/-- An object by its number, or the temporary of an expression. -/
inductive Slot where
  | object (x : Nat)
  | temporary
  deriving DecidableEq

/-- `fd_` of the live objects, the open descriptors, and those of them the caller holds. -/
structure Table where
  fd : Slot → Option Int
  opened : Finset Int
  caller : Finset Int

/-- How objects come by descriptors and get rid of them. -/
inductive Entry where
  | acquire (fd : Int)
  | close (fd : Int)
  | release (fd : Int)

/-- A call of `::close` for the object in a slot, with the table before it. -/
structure Closing where
  slot : Slot
  fd : Int
  table : Table

structure World extends Table where
  closings : List Closing
  history : List Entry

def World.start : World :=
  { fd := fun _ => none, opened := ∅, caller := ∅, closings := [], history := [] }

namespace World

def set (w : World) (x : Slot) (fd : Option Int) : World :=
  { w with fd := Function.update w.fd x fd }

/-- `::close` fails on a negative number. -/
def sysClose (w : World) (x : Slot) (fd : Int) : World :=
  if 0 ≤ fd then
    { w with
      opened := w.opened.erase fd
      closings := ⟨x, fd, w.toTable⟩ :: w.closings
      history := w.history ++ [.close fd] }
  else w

/-- `::fcntl` with `F_DUPFD` returns a number that is not open, or -1. -/
def sysDup (w : World) (ret : Int) : Option World :=
  if ret = -1 then some w
  else if 0 ≤ ret ∧ ret ∉ w.opened then
    some { w with opened := insert ret w.opened, history := w.history ++ [.acquire ret] }
  else none

def adopt (w : World) (fd : Int) : Option World :=
  if fd = -1 then some w
  else if fd ∈ w.caller then
    some { w with caller := w.caller.erase fd, history := w.history ++ [.acquire fd] }
  else none

/-! The member functions on the object in slot `x`; `none` is an object that is not there, or an
answer the kernel does not give. -/

def construct (w : World) (x : Slot) (fd : Int) : World := w.set x (some fd)

def copyConstruct (w : World) (x other : Slot) (ret : Int) : Option World :=
  (w.fd other).bind fun fd =>
    if fd = -1 then some (w.construct x (-1)) else (w.sysDup ret).map (·.construct x ret)

def moveConstruct (w : World) (x other : Slot) : Option World :=
  (w.fd other).map fun fd => (w.set other (some (-1))).set x (some fd)

def destroy (w : World) (x : Slot) : Option World :=
  (w.fd x).map fun fd => (if 0 ≤ fd then w.sysClose x fd else w).set x none

def close (w : World) (x : Slot) : Option World :=
  (w.fd x).map fun fd => (w.sysClose x fd).set x (some (-1))

def release (w : World) (x : Slot) : Option World :=
  (w.fd x).map fun fd =>
    let w := w.set x (some (-1))
    if 0 ≤ fd then { w with caller := insert fd w.caller, history := w.history ++ [.release fd] }
    else w

/-- The clone of `other` is constructed in slot `x`, where the caller has its result. -/
def clone (w : World) (x other : Slot) (ret : Int) : Option World :=
  (w.fd other).bind fun fd =>
    if fd = -1 then some (w.construct x (-1)) else (w.sysDup ret).map (·.construct x ret)

def moveAssign (w : World) (x other : Slot) : Option World :=
  (w.fd x).bind fun fd => (w.fd other).map fun fd' =>
    if x = other then w
    else ((if 0 ≤ fd then w.sysClose x fd else w).set other (some (-1))).set x (some fd')

def copyAssign (w : World) (x other : Slot) (ret : Int) : Option World :=
  if x = other then (w.fd x).map fun _ => w
  else
    (w.clone .temporary other ret).bind fun w =>
      (w.moveAssign x .temporary).bind fun w => w.destroy .temporary

end World

inductive Op where
  | opens (fd : Int)
  | closes (fd : Int)
  | construct (x : Nat) (fd : Int)
  | copyConstruct (x other : Nat) (ret : Int)
  | moveConstruct (x other : Nat)
  | copyAssign (x other : Nat) (ret : Int)
  | moveAssign (x other : Nat)
  | clone (x other : Nat) (ret : Int)
  | close (x : Nat)
  | release (x : Nat)
  | destroy (x : Nat)

def step (w : World) : Op → Option World
  | .opens fd =>
    if 0 ≤ fd ∧ fd ∉ w.opened then
      some { w with opened := insert fd w.opened, caller := insert fd w.caller }
    else none
  | .closes fd =>
    if fd ∈ w.caller then
      some { w with opened := w.opened.erase fd, caller := w.caller.erase fd }
    else none
  | .construct x fd =>
    if w.fd (.object x) = none then (w.adopt fd).map (·.construct (.object x) fd) else none
  | .copyConstruct x other ret =>
    if w.fd (.object x) = none then w.copyConstruct (.object x) (.object other) ret else none
  | .moveConstruct x other =>
    if w.fd (.object x) = none then w.moveConstruct (.object x) (.object other) else none
  | .copyAssign x other ret => w.copyAssign (.object x) (.object other) ret
  | .moveAssign x other => w.moveAssign (.object x) (.object other)
  | .clone x other ret =>
    if w.fd (.object x) = none then w.clone (.object x) (.object other) ret else none
  | .close x => w.close (.object x)
  | .release x => w.release (.object x)
  | .destroy x => w.destroy (.object x)

/-- The descriptors that are owed: each is closed or released once after it was acquired. -/
def account (held : Finset Int) : Entry → Option (Finset Int)
  | .acquire fd => if fd ∈ held then none else some (insert fd held)
  | .close fd | .release fd => if fd ∈ held then some (held.erase fd) else none

/-- A descriptor is closed only while it is open and nobody else's. -/
def Closing.Proper (c : Closing) : Prop :=
  c.fd ∈ c.table.opened ∧ c.fd ∉ c.table.caller ∧ c.table.fd c.slot = some c.fd ∧
    ∀ y, c.table.fd y = some c.fd → y = c.slot

def World.Holds (w : World) (x : Slot) (fd : Int) : Prop := w.fd x = some fd ∧ 0 ≤ fd

structure Owned (w : World) : Prop where
  valid : ∀ x fd, w.fd x = some fd → fd = -1 ∨ 0 ≤ fd
  unique : ∀ x y fd, w.Holds x fd → w.Holds y fd → x = y
  opened : ∀ x fd, w.Holds x fd → fd ∈ w.opened ∧ fd ∉ w.caller
  caller : ∀ fd ∈ w.caller, 0 ≤ fd ∧ fd ∈ w.opened
  closings : ∀ c ∈ w.closings, c.Proper
  account : ∃ held, Runs.exec account ∅ w.history = some held ∧ ∀ fd, fd ∈ held ↔ ∃ x, w.Holds x fd

def Empty (v : Option Int) : Prop := v = none ∨ v = some (-1)

section
variable {w w' : World} {x y other : Slot} {fd : Int} {v : Option Int}

theorem Empty.ne (h : Empty v) (hfd : 0 ≤ fd) : v ≠ some fd := by
  rintro rfl
  rcases h with h | h
  · cases h
  · cases h
    omega

theorem set_fd_self : (w.set x v).fd x = v := Function.update_self ..

theorem set_fd_of_ne (h : y ≠ x) : (w.set x v).fd y = w.fd y := Function.update_of_ne h ..

theorem holds_set_empty (hv : Empty v) : (w.set x v).Holds y fd ↔ y ≠ x ∧ w.Holds y fd := by
  unfold World.Holds
  by_cases hy : y = x
  · subst hy
    rw [set_fd_self]
    exact iff_of_false (fun h => hv.ne h.2 h.1) fun h => h.1 rfl
  · rw [set_fd_of_ne hy, and_iff_right hy]

theorem Owned.set_empty (h : Owned w) (hx : Empty (w.fd x)) (hv : Empty v) : Owned (w.set x v) := by
  have hholds (y : Slot) (fd : Int) : (w.set x v).Holds y fd ↔ w.Holds y fd := by
    rw [holds_set_empty hv, and_iff_right_iff_imp]
    rintro hy rfl
    exact hx.ne hy.2 hy.1
  refine ⟨fun y fd hy => ?_, ?_, ?_, h.caller, h.closings, ?_⟩
  · by_cases hyx : y = x
    · rw [hyx, set_fd_self] at hy
      rcases hv with rfl | rfl
      · cases hy
      · exact .inl (Option.some.inj hy).symm
    · rw [set_fd_of_ne hyx] at hy
      exact h.valid y fd hy
  · intro y z fd hy hz
    exact h.unique y z fd ((hholds y fd).mp hy) ((hholds z fd).mp hz)
  · exact fun y fd hy => h.opened y fd ((hholds y fd).mp hy)
  · obtain ⟨held, hexec, hheld⟩ := h.account
    exact ⟨held, hexec, fun fd => (hheld fd).trans (exists_congr fun y => (hholds y fd).symm)⟩

theorem valid_set (h : Owned w) (hv : ∀ fd, v = some fd → fd = -1 ∨ 0 ≤ fd) (y : Slot) (fd : Int)
    (hy : (w.set x v).fd y = some fd) : fd = -1 ∨ 0 ≤ fd := by
  by_cases hyx : y = x
  · rw [hyx, set_fd_self] at hy
    exact hv fd hy
  · rw [set_fd_of_ne hyx] at hy
    exact h.valid y fd hy

theorem Empty.valid (h : Empty v) : ∀ fd, v = some fd → fd = -1 ∨ 0 ≤ fd := by
  rintro fd rfl
  rcases h with h | h
  · cases h
  · exact .inl (Option.some.inj h)

theorem Owned.lose (h : Owned w) (hx : w.Holds x fd) (hv : Empty v) {e : Entry}
    (hentry : ∀ held, fd ∈ held → FileDescriptor.account held e = some (held.erase fd))
    (hfd : w'.fd = (w.set x v).fd) (hhistory : w'.history = w.history ++ [e])
    (hopened : ∀ m ∈ w.opened, m ≠ fd → m ∈ w'.opened)
    (hcaller : ∀ m ∈ w'.caller, m ≠ fd → m ∈ w.caller)
    (hvalid : ∀ m ∈ w'.caller, 0 ≤ m ∧ m ∈ w'.opened)
    (hclosings : ∀ c ∈ w'.closings, c.Proper) : Owned w' := by
  have hholds (y : Slot) (m : Int) : w'.Holds y m ↔ y ≠ x ∧ w.Holds y m := by
    rw [← holds_set_empty hv, World.Holds, hfd, World.Holds]
  have hne (y : Slot) (m : Int) (hy : w'.Holds y m) : m ≠ fd := by
    rintro rfl
    obtain ⟨hyx, hy⟩ := (hholds y m).mp hy
    exact hyx (h.unique y x m hy hx)
  refine ⟨?_, ?_, ?_, hvalid, hclosings, ?_⟩
  · rw [hfd]
    exact valid_set h hv.valid
  · intro y z m hy hz
    exact h.unique y z m ((hholds y m).mp hy).2 ((hholds z m).mp hz).2
  · intro y m hy
    obtain ⟨hmem, hout⟩ := h.opened y m ((hholds y m).mp hy).2
    exact ⟨hopened m hmem (hne y m hy), fun hc => hout (hcaller m hc (hne y m hy))⟩
  · obtain ⟨held, hexec, hheld⟩ := h.account
    have hmem : fd ∈ held := (hheld fd).mpr ⟨x, hx⟩
    refine ⟨held.erase fd, ?_, fun m => ?_⟩
    · rw [hhistory]
      exact Runs.exec_concat.mpr ⟨held, hexec, hentry held hmem⟩
    · rw [Finset.mem_erase, hheld]
      constructor
      · rintro ⟨hm, y, hy⟩
        refine ⟨y, (hholds y m).mpr ⟨?_, hy⟩⟩
        rintro rfl
        exact hm (Option.some.inj (hy.1.symm.trans hx.1))
      · rintro ⟨y, hy⟩
        exact ⟨hne y m hy, y, ((hholds y m).mp hy).2⟩

theorem Owned.gain (h : Owned w) (hx : Empty (w.fd x)) (hpos : 0 ≤ fd)
    (hfree : ∀ y, ¬ w.Holds y fd) (hfd : w'.fd = (w.set x (some fd)).fd)
    (hhistory : w'.history = w.history ++ [.acquire fd]) (hmem : fd ∈ w'.opened)
    (hout : fd ∉ w'.caller) (hopened : ∀ m ∈ w.opened, m ∈ w'.opened)
    (hcaller : ∀ m ∈ w'.caller, m ∈ w.caller) (hclosings : w'.closings = w.closings) :
    Owned w' := by
  have hholds (y : Slot) (m : Int) : w'.Holds y m ↔ y = x ∧ m = fd ∨ w.Holds y m := by
    unfold World.Holds
    rw [hfd]
    by_cases hyx : y = x
    · subst hyx
      rw [set_fd_self, Option.some.injEq]
      constructor
      · rintro ⟨rfl, -⟩
        exact .inl ⟨rfl, rfl⟩
      · rintro (⟨-, rfl⟩ | ⟨hy, hm⟩)
        · exact ⟨rfl, hpos⟩
        · exact absurd hy (hx.ne hm)
    · rw [set_fd_of_ne hyx, or_iff_right fun hc => hyx hc.1]
  refine ⟨?_, ?_, ?_, ?_, by rw [hclosings]; exact h.closings, ?_⟩
  · rw [hfd]
    apply valid_set h
    rintro m hm
    exact .inr (Option.some.inj hm ▸ hpos)
  · intro y z m hy hz
    rcases (hholds y m).mp hy with ⟨rfl, rfl⟩ | hy
    · rcases (hholds z m).mp hz with ⟨rfl, -⟩ | hz
      · rfl
      · exact absurd hz (hfree z)
    · rcases (hholds z m).mp hz with ⟨rfl, rfl⟩ | hz
      · exact absurd hy (hfree y)
      · exact h.unique y z m hy hz
  · intro y m hy
    rcases (hholds y m).mp hy with ⟨rfl, rfl⟩ | hy
    · exact ⟨hmem, hout⟩
    · obtain ⟨hm, hmout⟩ := h.opened y m hy
      exact ⟨hopened m hm, fun hc => hmout (hcaller m hc)⟩
  · intro m hm
    obtain ⟨hpos, hm⟩ := h.caller m (hcaller m hm)
    exact ⟨hpos, hopened m hm⟩
  · obtain ⟨held, hexec, hheld⟩ := h.account
    have hnew : fd ∉ held := by
      rw [hheld]
      exact fun ⟨y, hy⟩ => hfree y hy
    refine ⟨insert fd held, ?_, fun m => ?_⟩
    · rw [hhistory]
      exact Runs.exec_concat.mpr ⟨held, hexec, if_neg hnew⟩
    · rw [Finset.mem_insert, hheld]
      simp only [hholds, exists_or, exists_eq_left]

theorem Owned.transfer (h : Owned w) (hx : Empty (w.fd x)) (hy : w.fd y = some fd) :
    Owned ((w.set y (some (-1))).set x (some fd)) := by
  have hholds (z : Slot) (m : Int) : ((w.set y (some (-1))).set x (some fd)).Holds z m ↔
      w.Holds (Equiv.swap x y z) m := by
    unfold World.Holds
    by_cases hzx : z = x
    · rw [hzx, set_fd_self, Equiv.swap_apply_left, hy]
    · rw [set_fd_of_ne hzx]
      by_cases hzy : z = y
      · rw [hzy, set_fd_self, Equiv.swap_apply_right]
        refine iff_of_false (fun hc => ?_) fun hc => hx.ne hc.2 hc.1
        exact Empty.ne (.inr rfl) hc.2 hc.1
      · rw [set_fd_of_ne hzy, Equiv.swap_apply_of_ne_of_ne hzx hzy]
  refine ⟨fun z m hz => ?_, fun z z' m hz hz' => ?_, ?_, h.caller, h.closings, ?_⟩
  · by_cases hzx : z = x
    · rw [hzx, set_fd_self] at hz
      exact h.valid y m (hy.trans hz)
    · rw [set_fd_of_ne hzx] at hz
      exact valid_set h (Empty.valid (.inr rfl)) z m hz
  · exact (Equiv.swap x y).injective
      (h.unique _ _ m ((hholds z m).mp hz) ((hholds z' m).mp hz'))
  · exact fun z m hz => h.opened _ m ((hholds z m).mp hz)
  · obtain ⟨held, hexec, hheld⟩ := h.account
    refine ⟨held, hexec, fun m => (hheld m).trans ?_⟩
    simp only [hholds]
    exact (Equiv.swap x y).surjective.exists

theorem Owned.sysClose (h : Owned w) (hx : w.fd x = some fd) (hv : Empty v) :
    Owned ((w.sysClose x fd).set x v) := by
  by_cases hpos : 0 ≤ fd
  · have hholds : w.Holds x fd := ⟨hx, hpos⟩
    obtain ⟨hmem, hout⟩ := h.opened x fd hholds
    rw [World.sysClose, if_pos hpos]
    refine h.lose (e := .close fd) hholds hv (fun held hheld => if_pos hheld) rfl rfl ?_ ?_ ?_ ?_
    · exact fun m hm hne => Finset.mem_erase.mpr ⟨hne, hm⟩
    · exact fun m hm _ => hm
    · intro m hm
      obtain ⟨hpos, hmem⟩ := h.caller m hm
      exact ⟨hpos, Finset.mem_erase.mpr ⟨fun heq => hout (heq ▸ hm), hmem⟩⟩
    · intro c hc
      rcases List.mem_cons.mp hc with rfl | hc
      · exact ⟨hmem, hout, hx, fun y hy => h.unique y x fd ⟨hy, hpos⟩ hholds⟩
      · exact h.closings c hc
  · have hempty : Empty (w.fd x) := by
      rw [hx]
      exact .inr (congrArg some ((h.valid x fd hx).resolve_right hpos))
    rw [World.sysClose, if_neg hpos]
    exact h.set_empty hempty hv

theorem sysClose_if (w : World) (x : Slot) (fd : Int) :
    (if 0 ≤ fd then w.sysClose x fd else w) = w.sysClose x fd := by
  split
  · rfl
  · rename_i hneg
    exact (if_neg hneg).symm

theorem sysClose_fd (w : World) (x : Slot) (fd : Int) : (w.sysClose x fd).fd = w.fd := by
  rw [World.sysClose]
  split
  · rfl
  · rfl

theorem opens_owned (h : Owned w) (hpos : 0 ≤ fd) (hnew : fd ∉ w.opened) :
    Owned { w with opened := insert fd w.opened, caller := insert fd w.caller } := by
  refine ⟨h.valid, h.unique, fun x m hx => ?_, fun m hm => ?_, h.closings, h.account⟩
  · obtain ⟨hmem, hout⟩ := h.opened x m hx
    refine ⟨Finset.mem_insert_of_mem hmem, fun hm => ?_⟩
    rcases Finset.mem_insert.mp hm with rfl | hm
    · exact hnew hmem
    · exact hout hm
  · rcases Finset.mem_insert.mp hm with rfl | hm
    · exact ⟨hpos, Finset.mem_insert_self m _⟩
    · exact ⟨(h.caller m hm).1, Finset.mem_insert_of_mem (h.caller m hm).2⟩

theorem closes_owned (h : Owned w) (hmem : fd ∈ w.caller) :
    Owned { w with opened := w.opened.erase fd, caller := w.caller.erase fd } := by
  refine ⟨h.valid, h.unique, fun x m hx => ?_, fun m hm => ?_, h.closings, h.account⟩
  · obtain ⟨hopened, hout⟩ := h.opened x m hx
    refine ⟨Finset.mem_erase.mpr ⟨fun heq => hout (heq ▸ hmem), hopened⟩, fun hm => ?_⟩
    exact hout (Finset.mem_of_mem_erase hm)
  · obtain ⟨hne, hm⟩ := Finset.mem_erase.mp hm
    exact ⟨(h.caller m hm).1, Finset.mem_erase.mpr ⟨hne, (h.caller m hm).2⟩⟩

/-! Every member function keeps the ownership, and leaves the slots alone that it does not name. -/

theorem adopt_owned (h : Owned w) (hx : w.fd x = none) (hadopt : w.adopt fd = some w') :
    Owned (w'.construct x fd) ∧ w'.fd = w.fd := by
  rw [World.adopt] at hadopt
  split at hadopt
  · rename_i hneg
    cases hadopt
    rw [hneg]
    exact ⟨h.set_empty (.inl hx) (.inr rfl), rfl⟩
  · obtain ⟨hmem, hw⟩ := Option.ite_none_right_eq_some.mp hadopt
    cases hw
    obtain ⟨hpos, hopened⟩ := h.caller fd hmem
    refine ⟨?_, rfl⟩
    refine h.gain (.inl hx) hpos ?_ rfl rfl hopened (Finset.notMem_erase fd _) (fun m hm => hm)
      ?_ rfl
    · exact fun y hy => (h.opened y fd hy).2 hmem
    · exact fun m hm => Finset.mem_of_mem_erase hm

theorem sysDup_owned (h : Owned w) (hx : w.fd x = none) {ret : Int}
    (hdup : w.sysDup ret = some w') : Owned (w'.construct x ret) ∧ w'.fd = w.fd := by
  rw [World.sysDup] at hdup
  split at hdup
  · rename_i hneg
    cases hdup
    rw [hneg]
    exact ⟨h.set_empty (.inl hx) (.inr rfl), rfl⟩
  · obtain ⟨⟨hpos, hnew⟩, hw⟩ := Option.ite_none_right_eq_some.mp hdup
    cases hw
    refine ⟨?_, rfl⟩
    refine h.gain (.inl hx) hpos ?_ rfl rfl (Finset.mem_insert_self ret _) ?_ ?_
      (fun m hm => hm) rfl
    · exact fun y hy => hnew (h.opened y ret hy).1
    · exact fun hm => hnew (h.caller ret hm).2
    · exact fun m hm => Finset.mem_insert_of_mem hm

theorem clone_owned (h : Owned w) (hx : w.fd x = none) {ret : Int}
    (hclone : w.clone x other ret = some w') :
    Owned w' ∧ ∀ y ≠ x, w'.fd y = w.fd y := by
  obtain ⟨fd, -, hw⟩ := Option.bind_eq_some_iff.mp hclone
  split at hw
  · cases hw
    exact ⟨h.set_empty (.inl hx) (.inr rfl), fun y hy => set_fd_of_ne hy⟩
  · obtain ⟨w₁, hdup, rfl⟩ := Option.map_eq_some_iff.mp hw
    obtain ⟨howned, hfd⟩ := sysDup_owned h hx hdup
    refine ⟨howned, fun y hy => ?_⟩
    rw [← hfd]
    exact set_fd_of_ne hy

theorem moveConstruct_owned (h : Owned w) (hx : w.fd x = none)
    (hmove : w.moveConstruct x other = some w') :
    Owned w' ∧ ∀ y, y ≠ x → y ≠ other → w'.fd y = w.fd y := by
  obtain ⟨fd, hother, rfl⟩ := Option.map_eq_some_iff.mp hmove
  refine ⟨h.transfer (.inl hx) hother, fun y hyx hyother => ?_⟩
  rw [set_fd_of_ne hyx, set_fd_of_ne hyother]

theorem destroy_owned (h : Owned w) (hdestroy : w.destroy x = some w') :
    Owned w' ∧ w'.fd x = none ∧ ∀ y ≠ x, w'.fd y = w.fd y := by
  obtain ⟨fd, hx, rfl⟩ := Option.map_eq_some_iff.mp hdestroy
  rw [sysClose_if]
  refine ⟨h.sysClose hx (.inl rfl), set_fd_self, fun y hy => ?_⟩
  rw [set_fd_of_ne hy, sysClose_fd]

theorem close_owned (h : Owned w) (hclose : w.close x = some w') :
    Owned w' ∧ ∀ y ≠ x, w'.fd y = w.fd y := by
  obtain ⟨fd, hx, rfl⟩ := Option.map_eq_some_iff.mp hclose
  refine ⟨h.sysClose hx (.inr rfl), fun y hy => ?_⟩
  rw [set_fd_of_ne hy, sysClose_fd]

theorem release_owned (h : Owned w) (hrelease : w.release x = some w') :
    Owned w' ∧ ∀ y ≠ x, w'.fd y = w.fd y := by
  obtain ⟨fd, hx, rfl⟩ := Option.map_eq_some_iff.mp hrelease
  dsimp only
  split
  · rename_i hpos
    have hholds : w.Holds x fd := ⟨hx, hpos⟩
    obtain ⟨hmem, hout⟩ := h.opened x fd hholds
    refine ⟨?_, fun y hy => set_fd_of_ne hy⟩
    refine h.lose (e := .release fd) hholds (.inr rfl) (fun held hheld => if_pos hheld) rfl rfl
      (fun m hm _ => hm) ?_ ?_ h.closings
    · exact fun m hm hne => (Finset.mem_insert.mp hm).resolve_left hne
    · intro m hm
      rcases Finset.mem_insert.mp hm with rfl | hm
      · exact ⟨hpos, hmem⟩
      · exact h.caller m hm
  · rename_i hneg
    have hempty : Empty (w.fd x) := by
      rw [hx]
      exact .inr (congrArg some ((h.valid x fd hx).resolve_right hneg))
    exact ⟨h.set_empty hempty (.inr rfl), fun y hy => set_fd_of_ne hy⟩

theorem moveAssign_owned (h : Owned w) (hmove : w.moveAssign x other = some w') :
    Owned w' ∧ ∀ y, y ≠ x → y ≠ other → w'.fd y = w.fd y := by
  obtain ⟨fd, hx, hmove⟩ := Option.bind_eq_some_iff.mp hmove
  obtain ⟨fd', hother, rfl⟩ := Option.map_eq_some_iff.mp hmove
  split
  · exact ⟨h, fun y _ _ => rfl⟩
  · rename_i hne
    rw [sysClose_if]
    -- the object is empty once its descriptor is closed
    have hclosed := h.sysClose hx (.inr rfl)
    have hfd' : ((w.sysClose x fd).set x (some (-1))).fd other = some fd' := by
      rw [set_fd_of_ne (Ne.symm hne), sysClose_fd, hother]
    have hmoved := hclosed.transfer (.inr set_fd_self) hfd'
    have hsame : (((w.sysClose x fd).set x (some (-1))).set other (some (-1))).set x (some fd') =
        ((w.sysClose x fd).set other (some (-1))).set x (some fd') := by
      simp only [World.set]
      congr 2
      rw [Function.update_comm hne, Function.update_idem]
    rw [hsame] at hmoved
    refine ⟨hmoved, fun y hyx hyother => ?_⟩
    rw [set_fd_of_ne hyx, set_fd_of_ne hyother, sysClose_fd]

theorem copyAssign_owned (h : Owned w) (htemporary : w.fd .temporary = none) {ret : Int}
    (hcopy : w.copyAssign x other ret = some w') : Owned w' ∧ w'.fd .temporary = none := by
  rw [World.copyAssign] at hcopy
  split at hcopy
  · obtain ⟨fd, -, rfl⟩ := Option.map_eq_some_iff.mp hcopy
    exact ⟨h, htemporary⟩
  · obtain ⟨w₁, hclone, hcopy⟩ := Option.bind_eq_some_iff.mp hcopy
    obtain ⟨w₂, hmove, hdestroy⟩ := Option.bind_eq_some_iff.mp hcopy
    have h₁ := (clone_owned h htemporary hclone).1
    have h₂ := (moveAssign_owned h₁ hmove).1
    obtain ⟨h₃, hnone, -⟩ := destroy_owned h₂ hdestroy
    exact ⟨h₃, hnone⟩

end

theorem start_owned : Owned .start where
  valid := nofun
  unique := by
    rintro x y fd ⟨hx, -⟩
    cases hx
  opened := by
    rintro x fd ⟨hx, -⟩
    cases hx
  caller := nofun
  closings := nofun
  account := by
    refine ⟨∅, rfl, fun fd => iff_of_false (Finset.notMem_empty fd) ?_⟩
    rintro ⟨x, hx, -⟩
    cases hx

/-- Between two operations there is no temporary. -/
theorem step_owned (w : World) (op : Op) (w' : World) (hstep : step w op = some w')
    (h : Owned w ∧ w.fd .temporary = none) : Owned w' ∧ w'.fd .temporary = none := by
  obtain ⟨h, htemporary⟩ := h
  cases op with
  | opens fd =>
    obtain ⟨⟨hpos, hnew⟩, hw⟩ := Option.ite_none_right_eq_some.mp hstep
    cases hw
    exact ⟨opens_owned h hpos hnew, htemporary⟩
  | closes fd =>
    obtain ⟨hmem, hw⟩ := Option.ite_none_right_eq_some.mp hstep
    cases hw
    exact ⟨closes_owned h hmem, htemporary⟩
  | construct x fd =>
    obtain ⟨hx, hw⟩ := Option.ite_none_right_eq_some.mp hstep
    obtain ⟨w₁, hadopt, rfl⟩ := Option.map_eq_some_iff.mp hw
    obtain ⟨howned, hfd⟩ := adopt_owned h hx hadopt
    have hframe : (w₁.construct (.object x) fd).fd .temporary = w₁.fd .temporary :=
      set_fd_of_ne nofun
    exact ⟨howned, by rw [hframe, hfd, htemporary]⟩
  | copyConstruct x other ret | clone x other ret =>
    obtain ⟨hx, hw⟩ := Option.ite_none_right_eq_some.mp hstep
    obtain ⟨howned, hframe⟩ := clone_owned h hx hw
    exact ⟨howned, (hframe .temporary nofun).trans htemporary⟩
  | moveConstruct x other =>
    obtain ⟨hx, hw⟩ := Option.ite_none_right_eq_some.mp hstep
    obtain ⟨howned, hframe⟩ := moveConstruct_owned h hx hw
    exact ⟨howned, (hframe .temporary nofun nofun).trans htemporary⟩
  | copyAssign x other ret => exact copyAssign_owned h htemporary hstep
  | moveAssign x other =>
    obtain ⟨howned, hframe⟩ := moveAssign_owned h hstep
    exact ⟨howned, (hframe .temporary nofun nofun).trans htemporary⟩
  | close x =>
    obtain ⟨howned, hframe⟩ := close_owned h hstep
    exact ⟨howned, (hframe .temporary nofun).trans htemporary⟩
  | release x =>
    obtain ⟨howned, hframe⟩ := release_owned h hstep
    exact ⟨howned, (hframe .temporary nofun).trans htemporary⟩
  | destroy x =>
    obtain ⟨howned, -, hframe⟩ := destroy_owned h hstep
    exact ⟨howned, (hframe .temporary nofun).trans htemporary⟩

/-- No descriptor has two owners, what is owned is open, and what was obtained has been closed or
released once when no object is left. -/
structure Safe (w : World) : Prop where
  unique : ∀ x y fd, 0 ≤ fd → w.fd x = some fd → w.fd y = some fd → x = y
  opened : ∀ x fd, 0 ≤ fd → w.fd x = some fd → fd ∈ w.opened
  closings : ∀ c ∈ w.closings, c.Proper
  settled : (∀ x, w.fd x = none) → Runs.exec account ∅ w.history = some ∅

theorem Owned.safe {w : World} (h : Owned w) : Safe w where
  unique x y fd hpos hx hy := h.unique x y fd ⟨hx, hpos⟩ ⟨hy, hpos⟩
  opened x fd hpos hx := (h.opened x fd ⟨hx, hpos⟩).1
  closings := h.closings
  settled hnone := by
    obtain ⟨held, hexec, hheld⟩ := h.account
    obtain rfl : held = ∅ := by
      rw [Finset.eq_empty_iff_forall_notMem]
      intro fd hfd
      obtain ⟨x, hx, -⟩ := (hheld fd).mp hfd
      cases (hnone x).symm.trans hx
    exact hexec

theorem program_safe {w : World} (h : Runs.Reachable step .start w) : Safe w :=
  (h.invariant ⟨start_owned, rfl⟩ step_owned).1.safe

def reuse : List Op :=
  [.opens 3, .opens 4, .construct 0 3, .construct 1 4, .copyAssign 0 1 5, .clone 2 0 3,
    .moveAssign 1 2, .copyAssign 1 1 9, .release 1, .destroy 2, .destroy 1, .destroy 0]

theorem reuse_safe : ∃ w, Runs.exec step .start reuse = some w ∧ w.opened = {3} ∧ w.caller = {3} ∧
    Safe w := by
  obtain ⟨w, hw, hopened, hcaller⟩ : ∃ w, Runs.exec step .start reuse = some w ∧
      w.opened = {3} ∧ w.caller = {3} := ⟨_, rfl, by decide, by decide⟩
  exact ⟨w, hw, hopened, hcaller, program_safe ⟨reuse, hw⟩⟩

end Flyzero.FileDescriptor
