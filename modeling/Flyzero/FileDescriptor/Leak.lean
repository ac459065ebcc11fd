import Flyzero.FileDescriptor

/-! No program loses a descriptor: what is open has an owner, and only one. -/
namespace Flyzero.FileDescriptor

def Covered (w : World) : Prop := ∀ fd ∈ w.opened, fd ∈ w.caller ∨ ∃ x, w.Holds x fd

section
variable {w w' : World} {x y other : Slot} {fd : Int} {v : Option Int}

theorem holds_set_of_ne (h : y ≠ x) : (w.set x v).Holds y fd ↔ w.Holds y fd := by
  simp only [World.Holds, set_fd_of_ne h]

theorem holds_set_self (h : 0 ≤ fd) : (w.set x (some fd)).Holds x fd := ⟨set_fd_self, h⟩

theorem Empty.not_holds (h : Empty (w.fd x)) : ¬ w.Holds x fd := by
  intro hx
  exact h.ne hx.2 hx.1

theorem Covered.set (h : Covered w) (hx : Empty (w.fd x)) : Covered (w.set x v) := by
  intro m hm
  obtain hcaller | ⟨y, hy⟩ := h m hm
  · exact .inl hcaller
  · have hne : y ≠ x := by
      intro heq
      exact hx.not_holds (heq ▸ hy)
    exact .inr ⟨y, (holds_set_of_ne hne).mpr hy⟩

theorem Covered.sysClose (h : Covered w) (hx : w.fd x = some fd) :
    Covered ((w.sysClose x fd).set x v) := by
  have hkeep (m : Int) (hm : m ∈ w.opened) (hne : m ≠ fd) :
      m ∈ w.caller ∨ ∃ y, ((w.sysClose x fd).set x v).Holds y m := by
    obtain hcaller | ⟨y, hy⟩ := h m hm
    · exact .inl hcaller
    · have hyx : y ≠ x := by
        intro heq
        subst heq
        exact hne (Option.some.inj (hy.1.symm.trans hx))
      refine .inr ⟨y, (holds_set_of_ne hyx).mpr ?_⟩
      rwa [World.Holds, sysClose_fd]
  intro m hm
  change m ∈ (w.sysClose x fd).opened at hm
  change m ∈ (w.sysClose x fd).caller ∨ _
  by_cases hpos : 0 ≤ fd
  · simp only [World.sysClose, if_pos hpos, Finset.mem_erase] at hm ⊢
    have hkept := hkeep m hm.2 hm.1
    simpa only [World.sysClose, if_pos hpos] using hkept
  · have hsame : w.sysClose x fd = w := if_neg hpos
    rw [hsame] at hm hkeep ⊢
    obtain hcaller | ⟨y, hy⟩ := h m hm
    · exact .inl hcaller
    · have hmfd : m ≠ fd := by
        intro heq
        exact hpos (heq ▸ hy.2)
      exact hkeep m hm hmfd

theorem Covered.transfer (h : Covered w) (hx : Empty (w.fd x)) (hy : w.fd y = some fd) :
    Covered ((w.set y (some (-1))).set x (some fd)) := by
  intro m hm
  obtain hcaller | ⟨z, hz⟩ := h m hm
  · exact .inl hcaller
  · have hzx : z ≠ x := by
      intro heq
      exact hx.not_holds (heq ▸ hz)
    by_cases hzy : z = y
    · subst hzy
      obtain rfl : m = fd := Option.some.inj (hz.1.symm.trans hy)
      exact .inr ⟨x, holds_set_self hz.2⟩
    · exact .inr ⟨z, (holds_set_of_ne hzx).mpr ((holds_set_of_ne hzy).mpr hz)⟩

theorem Covered.gain (h : Covered w) (hx : Empty (w.fd x)) (hpos : 0 ≤ fd) (hfd : w'.fd = w.fd)
    (hopened : ∀ m ∈ w'.opened, m = fd ∨ m ∈ w.opened)
    (hcaller : ∀ m ∈ w.caller, m = fd ∨ m ∈ w'.caller) : Covered (w'.set x (some fd)) := by
  have hself : ∃ y, (w'.set x (some fd)).Holds y fd := ⟨x, holds_set_self hpos⟩
  intro m hm
  obtain rfl | hm := hopened m hm
  · exact .inr hself
  · obtain hold | ⟨y, hy⟩ := h m hm
    · obtain rfl | hcaller := hcaller m hold
      · exact .inr hself
      · exact .inl hcaller
    · have hyx : y ≠ x := by
        intro heq
        exact hx.not_holds (heq ▸ hy)
      refine .inr ⟨y, (holds_set_of_ne hyx).mpr ?_⟩
      rwa [World.Holds, hfd]

theorem opens_covered (h : Covered w) :
    Covered { w with opened := insert fd w.opened, caller := insert fd w.caller } := by
  intro m hm
  obtain rfl | hm := Finset.mem_insert.mp hm
  · exact .inl (Finset.mem_insert_self m _)
  · obtain hcaller | hholds := h m hm
    · exact .inl (Finset.mem_insert_of_mem hcaller)
    · exact .inr hholds

theorem closes_covered (h : Covered w) :
    Covered { w with opened := w.opened.erase fd, caller := w.caller.erase fd } := by
  intro m hm
  obtain ⟨hne, hm⟩ := Finset.mem_erase.mp hm
  obtain hcaller | hholds := h m hm
  · exact .inl (Finset.mem_erase.mpr ⟨hne, hcaller⟩)
  · exact .inr hholds

theorem adopt_covered (h : Covered w) (ho : Owned w) (hx : Empty (w.fd x))
    (hadopt : w.adopt fd = some w') : Covered (w'.construct x fd) := by
  unfold World.adopt at hadopt
  split at hadopt
  · cases hadopt
    exact h.set hx
  · obtain ⟨hmem, hw⟩ := Option.ite_none_right_eq_some.mp hadopt
    cases hw
    refine h.gain hx (ho.caller fd hmem).1 rfl (fun m hm => .inr hm) ?_
    intro m hm
    by_cases hne : m = fd
    · exact .inl hne
    · exact .inr (Finset.mem_erase.mpr ⟨hne, hm⟩)

theorem clone_covered (h : Covered w) (hx : Empty (w.fd x)) {ret : Int}
    (hclone : w.clone x other ret = some w') : Covered w' := by
  obtain ⟨fd, -, hw⟩ := Option.bind_eq_some_iff.mp hclone
  split at hw
  · cases hw
    exact h.set hx
  · obtain ⟨w₁, hdup, rfl⟩ := Option.map_eq_some_iff.mp hw
    unfold World.sysDup at hdup
    split at hdup
    · cases hdup
      exact h.set hx
    · obtain ⟨⟨hpos, -⟩, hw⟩ := Option.ite_none_right_eq_some.mp hdup
      cases hw
      exact h.gain hx hpos rfl (fun m hm => Finset.mem_insert.mp hm) fun m hm => .inr hm

theorem moveConstruct_covered (h : Covered w) (hx : Empty (w.fd x))
    (hmove : w.moveConstruct x other = some w') : Covered w' := by
  obtain ⟨fd, hother, rfl⟩ := Option.map_eq_some_iff.mp hmove
  exact h.transfer hx hother

theorem destroy_covered (h : Covered w) (hdestroy : w.destroy x = some w') : Covered w' := by
  obtain ⟨fd, hx, rfl⟩ := Option.map_eq_some_iff.mp hdestroy
  rw [sysClose_if]
  exact h.sysClose hx

theorem close_covered (h : Covered w) (hclose : w.close x = some w') : Covered w' := by
  obtain ⟨fd, hx, rfl⟩ := Option.map_eq_some_iff.mp hclose
  exact h.sysClose hx

theorem release_covered (h : Covered w) (hrelease : w.release x = some w') : Covered w' := by
  obtain ⟨fd, hx, rfl⟩ := Option.map_eq_some_iff.mp hrelease
  have hkeep (m : Int) (hm : m ∈ w.opened) (hne : m ≠ fd) :
      m ∈ w.caller ∨ ∃ y, (w.set x (some (-1))).Holds y m := by
    obtain hcaller | ⟨y, hy⟩ := h m hm
    · exact .inl hcaller
    · have hyx : y ≠ x := by
        intro heq
        subst heq
        exact hne (Option.some.inj (hy.1.symm.trans hx))
      exact .inr ⟨y, (holds_set_of_ne hyx).mpr hy⟩
  dsimp only
  split
  · intro m hm
    by_cases hne : m = fd
    · subst hne
      exact .inl (Finset.mem_insert_self m _)
    · obtain hcaller | hholds := hkeep m hm hne
      · exact .inl (Finset.mem_insert_of_mem hcaller)
      · exact .inr hholds
  · rename_i hneg
    intro m hm
    by_cases hne : m = fd
    · obtain hcaller | ⟨y, hy⟩ := h m hm
      · exact .inl hcaller
      · exact absurd (hne ▸ hy.2) hneg
    · exact hkeep m hm hne

theorem moveAssign_covered (h : Covered w) (hmove : w.moveAssign x other = some w') :
    Covered w' := by
  obtain ⟨fd, hx, hmove⟩ := Option.bind_eq_some_iff.mp hmove
  obtain ⟨fd', hother, rfl⟩ := Option.map_eq_some_iff.mp hmove
  split
  · exact h
  · rename_i hne
    rw [sysClose_if]
    -- the object is empty once its descriptor is closed
    have hclosed : Covered ((w.sysClose x fd).set x (some (-1))) := h.sysClose hx
    have hfd' : ((w.sysClose x fd).set x (some (-1))).fd other = some fd' := by
      rw [set_fd_of_ne (Ne.symm hne), sysClose_fd, hother]
    have hmoved := hclosed.transfer (.inr set_fd_self) hfd'
    have hsame : (((w.sysClose x fd).set x (some (-1))).set other (some (-1))).set x (some fd') =
        ((w.sysClose x fd).set other (some (-1))).set x (some fd') := by
      simp only [World.set]
      congr 2
      rw [Function.update_comm hne, Function.update_idem]
    rwa [hsame] at hmoved

theorem copyAssign_covered (h : Covered w) (htemporary : w.fd .temporary = none) {ret : Int}
    (hcopy : w.copyAssign x other ret = some w') : Covered w' := by
  unfold World.copyAssign at hcopy
  split at hcopy
  · obtain ⟨fd, -, rfl⟩ := Option.map_eq_some_iff.mp hcopy
    exact h
  · obtain ⟨w₁, hclone, hcopy⟩ := Option.bind_eq_some_iff.mp hcopy
    obtain ⟨w₂, hmove, hdestroy⟩ := Option.bind_eq_some_iff.mp hcopy
    have h₁ := clone_covered h (.inl htemporary) hclone
    exact destroy_covered (moveAssign_covered h₁ hmove) hdestroy

end

/-- A world in which nothing is lost, between two operations. -/
structure Tight (w : World) : Prop where
  owned : Owned w
  temporary : w.fd .temporary = none
  covered : Covered w

theorem step_tight (w : World) (op : Op) (w' : World) (hstep : step w op = some w')
    (h : Tight w) : Tight w' := by
  obtain ⟨howned, htemporary⟩ := step_owned w op w' hstep ⟨h.owned, h.temporary⟩
  refine ⟨howned, htemporary, ?_⟩
  cases op with
  | opens fd =>
    obtain ⟨-, hw⟩ := Option.ite_none_right_eq_some.mp hstep
    cases hw
    exact opens_covered h.covered
  | closes fd =>
    obtain ⟨-, hw⟩ := Option.ite_none_right_eq_some.mp hstep
    cases hw
    exact closes_covered h.covered
  | construct x fd =>
    obtain ⟨hx, hw⟩ := Option.ite_none_right_eq_some.mp hstep
    obtain ⟨w₁, hadopt, rfl⟩ := Option.map_eq_some_iff.mp hw
    exact adopt_covered h.covered h.owned (.inl hx) hadopt
  | copyConstruct x other ret | clone x other ret =>
    obtain ⟨hx, hw⟩ := Option.ite_none_right_eq_some.mp hstep
    exact clone_covered h.covered (.inl hx) hw
  | moveConstruct x other =>
    obtain ⟨hx, hw⟩ := Option.ite_none_right_eq_some.mp hstep
    exact moveConstruct_covered h.covered (.inl hx) hw
  | copyAssign x other ret => exact copyAssign_covered h.covered h.temporary hstep
  | moveAssign x other => exact moveAssign_covered h.covered hstep
  | close x => exact close_covered h.covered hstep
  | release x => exact release_covered h.covered hstep
  | destroy x => exact destroy_covered h.covered hstep

theorem start_tight : Tight .start := ⟨start_owned, rfl, nofun⟩

theorem Tight.partition {w : World} (h : Tight w) (fd : Int) :
    fd ∈ w.opened ↔ Xor (fd ∈ w.caller) (∃! x, w.Holds x fd) := by
  constructor
  · intro hfd
    obtain hcaller | ⟨x, hx⟩ := h.covered fd hfd
    · refine .inl ⟨hcaller, ?_⟩
      intro hheld
      obtain ⟨x, hx, -⟩ := hheld
      exact (h.owned.opened x fd hx).2 hcaller
    · refine .inr ⟨⟨x, hx, fun y hy => h.owned.unique y x fd hy hx⟩, ?_⟩
      exact (h.owned.opened x fd hx).2
  · intro hxor
    obtain ⟨hcaller, -⟩ | ⟨⟨x, hx, -⟩, -⟩ := hxor
    · exact (h.owned.caller fd hcaller).2
    · exact (h.owned.opened x fd hx).1

/-- In every program over any number of objects, whatever the kernel answers. -/
theorem program_partition {w : World} (h : Runs.Reachable step .start w) (fd : Int) :
    fd ∈ w.opened ↔ Xor (fd ∈ w.caller) (∃! x, w.Holds x fd) :=
  (h.invariant start_tight step_tight).partition fd

def copied : List Op :=
  [.opens 3, .opens 4, .construct 0 3, .clone 1 0 5, .moveAssign 0 1, .clone 2 0 3, .release 0]

theorem copied_partition : ∃ w, Runs.exec step .start copied = some w ∧
    w.opened = {3, 4, 5} ∧ w.caller = {4, 5} ∧ w.fd (.object 2) = some 3 ∧
    ∀ fd, fd ∈ w.opened ↔ Xor (fd ∈ w.caller) (∃! x, w.Holds x fd) := by
  obtain ⟨w, hw, hopened, hcaller, hobject⟩ : ∃ w, Runs.exec step .start copied = some w ∧
      w.opened = {3, 4, 5} ∧ w.caller = {4, 5} ∧ w.fd (.object 2) = some 3 :=
    ⟨_, rfl, by decide, by decide, by decide⟩
  exact ⟨w, hw, hopened, hcaller, hobject, fun fd => program_partition ⟨copied, hw⟩ fd⟩

end Flyzero.FileDescriptor
