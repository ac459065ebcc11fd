import Flyzero.FileDescriptor.Leak
import Flyzero.Lib.OpenFiles

/-! Listeners that are moved while `epoll_fd_` knows them. A move of an `io_listener` copies its
descriptor with `F_DUPFD`, so that the open file outlives the listener that was registered. -/
namespace Flyzero.EventDispatch
open FileDescriptor OpenFiles

/-- The descriptors, of which listener `x` has that of object `x`, the open files behind them, and
`data.ptr` in the interest list of `epoll_fd_`. -/
structure Registry where
  world : World
  file : Int → Nat
  interest : Int → Nat → Option Nat

/-- The caller opens, copies and closes descriptors of its own; those of a forked child are among
them. A move gives the answer of `F_DUPFD`. -/
inductive Deed where
  | opens (fd : Int) (file : Nat)
  | dups (fd ret : Int)
  | closes (fd : Int)
  | constructs (x : Nat) (fd : Int)
  | moves (x other : Nat) (ret : Int)
  | assigns (x other : Nat) (ret : Int)
  | destroys (x : Nat)
  | registers (x : Nat)
  | unregisters (x : Nat)

def Deed.ret : Deed → Option Int
  | .dups _ ret | .moves _ _ ret | .assigns _ _ ret => some ret
  | _ => none

namespace Registry

def start : Registry := { world := .start, file := fun _ => 0, interest := fun _ _ => none }

def fd (s : Registry) (x : Nat) : Option Int := s.world.fd (.object x)

def kernel (s : Registry) : Table Nat Nat := ⟨s.world.opened, s.file, s.interest⟩

def of (world : World) (kernel : Table Nat Nat) : Registry :=
  { world, file := kernel.file, interest := kernel.watch }

def copied (fd ret : Int) : Int := if fd = -1 then -1 else ret

def copy (kernel : Table Nat Nat) (fd ret : Int) : Table Nat Nat :=
  if fd ≠ -1 ∧ ret ≠ -1 then kernel.insert ret (kernel.file fd) else kernel

def closeFd (kernel : Table Nat Nat) (fd : Int) : Table Nat Nat :=
  if 0 ≤ fd then kernel.close fd else kernel

/-- `io_listener` declares its destructor and has no move: its `fd_` is copy-constructed and
copy-assigned. A call of `epoll_ctl` that fails throws and changes nothing, and is no step. -/
def act (s : Registry) : Deed → Option Registry
  | .opens fd file =>
    if s.kernel.Opens file then none
    else (FileDescriptor.step s.world (.opens fd)).map (of · (s.kernel.insert fd file))
  | .dups fd ret =>
    if fd ∈ s.world.opened then
      (FileDescriptor.step s.world (.opens ret)).map (of · (s.kernel.insert ret (s.file fd)))
    else none
  | .closes fd => (FileDescriptor.step s.world (.closes fd)).map (of · (s.kernel.close fd))
  | .constructs x fd => (FileDescriptor.step s.world (.construct x fd)).map (of · s.kernel)
  | .moves x other ret =>
    (s.fd other).bind fun fd =>
      (FileDescriptor.step s.world (.copyConstruct x other ret)).map (of · (copy s.kernel fd ret))
  | .assigns x other ret =>
    if x = other then (FileDescriptor.step s.world (.copyAssign x other ret)).map (of · s.kernel)
    else
      (s.fd x).bind fun old => (s.fd other).bind fun fd =>
        (FileDescriptor.step s.world (.copyAssign x other ret)).map
          (of · (closeFd (copy s.kernel fd ret) old))
  | .destroys x =>
    (s.fd x).bind fun old =>
      (FileDescriptor.step s.world (.destroy x)).map (of · (closeFd s.kernel old))
  | .registers x => (s.fd x).bind fun fd => (s.kernel.add fd x).map (of s.world)
  | .unregisters x => (s.fd x).bind fun fd => (s.kernel.del fd).map (of s.world)

/-- Whatever is ready, `run_once` calls a listener that lives, for what is behind its own
descriptor. -/
def Sound (s : Registry) : Prop := s.kernel.Leads s.fd

def Copied (s : Registry) (x : Nat) : Prop :=
  ∃ fd, s.fd x = some fd ∧ s.kernel.Watched fd ∧ s.kernel.Shared fd

/-- The descriptor is closed nevertheless. -/
def Orphans (s : Registry) : Deed → Prop
  | .assigns x other _ => x ≠ other ∧ s.Copied x
  | .destroys x => s.Copied x
  | _ => False

section
variable {s s' : Registry} {w w' : World} {x other : Nat} {fd ret : Int}

theorem kernel_of {k : Table Nat Nat} (h : w.opened = k.opened) : (of w k).kernel = k := by
  rw [kernel, of, h]

theorem set_fd (w : World) (x : Slot) (v : Option Int) :
    (w.set x v).fd = Function.update w.fd x v := rfl

theorem clone_spec {x other : Slot} {k : Table Nat Nat} (hk : k.opened = w.opened)
    (h : w.clone x other ret = some w') : ∃ fd, w.fd other = some fd ∧
      w'.fd = Function.update w.fd x (some (copied fd ret)) ∧
      w'.opened = (copy k fd ret).opened ∧
      (fd ≠ -1 → ret ≠ -1 → 0 ≤ ret ∧ ret ∉ w.opened) := by
  obtain ⟨fd, hfd, h⟩ := Option.bind_eq_some_iff.mp h
  refine ⟨fd, hfd, ?_⟩
  split at h
  · rename_i hnone
    cases h
    simp [copied, copy, hnone, hk, World.construct, World.set]
  · rename_i hsome
    obtain ⟨w₁, hdup, rfl⟩ := Option.map_eq_some_iff.mp h
    unfold World.sysDup at hdup
    split at hdup
    · rename_i hfailed
      cases hdup
      simp [copied, copy, hsome, hfailed, hk, World.construct, World.set]
    · rename_i hdone
      obtain ⟨hnew, hw⟩ := Option.ite_none_right_eq_some.mp hdup
      cases hw
      simp [copied, copy, hsome, hdone, hnew, hk, World.construct, World.set, Table.insert]

theorem closed_spec {x : Slot} {k : Table Nat Nat} (hk : k.opened = w.opened) :
    (if 0 ≤ fd then w.sysClose x fd else w).fd = w.fd ∧
      (if 0 ≤ fd then w.sysClose x fd else w).opened = (closeFd k fd).opened := by
  by_cases hpos : 0 ≤ fd
  · simp [hpos, closeFd, World.sysClose, Table.close, hk]
  · simp [hpos, closeFd, hk]

theorem destroy_spec {x : Slot} {k : Table Nat Nat} (hk : k.opened = w.opened)
    (h : w.destroy x = some w') : ∃ fd, w.fd x = some fd ∧
      w'.fd = Function.update w.fd x none ∧ w'.opened = (closeFd k fd).opened := by
  obtain ⟨fd, hfd, rfl⟩ := Option.map_eq_some_iff.mp h
  obtain ⟨hfds, hopened⟩ := closed_spec (x := x) hk
  exact ⟨fd, hfd, by rw [set_fd, hfds], hopened⟩

theorem copyAssign_spec {x other : Slot} {k : Table Nat Nat} (hk : k.opened = w.opened)
    (hne : x ≠ other) (hx : x ≠ .temporary) (htemporary : w.fd .temporary = none)
    (h : w.copyAssign x other ret = some w') : ∃ old fd, w.fd x = some old ∧
      w.fd other = some fd ∧ w'.fd = Function.update w.fd x (some (copied fd ret)) ∧
      w'.opened = (closeFd (copy k fd ret) old).opened ∧
      (fd ≠ -1 → ret ≠ -1 → 0 ≤ ret ∧ ret ∉ w.opened) := by
  rw [World.copyAssign, if_neg hne] at h
  obtain ⟨w₁, hclone, h⟩ := Option.bind_eq_some_iff.mp h
  obtain ⟨w₂, hmove, hdestroy⟩ := Option.bind_eq_some_iff.mp h
  obtain ⟨fd, hfd, hfds, hopened, hnew⟩ := clone_spec hk hclone
  obtain ⟨old, hold, hmove⟩ := Option.bind_eq_some_iff.mp hmove
  obtain ⟨fd', hfd', rfl⟩ := Option.map_eq_some_iff.mp hmove
  rw [hfds, Function.update_self] at hfd'
  rw [hfds, Function.update_of_ne hx] at hold
  cases hfd'
  rw [if_neg hx] at hdestroy
  have hclosed : (if 0 ≤ old then w₁.sysClose x old else w₁).fd = w₁.fd ∧
      (if 0 ≤ old then w₁.sysClose x old else w₁).opened =
        (closeFd (copy k fd ret) old).opened := closed_spec hopened.symm
  obtain ⟨hfds₂, hopened₂⟩ := hclosed
  -- the temporary has nothing left to close
  obtain ⟨left, hleft, rfl⟩ := Option.map_eq_some_iff.mp hdestroy
  rw [set_fd, Function.update_of_ne hx.symm, set_fd, Function.update_self] at hleft
  cases hleft
  refine ⟨old, fd, hold, hfd, ?_, hopened₂, hnew⟩
  rw [if_neg (by decide), set_fd, set_fd, set_fd, hfds₂, hfds, Function.update_idem,
    Function.update_comm hx, Function.update_idem, ← htemporary,
    Function.update_eq_self]

theorem copy_leads {k : Table Nat Nat} {own : Nat → Option Int} (h : k.Leads own)
    (hnew : fd ≠ -1 → ret ≠ -1 → 0 ≤ ret ∧ ret ∉ k.opened) : (copy k fd ret).Leads own := by
  unfold copy
  split
  · rename_i hdone
    exact h.insert (hnew hdone.1 hdone.2).2
  · exact h

structure Becomes (s' : Registry) (kernel : Table Nat Nat) (fds : Nat → Option Int) : Prop where
  kernel : s'.kernel = kernel
  fds : s'.fd = fds
  tight : Tight s'.world

theorem becomes_of {op : FileDescriptor.Op} {k : Table Nat Nat} (hs : Tight s.world)
    (hw : FileDescriptor.step s.world op = some w) (hopened : w.opened = k.opened) :
    Becomes (of w k) k fun x => w.fd (.object x) :=
  ⟨kernel_of hopened, rfl, step_tight _ _ _ hw hs⟩

theorem fd_update {y : Nat} {v : Option Int} :
    (fun z => Function.update w.fd (.object y) v (.object z)) =
      Function.update (fun z => w.fd (.object z)) y v := by
  funext z
  by_cases hz : z = y
  · subst hz
    simp
  · rw [Function.update_of_ne hz, Function.update_of_ne (by simp [hz])]

theorem opened_spec (hs : Tight s.world) {file : Nat}
    (h : (FileDescriptor.step s.world (.opens fd)).map (of · (s.kernel.insert fd file)) = some s') :
    fd ∉ s.kernel.opened ∧ Becomes s' (s.kernel.insert fd file) s.fd := by
  obtain ⟨w, hw, rfl⟩ := Option.map_eq_some_iff.mp h
  obtain ⟨hnew, hopens⟩ := Option.ite_none_right_eq_some.mp hw
  cases hopens
  exact ⟨hnew.2, becomes_of hs hw rfl⟩

theorem closes_spec (hs : Tight s.world) (h : act s (.closes fd) = some s') :
    (∀ x, s.fd x ≠ some fd) ∧ Becomes s' (s.kernel.close fd) s.fd := by
  obtain ⟨w, hw, rfl⟩ := Option.map_eq_some_iff.mp h
  obtain ⟨hcaller, hcloses⟩ := Option.ite_none_right_eq_some.mp hw
  cases hcloses
  refine ⟨fun x hx => ?_, becomes_of hs hw rfl⟩
  have hpos : 0 ≤ fd := (hs.owned.caller fd hcaller).1
  exact (hs.owned.opened (.object x) fd ⟨hx, hpos⟩).2 hcaller

theorem constructs_spec (hs : Tight s.world) (h : act s (.constructs x fd) = some s') :
    s.fd x = none ∧ Becomes s' s.kernel (Function.update s.fd x (some fd)) := by
  obtain ⟨w, hw, rfl⟩ := Option.map_eq_some_iff.mp h
  obtain ⟨hfree, hadopts⟩ := Option.ite_none_right_eq_some.mp hw
  obtain ⟨w₁, hadopt, rfl⟩ := Option.map_eq_some_iff.mp hadopts
  have hsame : w₁.fd = s.world.fd ∧ w₁.opened = s.world.opened := by
    unfold World.adopt at hadopt
    split at hadopt
    · cases hadopt
      exact ⟨rfl, rfl⟩
    · obtain ⟨-, hw₁⟩ := Option.ite_none_right_eq_some.mp hadopt
      cases hw₁
      exact ⟨rfl, rfl⟩
  have hbecomes := becomes_of hs (k := s.kernel) hw hsame.2
  rw [World.construct, set_fd, hsame.1, fd_update] at hbecomes
  exact ⟨hfree, hbecomes⟩

theorem moves_spec (hs : Tight s.world) (h : act s (.moves x other ret) = some s') :
    s.fd x = none ∧ ∃ fd, (fd ≠ -1 → ret ≠ -1 → 0 ≤ ret ∧ ret ∉ s.kernel.opened) ∧
      Becomes s' (copy s.kernel fd ret) (Function.update s.fd x (some (copied fd ret))) := by
  obtain ⟨fd, hother, h⟩ := Option.bind_eq_some_iff.mp h
  obtain ⟨w, hw, rfl⟩ := Option.map_eq_some_iff.mp h
  obtain ⟨hfree, hcopy⟩ := Option.ite_none_right_eq_some.mp hw
  obtain ⟨fd', hfd, hfds, hopened, hnew⟩ := clone_spec (k := s.kernel) rfl hcopy
  obtain rfl : fd' = fd := Option.some.inj (hfd.symm.trans hother)
  have hbecomes := becomes_of hs hw hopened
  rw [hfds, fd_update] at hbecomes
  exact ⟨hfree, fd', hnew, hbecomes⟩

theorem assigns_spec (hs : Tight s.world) (hne : x ≠ other)
    (h : act s (.assigns x other ret) = some s') : ∃ old fd, s.fd x = some old ∧
      s.fd other = some fd ∧ (fd ≠ -1 → ret ≠ -1 → 0 ≤ ret ∧ ret ∉ s.kernel.opened) ∧
      Becomes s' (closeFd (copy s.kernel fd ret) old)
        (Function.update s.fd x (some (copied fd ret))) := by
  rw [act, if_neg hne] at h
  obtain ⟨old, hx, h⟩ := Option.bind_eq_some_iff.mp h
  obtain ⟨fd, hother, h⟩ := Option.bind_eq_some_iff.mp h
  obtain ⟨w, hw, rfl⟩ := Option.map_eq_some_iff.mp h
  obtain ⟨old', fd', hold, hfd, hfds, hopened, hnew⟩ := copyAssign_spec (k := s.kernel) rfl
    (by simp [hne]) (by simp) hs.temporary hw
  obtain rfl : old' = old := Option.some.inj (hold.symm.trans hx)
  obtain rfl : fd' = fd := Option.some.inj (hfd.symm.trans hother)
  have hbecomes := becomes_of hs hw hopened
  rw [hfds, fd_update] at hbecomes
  exact ⟨old', fd', hx, hother, hnew, hbecomes⟩

theorem assigns_self (hs : Tight s.world) (h : act s (.assigns x x ret) = some s') :
    Becomes s' s.kernel s.fd := by
  rw [act, if_pos rfl] at h
  obtain ⟨w, hw, rfl⟩ := Option.map_eq_some_iff.mp h
  have hself := hw
  rw [FileDescriptor.step, World.copyAssign, if_pos rfl] at hself
  obtain ⟨-, -, rfl⟩ := Option.map_eq_some_iff.mp hself
  exact becomes_of hs hw rfl

theorem destroys_spec (hs : Tight s.world) (h : act s (.destroys x) = some s') :
    ∃ fd, s.fd x = some fd ∧
      Becomes s' (closeFd s.kernel fd) (Function.update s.fd x none) := by
  obtain ⟨fd, hx, h⟩ := Option.bind_eq_some_iff.mp h
  obtain ⟨w, hw, rfl⟩ := Option.map_eq_some_iff.mp h
  obtain ⟨fd', hfd, hfds, hopened⟩ := destroy_spec (k := s.kernel) rfl hw
  obtain rfl : fd' = fd := Option.some.inj (hfd.symm.trans hx)
  have hbecomes := becomes_of hs hw hopened
  rw [hfds, fd_update] at hbecomes
  exact ⟨fd', hx, hbecomes⟩

theorem registers_spec (hs : Tight s.world) (h : act s (.registers x) = some s') :
    ∃ fd, s.fd x = some fd ∧ fd ∈ s.kernel.opened ∧ s.kernel.add fd x = some s'.kernel ∧
      Becomes s' (s.kernel.setWatch fd (some x)) s.fd := by
  obtain ⟨fd, hx, h⟩ := Option.bind_eq_some_iff.mp h
  obtain ⟨k, hadd, rfl⟩ := Option.map_eq_some_iff.mp h
  obtain ⟨hmem, rfl⟩ := Table.add_some hadd
  exact ⟨fd, hx, hmem, hadd, rfl, rfl, hs⟩

theorem unregisters_spec (hs : Tight s.world) (h : act s (.unregisters x) = some s') :
    ∃ fd, s.fd x = some fd ∧ fd ∈ s.kernel.opened ∧ s.kernel.del fd = some s'.kernel ∧
      Becomes s' (s.kernel.setWatch fd none) s.fd := by
  obtain ⟨fd, hx, h⟩ := Option.bind_eq_some_iff.mp h
  obtain ⟨k, hdel, rfl⟩ := Option.map_eq_some_iff.mp h
  obtain ⟨hmem, rfl⟩ := Table.del_some hdel
  exact ⟨fd, hx, hmem, hdel, rfl, rfl, hs⟩

theorem opened_nonneg (hs : Tight s.world) (h : fd ∈ s.kernel.opened) : 0 ≤ fd := by
  obtain hcaller | ⟨x, hx⟩ := hs.covered fd h
  · exact (hs.owned.caller fd hcaller).1
  · exact hx.2

theorem fd_unique (hs : Tight s.world) (hpos : 0 ≤ fd) {y : Nat} (hx : s.fd x = some fd)
    (hy : s.fd y = some fd) : y = x := by
  have hsame := hs.owned.unique (.object y) (.object x) fd ⟨hy, hpos⟩ ⟨hx, hpos⟩
  simpa using hsame

theorem fd_mem (hs : Tight s.world) (hx : s.fd x = some fd) (hne : fd ≠ -1) :
    0 ≤ fd ∧ fd ∈ s.kernel.opened := by
  have hpos := (hs.owned.valid (.object x) fd hx).resolve_left hne
  exact ⟨hpos, (hs.owned.opened (.object x) fd ⟨hx, hpos⟩).1⟩

theorem closeFd_leads_iff (hs : Tight s.world) {k : Table Nat Nat} (h : k.Leads s.fd)
    (hpos : ∀ n ∈ k.opened, 0 ≤ n) (hx : s.fd x = some fd) {own : Nat → Option Int}
    (hother : ∀ y, y ≠ x → own y = s.fd y) (hlost : 0 ≤ fd → own x ≠ some fd) :
    (closeFd k fd).Leads own ↔ ¬ (k.Watched fd ∧ k.Shared fd) := by
  unfold closeFd
  split
  · rename_i hfd
    exact h.close_iff hx (fun y hy => fd_unique hs hfd hx hy) hother (hlost hfd)
  · rename_i hneg
    refine iff_of_true ?_ fun hwatched => hneg (hpos fd (h.watched hwatched.1).1)
    refine h.mono fun y n hn hy => ?_
    have hyx : y ≠ x := by
      intro heq
      rw [heq, hx] at hy
      exact hneg (Option.some.inj hy ▸ hpos n hn)
    exact (hother y hyx).trans hy

/-- A copy made on the way does not change who shares: what it was made of does. -/
theorem copy_stays_iff (hs : Tight s.world) {old : Int} (hne : x ≠ other)
    (hx : s.fd x = some old) (hother : s.fd other = some fd)
    (hnew : fd ≠ -1 → ret ≠ -1 → 0 ≤ ret ∧ ret ∉ s.kernel.opened) (hopen : old ∈ s.kernel.opened) :
    (copy s.kernel fd ret).Watched old ∧ (copy s.kernel fd ret).Shared old ↔
      s.kernel.Watched old ∧ s.kernel.Shared old := by
  unfold copy
  split
  · rename_i hdone
    obtain ⟨-, hret⟩ := hnew hdone.1 hdone.2
    have hfile (n : Int) (hn : n ∈ s.kernel.opened) :
        (s.kernel.insert ret (s.kernel.file fd)).file n = s.kernel.file n :=
      Table.insert_file_of_mem hret hn
    have hfd : fd ∈ s.kernel.opened := (fd_mem hs hother hdone.1).2
    have hdiffer : fd ≠ old := by
      intro heq
      subst heq
      exact hne (fd_unique hs (opened_nonneg hs hfd) hother hx)
    refine and_congr (by rw [Table.Watched, Table.Watched, hfile old hopen, Table.insert_watch]) ?_
    constructor
    · intro hshared
      obtain ⟨n, hn, hnold, hsame⟩ := hshared
      rw [hfile old hopen] at hsame
      obtain rfl | hn := Table.mem_insert.mp hn
      · rw [Table.insert_file_self] at hsame
        exact ⟨fd, hfd, hdiffer, hsame⟩
      · exact ⟨n, hn, hnold, (hfile n hn).symm.trans hsame⟩
    · intro hshared
      obtain ⟨n, hn, hnold, hsame⟩ := hshared
      exact ⟨n, Table.mem_insert.mpr (.inr hn), hnold,
        (hfile n hn).trans (hsame.trans (hfile old hopen).symm)⟩
  · exact Iff.rfl

theorem copied_iff (hx : s.fd x = some fd) :
    s.Copied x ↔ s.kernel.Watched fd ∧ s.kernel.Shared fd := by
  constructor
  · intro hcopied
    obtain ⟨fd', hfd', hstays⟩ := hcopied
    obtain rfl : fd = fd' := Option.some.inj (hx.symm.trans hfd')
    exact hstays
  · intro hstays
    exact ⟨fd, hx, hstays⟩

theorem Becomes.sound_iff {k : Table Nat Nat} {fds : Nat → Option Int} (h : Becomes s' k fds) :
    s'.Sound ↔ k.Leads fds := by
  rw [Sound, h.kernel, h.fds]

theorem update_leads {k : Table Nat Nat} (h : k.Leads s.fd) (hx : s.fd x = none)
    (v : Option Int) : k.Leads (Function.update s.fd x v) := by
  refine h.mono fun y n hn hy => ?_
  have hyx : y ≠ x := by
    intro heq
    rw [heq, hx] at hy
    cases hy
  rw [Function.update_of_ne hyx, hy]

theorem assigns_sound_iff (hs : Tight s.world) (hsound : s.Sound)
    (h : act s (.assigns x other ret) = some s') :
    s'.Sound ↔ ¬ (x ≠ other ∧ s.Copied x) := by
  by_cases hne : x = other
  · subst hne
    rw [(assigns_self hs h).sound_iff]
    exact iff_of_true hsound (by simp)
  · obtain ⟨old, fd, hx, hother, hnew, hbecomes⟩ := assigns_spec hs hne h
    rw [hbecomes.sound_iff, and_iff_right hne, copied_iff hx]
    have hpos : ∀ n ∈ (copy s.kernel fd ret).opened, 0 ≤ n := by
      intro n hn
      unfold copy at hn
      split at hn
      · rename_i hdone
        obtain rfl | hn := Table.mem_insert.mp hn
        · exact (hnew hdone.1 hdone.2).1
        · exact opened_nonneg hs hn
      · exact opened_nonneg hs hn
    have hlost : 0 ≤ old → Function.update s.fd x (some (copied fd ret)) x ≠ some old := by
      intro hold heq
      rw [Function.update_self, copied] at heq
      have hopen := (fd_mem hs hx (by omega)).2
      split at heq
      · cases heq
        omega
      · rename_i hfd
        cases heq
        exact (hnew hfd (by omega)).2 hopen
    rw [closeFd_leads_iff hs (copy_leads hsound hnew) hpos hx
      (fun y hy => Function.update_of_ne hy _ _) hlost]
    by_cases hnone : old = -1
    · -- neither before nor behind the copy
      have hunwatched (k : Table Nat Nat) (hk : k.Leads s.fd) (hkpos : ∀ n ∈ k.opened, 0 ≤ n) :
          ¬ k.Watched old := by
        intro hwatched
        have hold := hkpos old (hk.watched hwatched).1
        omega
      refine iff_of_true (fun hstays => ?_) fun hstays => ?_
      · exact hunwatched _ (copy_leads hsound hnew) hpos hstays.1
      · exact hunwatched _ hsound (fun n hn => opened_nonneg hs hn) hstays.1
    · rw [copy_stays_iff hs hne hx hother hnew (fd_mem hs hx hnone).2]

theorem act_tight {d : Deed} (hs : Tight s.world) (h : act s d = some s') : Tight s'.world := by
  cases d with
  | opens fd file =>
    rw [act] at h
    split at h
    · cases h
    · exact (opened_spec hs h).2.tight
  | dups fd ret =>
    obtain ⟨-, h⟩ := Option.ite_none_right_eq_some.mp h
    exact (opened_spec hs h).2.tight
  | closes fd => exact (closes_spec hs h).2.tight
  | constructs x fd => exact (constructs_spec hs h).2.tight
  | moves x other ret =>
    obtain ⟨-, fd, -, hbecomes⟩ := moves_spec hs h
    exact hbecomes.tight
  | assigns x other ret =>
    by_cases hne : x = other
    · subst hne
      exact (assigns_self hs h).tight
    · obtain ⟨old, fd, -, -, -, hbecomes⟩ := assigns_spec hs hne h
      exact hbecomes.tight
  | destroys x =>
    obtain ⟨fd, -, hbecomes⟩ := destroys_spec hs h
    exact hbecomes.tight
  | registers x =>
    obtain ⟨fd, -, -, -, hbecomes⟩ := registers_spec hs h
    exact hbecomes.tight
  | unregisters x =>
    obtain ⟨fd, -, -, -, hbecomes⟩ := unregisters_spec hs h
    exact hbecomes.tight

theorem act_sound_iff {d : Deed} (hs : Tight s.world) (hsound : s.Sound)
    (h : act s d = some s') : s'.Sound ↔ ¬ s.Orphans d := by
  cases d with
  | opens fd file =>
    rw [act] at h
    split at h
    · cases h
    · obtain ⟨hnew, hbecomes⟩ := opened_spec hs h
      exact iff_of_true (hbecomes.sound_iff.mpr (hsound.insert hnew)) id
  | dups fd ret =>
    obtain ⟨-, h⟩ := Option.ite_none_right_eq_some.mp h
    obtain ⟨hnew, hbecomes⟩ := opened_spec hs h
    exact iff_of_true (hbecomes.sound_iff.mpr (hsound.insert hnew)) id
  | closes fd =>
    obtain ⟨hfree, hbecomes⟩ := closes_spec hs h
    exact iff_of_true (hbecomes.sound_iff.mpr (hsound.close hfree)) id
  | constructs x fd =>
    obtain ⟨hfree, hbecomes⟩ := constructs_spec hs h
    exact iff_of_true (hbecomes.sound_iff.mpr (update_leads hsound hfree _)) id
  | moves x other ret =>
    obtain ⟨hfree, fd, hnew, hbecomes⟩ := moves_spec hs h
    have hcopy : (copy s.kernel fd ret).Leads s.fd := copy_leads hsound hnew
    exact iff_of_true (hbecomes.sound_iff.mpr (update_leads hcopy hfree _)) id
  | assigns x other ret => exact assigns_sound_iff hs hsound h
  | destroys x =>
    obtain ⟨fd, hx, hbecomes⟩ := destroys_spec hs h
    rw [hbecomes.sound_iff, Orphans, copied_iff hx]
    exact closeFd_leads_iff hs hsound (fun n hn => opened_nonneg hs hn) hx
      (fun y hy => Function.update_of_ne hy _ _) (by simp)
  | registers x =>
    obtain ⟨fd, hx, -, hadd, hbecomes⟩ := registers_spec hs h
    have hleads : s'.kernel.Leads s.fd := hsound.add hx hadd
    exact iff_of_true (hbecomes.sound_iff.mpr (hbecomes.kernel ▸ hleads)) id
  | unregisters x =>
    obtain ⟨fd, -, -, hdel, hbecomes⟩ := unregisters_spec hs h
    have hleads : s'.kernel.Leads s.fd := hsound.del hdel
    exact iff_of_true (hbecomes.sound_iff.mpr (hbecomes.kernel ▸ hleads)) id

end

/-- In every program, whatever is opened, copied, moved, closed and registered: `run_once` only
ever calls listeners that live and for what is theirs, if and only if no listener that is
registered is destroyed or assigned to while its descriptor has a copy. -/
theorem moved_sound_iff {deeds : List Deed} {s : Registry}
    (h : Runs.exec act .start deeds = some s) :
    (∀ u, Runs.Visits act .start deeds u → u.Sound) ↔
      Runs.Along act (fun u d => ¬ u.Orphans d) .start deeds := by
  have hstart : start.Sound := by
    intro n f x hx
    cases hx
  have hkeep (u : Registry) (d : Deed) (t : Registry) (hact : act u d = some t)
      (hu : Tight u.world) : Tight t.world := act_tight hu hact
  exact Runs.visits_iff_along hkeep
    (fun u d t hact hu hsound => act_sound_iff hu hsound hact) h start_tight hstart

section
variable {s s' : Registry} {x : Nat} {n fd ret : Int} {f : Nat}

theorem closeFd_stale {k : Table Nat Nat} (h : k.Stale n f x) (hopens : (closeFd k fd).Opens f) :
    (closeFd k fd).Stale n f x := by
  unfold closeFd at hopens ⊢
  split
  · rename_i hpos
    rw [if_pos hpos] at hopens
    exact h.close hopens
  · exact h

theorem copy_stale {k : Table Nat Nat} (h : k.Stale n f x) (hret : ret ≠ n) :
    (copy k fd ret).Stale n f x := by
  unfold copy
  split
  · exact h.insert fun heq => absurd heq hret
  · exact h

theorem act_stale {d : Deed} (hs : Tight s.world) (hact : act s d = some s')
    (h : s.kernel.Stale n f x) (hopens : s.kernel.Opens f) (hopens' : s'.kernel.Opens f)
    (hret : d.ret ≠ some n) : s'.kernel.Stale n f x := by
  cases d with
  | opens fd file =>
    rw [act] at hact
    split at hact
    · cases hact
    · rename_i hfresh
      obtain ⟨-, hbecomes⟩ := opened_spec hs hact
      rw [hbecomes.kernel]
      refine h.insert fun _ heq => ?_
      subst heq
      exact hfresh hopens
  | dups fd ret =>
    obtain ⟨-, hact⟩ := Option.ite_none_right_eq_some.mp hact
    obtain ⟨-, hbecomes⟩ := opened_spec hs hact
    rw [hbecomes.kernel]
    exact h.insert fun heq => absurd (congrArg some heq) hret
  | closes fd =>
    obtain ⟨-, hbecomes⟩ := closes_spec hs hact
    rw [hbecomes.kernel] at hopens' ⊢
    exact h.close hopens'
  | constructs y fd =>
    obtain ⟨-, hbecomes⟩ := constructs_spec hs hact
    rwa [hbecomes.kernel]
  | moves y other ret =>
    obtain ⟨-, fd, -, hbecomes⟩ := moves_spec hs hact
    rw [hbecomes.kernel]
    exact copy_stale h fun heq => hret (congrArg some heq)
  | assigns y other ret =>
    by_cases hne : y = other
    · subst hne
      rwa [(assigns_self hs hact).kernel]
    · obtain ⟨old, fd, -, -, -, hbecomes⟩ := assigns_spec hs hne hact
      rw [hbecomes.kernel] at hopens' ⊢
      exact closeFd_stale (copy_stale h fun heq => hret (congrArg some heq)) hopens'
  | destroys y =>
    obtain ⟨fd, -, hbecomes⟩ := destroys_spec hs hact
    rw [hbecomes.kernel] at hopens' ⊢
    exact closeFd_stale h hopens'
  | registers y =>
    obtain ⟨fd, -, hmem, -, hbecomes⟩ := registers_spec hs hact
    rw [hbecomes.kernel]
    exact h.setWatch hmem
  | unregisters y =>
    obtain ⟨fd, -, hmem, -, hbecomes⟩ := unregisters_spec hs hact
    rw [hbecomes.kernel]
    exact h.setWatch hmem

end

/-- What has been left behind in the interest list stays there as long as the file is open, whatever
is registered and unregistered, unless a copy of a descriptor gets the old number again. -/
theorem orphan_stays {s t : Registry} {deeds : List Deed} {n : Int} {f x : Nat}
    (hs : Runs.Reachable act .start s) (horphan : s.kernel.Stale n f x)
    (hrun : Runs.exec act s deeds = some t)
    (hopens : ∀ u, Runs.Visits act s deeds u → u.kernel.Opens f)
    (hret : ∀ d ∈ deeds, d.ret ≠ some n) : t.kernel.Stale n f x := by
  have htight : Tight s.world := by
    have hkeep (u : Registry) (d : Deed) (v : Registry) (hact : act u d = some v)
        (hu : Tight u.world) : Tight v.world := act_tight hu hact
    exact hs.invariant start_tight hkeep
  clear hs
  induction deeds generalizing s with
  | nil =>
    cases hrun
    exact horphan
  | cons d deeds ih =>
    obtain ⟨u, hact, hrun⟩ := Runs.exec_cons.mp hrun
    have hvisits (pre : List Deed) (v : Registry) (hpre : pre <+: deeds)
        (hv : Runs.exec act u pre = some v) : Runs.Visits act s (d :: deeds) v :=
      ⟨d :: pre, by simpa using hpre, Runs.exec_cons.mpr ⟨u, hact, hv⟩⟩
    have hstart : s.kernel.Opens f := hopens s ⟨[], List.nil_prefix, rfl⟩
    have hnext : u.kernel.Opens f := hopens u (hvisits [] u List.nil_prefix rfl)
    have hstale := act_stale htight hact horphan hstart hnext (hret d List.mem_cons_self)
    refine ih hstale hrun ?_ (fun e he => hret e (List.mem_cons_of_mem d he))
      (act_tight htight hact)
    intro v hv
    obtain ⟨pre, hpre, hv⟩ := hv
    exact hopens v (hvisits pre v hpre hv)

def movedOut : List Deed := [.opens 3 0, .constructs 0 3, .registers 0, .moves 1 0 4, .destroys 0]

theorem movedOut_unsound : ∃ s, Runs.exec act .start movedOut = some s ∧ ¬ s.Sound ∧
    ¬ Runs.Along act (fun u d => ¬ u.Orphans d) .start movedOut := by
  obtain ⟨s, hs, hwatch, hgone⟩ : ∃ s, Runs.exec act .start movedOut = some s ∧
      s.kernel.watch 3 0 = some 0 ∧ s.fd 0 = none := ⟨_, rfl, rfl, rfl⟩
  have hunsound : ¬ s.Sound := by
    intro hsound
    have hfd := (hsound 3 0 0 hwatch).1
    rw [hgone] at hfd
    cases hfd
  refine ⟨s, hs, hunsound, fun halong => ?_⟩
  exact hunsound ((moved_sound_iff hs).mpr halong s ⟨movedOut, List.prefix_rfl, hs⟩)

def reused : List Deed :=
  [.registers 1, .unregisters 1, .opens 3 1, .constructs 2 3, .registers 2, .unregisters 2]

theorem reused_orphan : ∃ s t, Runs.exec act .start movedOut = some s ∧
    Runs.exec act s reused = some t ∧ t.kernel.Stale 3 0 0 := by
  obtain ⟨s, t, hs, ht, horphan, hopens⟩ : ∃ s t, Runs.exec act .start movedOut = some s ∧
      Runs.exec act s reused = some t ∧ s.kernel.Stale 3 0 0 ∧
      ∀ k : Fin 7, ∃ u, Runs.exec act s (reused.take k) = some u ∧ u.kernel.Opens 0 := by
    exact ⟨_, _, rfl, rfl, ⟨rfl, by decide⟩, by decide⟩
  refine ⟨s, t, hs, ht, orphan_stays ⟨movedOut, hs⟩ horphan ht (fun u hu => ?_) (by decide)⟩
  obtain ⟨pre, hpre, hu⟩ := hu
  obtain ⟨v, hv, hfile⟩ := hopens ⟨pre.length, Nat.lt_succ_of_le hpre.length_le⟩
  rw [← List.prefix_iff_eq_take.mp hpre, hu] at hv
  cases hv
  exact hfile

end Registry
end Flyzero.EventDispatch
