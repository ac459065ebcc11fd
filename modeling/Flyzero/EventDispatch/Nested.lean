import Flyzero.EventDispatch.Dispatcher

/-! Timers that are registered while the callback of a timer is running. -/
namespace Flyzero.EventDispatch
variable {ι κ τ : Type*}

/-- A call of `register_timeout_listener`, with what the clock shows in it. -/
structure Registration (τ : Type*) where
  listener : τ
  now : Int64
  interval : Int64

namespace Registration

def op (r : Registration τ) : Op ι κ τ := .control (.registerTimeout r.listener r.now r.interval)

def wrapper (r : Registration τ) : TimeoutListenerWrapper τ :=
  .create r.listener r.now r.interval

end Registration

def Storage.inserts (grow : Nat → Nat) (size : Nat) : Nat → Storage → Storage
  | 0, s => s
  | k + 1, s => inserts grow (size + 1) k (s.insert grow size)

theorem Storage.generation_insert_le (grow : Nat → Nat) (size : Nat) (s : Storage) :
    s.generation ≤ (s.insert grow size).generation := by
  by_cases hfull : size = s.capacity
  · rw [s.generation_insert_full grow hfull]
    exact Nat.le_succ _
  · rw [s.insert_room grow hfull]

theorem Storage.generation_le (grow : Nat → Nat) (size k : Nat) (s : Storage) :
    s.generation ≤ (s.inserts grow size k).generation := by
  induction k generalizing size s with
  | zero => exact Nat.le_refl _
  | succ k ih => exact Nat.le_trans (s.generation_insert_le grow size) (ih _ _)

theorem Storage.generation_inserts (grow : Nat → Nat) (size k : Nat) (s : Storage) :
    (s.inserts grow size k).generation = s.generation ↔ ∀ j < k, size + j ≠ s.capacity := by
  induction k generalizing size s with
  | zero => exact iff_of_true rfl nofun
  | succ k ih =>
    by_cases hfull : size = s.capacity
    · have hle := Storage.generation_le grow (size + 1) k (s.insert grow size)
      have hmoved := Storage.generation_insert_full grow hfull
      refine iff_of_false (fun hsame => ?_) fun hall => hall 0 (Nat.succ_pos k) hfull
      rw [Storage.inserts] at hsame
      omega
    · rw [Storage.inserts, Storage.insert_room grow hfull, ih]
      constructor
      · intro hall j hj
        cases j with
        | zero => exact hfull
        | succ j =>
          rw [← Nat.add_assoc, Nat.add_right_comm]
          exact hall j (Nat.lt_of_succ_lt_succ hj)
      · intro hall j hj
        rw [Nat.add_right_comm, Nat.add_assoc]
        exact hall (j + 1) (Nat.succ_lt_succ hj)

section
variable [DecidableEq ι] [DecidableEq κ] {fd : ι → Int} {grow : Nat → Nat}

structure Registered (grow : Nat → Nat) (regs : List (Registration τ))
    (d d' : Dispatcher ι κ τ) : Prop where
  entries : d'.timeoutListeners.entries =
    (regs.map Registration.wrapper : Multiset _) + d.timeoutListeners.entries
  storage : d'.timeoutStorage =
    d.timeoutStorage.inserts grow d.timeoutListeners.cells.size regs.length
  clock : ∀ r ∈ regs, d.clock ≤ r.now
  /-- The top stays when the new timers are no sooner. -/
  top : ∀ w, d.timeoutListeners.top? = some w → (∀ r ∈ regs, w.gt r.wrapper = false) →
    d'.timeoutListeners.top? = some w

theorem step_registration {d d' : Dispatcher ι κ τ} {r : Registration τ}
    (h : step fd grow d r.op = some d') :
    d.clock ≤ r.now ∧ d' = { d.emplace grow r.listener r.now r.interval with
      clock := r.now
      log := d.log ++ [.control (.registerTimeout r.listener r.now r.interval)] } := by
  cases step_cases h with
  | control h =>
    obtain ⟨d₁, hd, rfl⟩ := control_cases h
    cases hd with
    | registerTimeout hnow => exact ⟨hnow, rfl⟩

theorem exec_registered {regs : List (Registration τ)} {d d' : Dispatcher ι κ τ}
    (h : Runs.exec (step fd grow) d (regs.map Registration.op) = some d') :
    Registered grow regs d d' ∧ d'.phase = d.phase := by
  induction regs generalizing d with
  | nil =>
    cases h
    exact ⟨⟨(Multiset.zero_add _).symm, rfl, nofun, fun _ htop _ => htop⟩, rfl⟩
  | cons r regs ih =>
    obtain ⟨d₁, hstep, hrest⟩ := Runs.exec_cons.mp h
    obtain ⟨hclock, rfl⟩ := step_registration hstep
    obtain ⟨hnext, hphase⟩ := ih hrest
    refine ⟨⟨?_, ?_, ?_, fun w htop hlater => ?_⟩, hphase⟩
    · rw [hnext.entries]
      dsimp only [Dispatcher.emplace]
      rw [PriorityQueue.entries_push, Multiset.add_cons, List.map_cons, ← Multiset.cons_coe,
        Multiset.cons_add]
      rfl
    · rw [hnext.storage]
      dsimp only [Dispatcher.emplace]
      rw [PriorityQueue.size_push]
      rfl
    · intro x hx
      cases List.mem_cons.mp hx with
      | inl hsame => exact hsame ▸ hclock
      | inr hin =>
        have hlater := hnext.clock x hin
        exact Int64.le_trans hclock hlater
    · obtain ⟨hfirst, hothers⟩ := List.forall_mem_cons.mp hlater
      exact hnext.top w (PriorityQueue.top?_push htop hfirst) hothers

end

theorem timeoutStop_listeners {d d' : Dispatcher ι κ τ} {call : Call τ} {now : Int64}
    (h : d.TimeoutStop call now d') :
    d'.phase ≠ .undefined ∧ d'.timeoutListeners = d.timeoutListeners := by
  cases h with
  | returned | onTimeout => exact ⟨nofun, rfl⟩

theorem onTimeout_calls {d : Dispatcher ι κ τ} {w : TimeoutListenerWrapper τ} {now : Int64}
    (htop : d.timeoutListeners.top? = some w) (hdue : w.deadline ≤ now) (call : Call τ) :
    d.onTimeout call now = { d with
      phase := .onTimeout { call with fired := call.fired ++ [w] } now d.timeoutStorage.generation
      log := d.log ++ [.onTimeout w] } := by
  rw [Dispatcher.onTimeout, htop]
  exact if_neg (Int64.not_lt.mpr hdue)

/-- The reference is to memory that the vector has left. -/
theorem afterTimeout_moved {grow : Nat → Nat} {d : Dispatcher ι κ τ} {generation : Nat}
    (h : d.timeoutStorage.generation ≠ generation) (call : Call τ) (now : Int64) :
    (d.afterTimeout grow call now generation true).phase = .undefined := by
  rw [Dispatcher.afterTimeout, if_pos rfl, if_neg h]

theorem afterTimeout_top (grow : Nat → Nat) {d : Dispatcher ι κ τ} {w : TimeoutListenerWrapper τ}
    (htop : d.timeoutListeners.top? = some w) (call : Call τ) (now : Int64) :
    (d.afterTimeout grow call now d.timeoutStorage.generation true).phase ≠ .undefined ∧
      (d.afterTimeout grow call now d.timeoutStorage.generation true).timeoutListeners =
        (d.timeoutListeners.push (.create w.listener now w.interval)).pop := by
  rw [Dispatcher.afterTimeout, if_pos rfl, if_pos rfl, htop]
  exact timeoutStop_listeners (Dispatcher.onTimeout_stop _ call now)

/-- The fired timer is put back and popped, and the new timers are kept, all with the deadlines
that the clock and their intervals give. -/
structure Rearms (d d' : Dispatcher ι κ τ) (w : TimeoutListenerWrapper τ) (now : Int64)
    (regs : List (Registration τ)) : Prop where
  defined : d'.phase ≠ .undefined
  kept : ∀ r ∈ regs, r.wrapper.deadline.toInt = r.now.toInt + r.interval.toInt
  rearmed : (TimeoutListenerWrapper.create w.listener now w.interval).deadline.toInt =
    now.toInt + w.interval.toInt
  queue : w ::ₘ d'.timeoutListeners.entries = .create w.listener now w.interval ::ₘ
    ((regs.map Registration.wrapper : Multiset _) + d.timeoutListeners.entries)

theorem create_deadline {now interval : Int64} (listener : τ)
    (hlow : -2 ^ 63 ≤ now.toInt + interval.toInt) (hhigh : now.toInt + interval.toInt < 2 ^ 63) :
    (TimeoutListenerWrapper.create listener now interval).deadline.toInt =
      now.toInt + interval.toInt := by
  rw [TimeoutListenerWrapper.create, Int64.toInt_add, Int.bmod_eq_of_le (by omega) (by omega)]

theorem gt_eq_false {a b : TimeoutListenerWrapper τ} (h : a.deadline.toInt ≤ b.deadline.toInt) :
    a.gt b = false := by
  simp only [TimeoutListenerWrapper.gt, gt_iff_lt, decide_eq_false_iff_not,
    Int64.lt_iff_toInt_lt]
  omega

/-- A deadline that does not wrap around is later than the time of its registration. -/
theorem Registered.top_of_kept {grow : Nat → Nat} {d d' : Dispatcher ι κ τ}
    {regs : List (Registration τ)} (h : Registered grow regs d d') {w : TimeoutListenerWrapper τ}
    {now : Int64} (htop : d.timeoutListeners.top? = some w) (hdue : w.deadline ≤ now)
    (hclock : now ≤ d.clock) (hpos : ∀ r ∈ regs, 0 < r.interval.toInt)
    (hkept : ∀ r ∈ regs, r.wrapper.deadline.toInt = r.now.toInt + r.interval.toInt) :
    d'.timeoutListeners.top? = some w := by
  refine h.top w htop fun r hr => gt_eq_false ?_
  have hlater := h.clock r hr
  rw [Int64.le_iff_toInt_le] at hdue hclock hlater
  have hinterval := hpos r hr
  rw [hkept r hr]
  omega

section
variable [DecidableEq ι] [DecidableEq κ] {fd : ι → Int} {grow : Nat → Nat}
  {d d' : Dispatcher ι κ τ} {regs : List (Registration τ)} {w : TimeoutListenerWrapper τ}
  {now : Int64}

theorem exec_nested (htop : d.timeoutListeners.top? = some w) (hdue : w.deadline ≤ now)
    {call : Call τ} (hrun : Runs.exec (step fd grow) (d.onTimeout call now)
      (regs.map Registration.op ++ [.returns true]) = some d') :
    ∃ d₁, Registered grow regs d d₁ ∧ d' = d₁.afterTimeout grow
      { call with fired := call.fired ++ [w] } now d.timeoutStorage.generation true := by
  rw [onTimeout_calls htop hdue] at hrun
  obtain ⟨d₁, hregs, hreturn⟩ := Runs.exec_concat.mp hrun
  obtain ⟨⟨hentries, hstorage, hclock, hkeeps⟩, hphase⟩ := exec_registered hregs
  rw [step, hphase] at hreturn
  exact ⟨d₁, ⟨hentries, hstorage, hclock, hkeeps⟩, (Option.some.inj hreturn).symm⟩

omit [DecidableEq ι] [DecidableEq κ] in
theorem Registered.popped {d₁ : Dispatcher ι κ τ} (hreg : Registered grow regs d d₁)
    {t : TimeoutListenerWrapper τ} (htop : d₁.timeoutListeners.top? = some w)
    (hqueue : w ::ₘ (d₁.timeoutListeners.push t).pop.entries =
      t ::ₘ ((regs.map Registration.wrapper : Multiset _) + d.timeoutListeners.entries))
    (hsooner : t.deadline.toInt < w.deadline.toInt) : w = t := by
  have hgt : w.gt t = true := by
    simp only [TimeoutListenerWrapper.gt, gt_iff_lt, decide_eq_true_eq, Int64.lt_iff_toInt_lt]
    exact hsooner
  have hpop := PriorityQueue.entries_pop (PriorityQueue.top?_push_gt htop hgt)
  rw [PriorityQueue.entries_push, Multiset.cons_inj_right, hreg.entries] at hpop
  rwa [← hpop, Multiset.cons_inj_left] at hqueue

omit [DecidableEq ι] [DecidableEq κ] in
theorem rearms_of_room {d₁ : Dispatcher ι κ τ} (hreg : Registered grow regs d d₁)
    (htop : d.timeoutListeners.top? = some w) (hdue : w.deadline ≤ now) (hclock : now ≤ d.clock)
    (hpos : ∀ r ∈ regs, 0 < r.interval.toInt)
    (hsame : d₁.timeoutStorage.generation = d.timeoutStorage.generation)
    (hfits : ∀ r ∈ regs, r.now.toInt + r.interval.toInt < 2 ^ 63)
    (hlater : w.deadline.toInt ≤ now.toInt + w.interval.toInt)
    (hhigh : now.toInt + w.interval.toInt < 2 ^ 63) (call : Call τ) :
    Rearms d (d₁.afterTimeout grow call now d.timeoutStorage.generation true) w now regs := by
  have hlow := w.deadline.le_toInt
  have hkept : ∀ r ∈ regs, r.wrapper.deadline.toInt = r.now.toInt + r.interval.toInt := by
    intro r hr
    have hpos := hpos r hr
    have hnow := r.now.le_toInt
    exact create_deadline r.listener (by omega) (hfits r hr)
  have hrearmed : (TimeoutListenerWrapper.create w.listener now w.interval).deadline.toInt =
      now.toInt + w.interval.toInt := create_deadline w.listener (by omega) hhigh
  have htop₁ := hreg.top_of_kept htop hdue hclock hpos hkept
  obtain ⟨hdefined, hqueue⟩ := afterTimeout_top grow htop₁ call now
  have hle : w.gt (.create w.listener now w.interval) = false := gt_eq_false (by omega)
  rw [← hsame]
  refine ⟨hdefined, hkept, hrearmed, ?_⟩
  rw [hqueue, PriorityQueue.entries_pop_push htop₁ hle, Multiset.cons_swap,
    ← PriorityQueue.entries_pop htop₁, hreg.entries]

/-- The reference survives while the vector is not full, and the top is the timer that fired while
the new deadlines do not wrap around. -/
theorem nested_rearms_iff (htop : d.timeoutListeners.top? = some w) (hdue : w.deadline ≤ now)
    (hclock : now ≤ d.clock) (hpos : ∀ r ∈ regs, 0 < r.interval.toInt) {call : Call τ}
    (hrun : Runs.exec (step fd grow) (d.onTimeout call now)
      (regs.map Registration.op ++ [.returns true]) = some d') :
    Rearms d d' w now regs ↔
      (∀ j < regs.length, d.timeoutListeners.cells.size + j ≠ d.timeoutStorage.capacity) ∧
      (∀ r ∈ regs, r.now.toInt + r.interval.toInt < 2 ^ 63) ∧
      w.deadline.toInt ≤ now.toInt + w.interval.toInt ∧
      now.toInt + w.interval.toInt < 2 ^ 63 := by
  obtain ⟨d₁, hreg, rfl⟩ := exec_nested htop hdue hrun
  have hgeneration := Storage.generation_inserts grow d.timeoutListeners.cells.size regs.length
    d.timeoutStorage
  rw [← hreg.storage] at hgeneration
  rw [← hgeneration]
  constructor
  · rintro ⟨hdefined, hkept, hrearmed, hqueue⟩
    have hsame : d₁.timeoutStorage.generation = d.timeoutStorage.generation :=
      not_not.mp fun hmoved => hdefined (afterTimeout_moved hmoved _ now)
    have htop₁ := hreg.top_of_kept htop hdue hclock hpos hkept
    refine ⟨hsame, fun r hr => ?_, Int.not_lt.mp fun hsooner => ?_, ?_⟩
    · rw [← hkept r hr]
      exact Int64.toInt_lt _
    · rw [← hsame, (afterTimeout_top grow htop₁ _ now).2] at hqueue
      rw [← hrearmed] at hsooner
      rw [← hreg.popped htop₁ hqueue hsooner] at hsooner
      exact Int.lt_irrefl _ hsooner
    · rw [← hrearmed]
      exact Int64.toInt_lt _
  · rintro ⟨hsame, hfits, hlater, hhigh⟩
    exact rearms_of_room hreg htop hdue hclock hpos hsame hfits hlater hhigh _

end

def oneTimer (capacity : Nat) : Dispatcher Nat Nat Nat where
  interest _ := none
  loopListeners := []
  loopStorage := { capacity := 0, generation := 0 }
  timeoutListeners := PriorityQueue.empty.push (.create 0 0 5)
  timeoutStorage := { capacity, generation := 1 }
  clock := 5
  phase := .outside
  log := []
  completed := []

def anotherTimer : Registration Nat := { listener := 1, now := 5, interval := 3 }

theorem oneTimer_top (capacity : Nat) :
    (oneTimer capacity).timeoutListeners.top? = some (.create 0 0 5) :=
  PriorityQueue.top?_of_entries_eq (PriorityQueue.entries_push _ _)

theorem oneTimer_size (capacity : Nat) : (oneTimer capacity).timeoutListeners.cells.size = 1 :=
  PriorityQueue.size_push _ _

theorem oneTimer_runs (capacity : Nat) (call : Call Nat) :
    ∃ d, Runs.exec (step (fun l : Nat => (l : Int)) doubled) ((oneTimer capacity).onTimeout call 5)
      ([anotherTimer].map Registration.op ++ [.returns true]) = some d := by
  rw [onTimeout_calls (oneTimer_top capacity) (by decide)]
  exact ⟨_, rfl⟩

theorem spareCell_rearms : ∃ d, Runs.exec (step (fun l : Nat => (l : Int)) doubled)
    ((oneTimer 2).onTimeout ⟨5, 0, 0, []⟩ 5)
      ([anotherTimer].map Registration.op ++ [.returns true]) = some d ∧
    Rearms (oneTimer 2) d (.create 0 0 5) 5 [anotherTimer] := by
  obtain ⟨d, hrun⟩ := oneTimer_runs 2 ⟨5, 0, 0, []⟩
  refine ⟨d, hrun, (nested_rearms_iff (oneTimer_top 2) (by decide) (by decide) ?_ hrun).mpr
    ⟨?_, ?_, by decide, by decide⟩⟩
  · simp [anotherTimer]
  · rw [oneTimer_size]
    simp [oneTimer]
  · simp [anotherTimer]

theorem fullVector_not_rearms : ¬ ∀ d, Runs.exec (step (fun l : Nat => (l : Int)) doubled)
    ((oneTimer 1).onTimeout ⟨5, 0, 0, []⟩ 5)
      ([anotherTimer].map Registration.op ++ [.returns true]) = some d →
    Rearms (oneTimer 1) d (.create 0 0 5) 5 [anotherTimer] := by
  intro h
  obtain ⟨d, hrun⟩ := oneTimer_runs 1 ⟨5, 0, 0, []⟩
  obtain ⟨d₁, hreg, rfl⟩ := exec_nested (oneTimer_top 1) (by decide) hrun
  refine (h _ hrun).defined (afterTimeout_moved (fun hsame => ?_) _ 5)
  rw [hreg.storage, Storage.generation_inserts, oneTimer_size] at hsame
  exact hsame 0 Nat.one_pos rfl

end Flyzero.EventDispatch
