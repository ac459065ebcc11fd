import Flyzero.EventDispatch.Dispatcher

/-! Which timers a call of `run_once` fires. -/
namespace Flyzero.EventDispatch
variable {ι κ τ : Type*}

def Call.due (c : Call τ) : Multiset (TimeoutListenerWrapper τ) := c.queue.filter (Due c.time)

def Call.Served (c : Call τ) : Prop := c.due ≤ (c.fired : Multiset _)

/-- What `run_once` has done when it returns: it serves the timers, or the batch and no timer. -/
structure Call.Settled (c : Call τ) : Prop where
  timers : c.events = 0 → c.Served
  batch : c.events ≠ 0 → c.fired = []

/-- What is due and not fired is behind the top of the queue. -/
def Call.Firing (c : Call τ) (q : TimeoutListenerQueue τ) : Prop :=
  (∃ top, q.top? = some top) ∧ c.due ≤ c.fired + q.pop.entries

def Phase.Fair (q : TimeoutListenerQueue τ) : Phase ι τ → Prop
  | .onRead call _ _ | .onWrite call _ => call.events ≠ 0 ∧ call.fired = []
  | .onTimeout call now _ => call.events = 0 ∧ call.time ≤ now ∧ call.Firing q
  | _ => True

structure Dispatcher.Fair (d : Dispatcher ι κ τ) : Prop where
  completed : ∀ c ∈ d.completed, c.Settled
  phase : d.phase.Fair d.timeoutListeners

section
variable {d d' : Dispatcher ι κ τ} {call : Call τ} {q : TimeoutListenerQueue τ}

theorem Call.Firing.push (h : call.Firing q) (x : TimeoutListenerWrapper τ) :
    call.Firing (q.push x) := by
  obtain ⟨⟨top, htop⟩, hdue⟩ := h
  refine ⟨?_, hdue.trans (Multiset.add_le_add_left (PriorityQueue.pop_le_pop_push htop x))⟩
  rcases PriorityQueue.top?_push_or htop x with htop | htop
  · exact ⟨top, htop⟩
  · exact ⟨x, htop⟩

theorem returned_fair (h : ∀ c ∈ d.completed, c.Settled) (hcall : call.Settled) :
    (d.returned call).Fair := by
  refine ⟨fun c hc => ?_, trivial⟩
  rcases List.mem_append.mp hc with hc | hc
  · exact h c hc
  · rwa [List.mem_singleton.mp hc]

theorem batchStop_fair (hstop : d.BatchStop call d') (h : ∀ c ∈ d.completed, c.Settled)
    (hcall : call.events ≠ 0 ∧ call.fired = []) : d'.Fair := by
  cases hstop with
  | returned => exact returned_fair h ⟨fun hzero => absurd hzero hcall.1, fun _ => hcall.2⟩
  | onRead | onWrite => exact ⟨h, hcall⟩

theorem Call.served_of_queue {entries : Multiset (TimeoutListenerWrapper τ)}
    (hdue : call.due ≤ call.fired + entries) (hnone : ∀ w ∈ entries, ¬ Due call.time w) :
    call.Served := by
  have hfilter := Multiset.filter_le_filter (Due call.time) hdue
  rw [Multiset.filter_add, Multiset.filter_eq_nil.mpr hnone, Multiset.add_zero, Call.due,
    Multiset.filter_filter] at hfilter
  simp only [and_self] at hfilter
  exact hfilter.trans (Multiset.filter_le _ _)

theorem timeoutStop_fair {now : Int64} (hstop : d.TimeoutStop call now d')
    (h : ∀ c ∈ d.completed, c.Settled) (hevents : call.events = 0) (htime : call.time ≤ now)
    (hdue : call.due ≤ call.fired + d.timeoutListeners.entries) : d'.Fair := by
  cases hstop with
  | returned hnone =>
    refine returned_fair h ⟨fun _ => ?_, fun hne => absurd hevents hne⟩
    exact Call.served_of_queue hdue fun w hw hw' => hnone w hw (Int64.le_trans hw' htime)
  | @onTimeout wrapper htop _ =>
    refine ⟨h, hevents, htime, ⟨wrapper, htop⟩, hdue.trans_eq ?_⟩
    rw [PriorityQueue.entries_pop htop, ← Multiset.coe_add, Multiset.add_assoc]
    rfl

theorem resumes_fair {now : Int64} (hresumes : d.Resumes call now d')
    (h : ∀ c ∈ d.completed, c.Settled) (hevents : call.events = 0) (htime : call.time ≤ now)
    (hfiring : call.Firing d.timeoutListeners) : d'.Fair := by
  cases hresumes with
  | undefined => exact ⟨h, trivial⟩
  | popped => exact timeoutStop_fair (d.pop.onTimeout_stop call now) h hevents htime hfiring.2
  | @rearmed grow listener interval =>
    have hpush := hfiring.push (.create listener now interval)
    exact timeoutStop_fair (Dispatcher.onTimeout_stop _ call now) h hevents htime hpush.2

theorem afterWait_fair {time now : Int64} (h : ∀ c ∈ d.completed, c.Settled) (htime : time ≤ now)
    (events : List (EpollEvent ι)) : (d.afterWait time now events).Fair := by
  unfold Dispatcher.afterWait
  dsimp only
  split
  · rename_i hzero
    refine timeoutStop_fair (Dispatcher.onTimeout_stop _ _ now) h hzero htime ?_
    exact (Multiset.filter_le _ _).trans_eq (Multiset.zero_add _).symm
  · rename_i hne
    exact batchStop_fair (Dispatcher.onEvents_stop _ _ events) h ⟨hne, rfl⟩

theorem loopStop_fair (hstop : d.LoopStop d') (h : ∀ c ∈ d.completed, c.Settled) : d'.Fair := by
  cases hstop with
  | epollWait | onLoop | undefined => exact ⟨h, trivial⟩

theorem Phase.Fair.push {phase : Phase ι τ} (h : phase.Fair q) (x : TimeoutListenerWrapper τ) :
    phase.Fair (q.push x) := by
  cases phase with
  | onTimeout call now generation => exact ⟨h.1, h.2.1, h.2.2.push x⟩
  | onRead | onWrite => exact h
  | outside | onLoop | epollWait | undefined => trivial

end

section
variable [DecidableEq κ] {fd : ι → Int} {grow : Nat → Nat} {d d' : Dispatcher ι κ τ}

theorem control_fair {c : Control ι κ τ} (h : d.control fd grow c = some d') (hfair : d.Fair) :
    d'.Fair := by
  obtain ⟨d₁, hd, rfl⟩ := control_cases h
  cases hd with
  | registerIo | unregisterIo | unregisterLoop => exact ⟨hfair.completed, hfair.phase⟩
  | registerLoop =>
    dsimp only [Dispatcher.registerLoopListener]
    split
    · exact ⟨hfair.completed, hfair.phase⟩
    · exact ⟨hfair.completed, hfair.phase⟩
  | registerTimeout => exact ⟨hfair.completed, hfair.phase.push _⟩

variable [DecidableEq ι]

theorem step_fair (d : Dispatcher ι κ τ) (op : Op ι κ τ) (d' : Dispatcher ι κ τ)
    (h : step fd grow d op = some d') (hfair : d.Fair) : d'.Fair := by
  obtain ⟨hcompleted, hphase'⟩ := hfair
  cases step_cases h with
  | control h => exact control_fair h ⟨hcompleted, hphase'⟩
  | closed => exact ⟨hcompleted, hphase'⟩
  | runOnce => exact loopStop_fair (d.onLoop_stop _ _ 0) hcompleted
  | epollWait _ htime hnow => exact afterWait_fair hcompleted hnow _
  | interrupted | throws => exact ⟨hcompleted, trivial⟩
  | onLoop => exact loopStop_fair (d.onLoop_stop _ _ _) hcompleted
  | onRead hphase =>
    rw [hphase] at hphase'
    exact batchStop_fair (d.afterRead_stop _ _ _) hcompleted hphase'
  | onWrite hphase =>
    rw [hphase] at hphase'
    exact batchStop_fair (d.onEvents_stop _ _) hcompleted hphase'
  | onTimeout hphase =>
    rw [hphase] at hphase'
    obtain ⟨hevents, htime, hfiring⟩ := hphase'
    exact resumes_fair (d.afterTimeout_resumes grow _ _ _ _) hcompleted hevents htime hfiring

/-- A call that is not interrupted serves the timers if and only if `epoll_wait` has reported no
event or no timer is due. -/
theorem served_iff (h : Runs.Reachable (step fd grow) .start d) {c : Call τ}
    (hc : c ∈ d.completed) : c.Served ↔ c.events = 0 ∨ c.due = 0 := by
  have hstart : (Dispatcher.start : Dispatcher ι κ τ).Fair := ⟨nofun, trivial⟩
  obtain ⟨htimers, hbatch⟩ := (h.invariant hstart step_fair).completed c hc
  constructor
  · intro hserved
    by_cases hzero : c.events = 0
    · exact .inl hzero
    · rw [Call.Served, hbatch hzero] at hserved
      exact .inr (Multiset.le_zero.mp hserved)
  · rintro (hzero | hdue)
    · exact htimers hzero
    · rw [Call.Served, hdue]
      exact Multiset.zero_le _

end

def quietTimeout : List (Op Nat Nat Nat) :=
  [.control (.registerTimeout 0 0 5), .runOnce, .epollWait 10 10 [], .returns false]

def busyTimeout : List (Op Nat Nat Nat) :=
  [.control (.registerIo 0), .control (.registerTimeout 0 0 5), .runOnce,
    .epollWait 10 10 [⟨epollIn, 0⟩], .returns true]

theorem quietTimeout_served : ∃ d, Runs.exec (step (fun l : Nat => (l : Int)) (2 * ·)) .start
    quietTimeout = some d ∧ ∃ c ∈ d.completed, c.due ≠ 0 ∧ c.Served := by
  let w : TimeoutListenerWrapper Nat := .create 0 0 5
  let queue : TimeoutListenerQueue Nat := PriorityQueue.empty.push w
  have hentries : queue.entries = {w} := PriorityQueue.entries_push _ w
  have htop : queue.top? = some w := PriorityQueue.top?_of_entries_eq hentries
  have hpop : queue.pop.top? = none := by
    have hcons : w ::ₘ queue.pop.entries = {w} :=
      (PriorityQueue.entries_pop htop).symm.trans hentries
    exact PriorityQueue.top?_eq_none.mpr ((Multiset.cons_inj_right w).mp hcons)
  let call : Call Nat := ⟨10, 0, queue.entries, [w]⟩
  let d : Dispatcher Nat Nat Nat :=
    { interest := fun _ => none
      loopListeners := []
      loopStorage := ⟨0, 0⟩
      timeoutListeners := queue
      timeoutStorage := ⟨0, 1⟩
      clock := 10
      phase := .onTimeout call 10 1
      log := [.control (.registerTimeout 0 0 5), .onTimeout w]
      completed := [] }
  have hfire : Runs.exec (step (fun l : Nat => (l : Int)) (2 * ·)) .start
      (quietTimeout.take 3) = some d := by
    have hcall (d : Dispatcher Nat Nat Nat) (call : Call Nat) (h : d.timeoutListeners = queue) :
        d.onTimeout call 10 = { d with
          phase := .onTimeout { call with fired := call.fired ++ [w] } 10
            d.timeoutStorage.generation
          log := d.log ++ [.onTimeout w] } := by
      rw [Dispatcher.onTimeout, h, htop]
      rfl
    refine Runs.exec_cons.mpr ⟨_, rfl, Runs.exec_cons.mpr ⟨_, rfl, Runs.exec_cons.mpr ⟨_, rfl, ?_⟩⟩⟩
    exact congrArg some (hcall _ _ rfl)
  have hreturn : step (fun l : Nat => (l : Int)) (2 * ·) d (.returns false) =
      some (d.pop.returned call) := by
    have hempty : d.pop.onTimeout call 10 = d.pop.returned call := by
      rw [Dispatcher.onTimeout, show d.pop.timeoutListeners.top? = none from hpop]
    exact congrArg some hempty
  have hrun := Runs.exec_concat.mpr ⟨d, hfire, hreturn⟩
  refine ⟨_, hrun, call, List.mem_singleton_self call, ?_, ?_⟩
  · have hdue : w ∈ call.due :=
      Multiset.mem_filter.mpr ⟨PriorityQueue.top?_mem htop, by decide⟩
    intro hzero
    rw [hzero] at hdue
    exact Multiset.notMem_zero w hdue
  · exact (served_iff ⟨_, hrun⟩ (List.mem_singleton_self call)).mpr (.inl rfl)

theorem busyTimeout_not_served : ¬ ∀ d, Runs.exec (step (fun l : Nat => (l : Int)) (2 * ·)) .start
    busyTimeout = some d → ∀ c ∈ d.completed, c.Served := by
  intro h
  have hserved := h _ rfl _ (List.mem_singleton_self _)
  have hqueue : TimeoutListenerWrapper.create (0 : Nat) 0 5 ∈
      (PriorityQueue.empty.push (.create 0 0 5) : TimeoutListenerQueue Nat).entries := by
    rw [PriorityQueue.entries_push]
    exact Multiset.mem_cons_self _ _
  have hdue : TimeoutListenerWrapper.create (0 : Nat) 0 5 ∈ ([] : List _) :=
    Multiset.mem_of_le hserved (Multiset.mem_filter.mpr ⟨hqueue, by decide⟩)
  cases hdue

end Flyzero.EventDispatch
