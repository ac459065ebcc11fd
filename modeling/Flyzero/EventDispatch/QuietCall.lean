import Flyzero.EventDispatch.Dispatcher

/-! A call of `run_once` in which nothing arrives is the loop of `on_timeout`. -/
namespace Flyzero.EventDispatch
variable {ι κ τ : Type*}

/-- What calls of timers change when the listeners leave the dispatcher alone. -/
structure Dispatcher.Fires (d : Dispatcher ι κ τ) (calls : List (TimeoutListenerWrapper τ × Bool))
    (d' : Dispatcher ι κ τ) : Prop where
  interest : d'.interest = d.interest
  loopListeners : d'.loopListeners = d.loopListeners
  loopStorage : d'.loopStorage = d.loopStorage
  clock : d'.clock = d.clock
  log : d'.log = d.log ++ calls.map fun c => .onTimeout c.1

section
variable {d d₁ d₂ : Dispatcher ι κ τ} {calls more : List (TimeoutListenerWrapper τ × Bool)}

theorem Dispatcher.Fires.nil (d : Dispatcher ι κ τ) : d.Fires [] d :=
  ⟨rfl, rfl, rfl, rfl, (List.append_nil _).symm⟩

theorem Dispatcher.Fires.append (h : d.Fires calls d₁) (h' : d₁.Fires more d₂) :
    d.Fires (calls ++ more) d₂ where
  interest := h'.interest.trans h.interest
  loopListeners := h'.loopListeners.trans h.loopListeners
  loopStorage := h'.loopStorage.trans h.loopStorage
  clock := h'.clock.trans h.clock
  log := by rw [h'.log, h.log, List.map_append, List.append_assoc]

end

section
variable {d : Dispatcher ι κ τ} {now : Int64} {s : Dispatch τ}
  {answer : List (TimeoutListenerWrapper τ × Bool) → TimeoutListenerWrapper τ → Bool}
  {calls : List (TimeoutListenerWrapper τ × Bool)}

theorem onTimeout_leave (call : Call τ)
    (h : timeoutRound answer now { timeoutListeners := d.timeoutListeners, calls } = .inr s) :
    s = { timeoutListeners := d.timeoutListeners, calls } ∧
      d.onTimeout call now = d.returned call := by
  unfold timeoutRound at h
  unfold Dispatcher.onTimeout
  split at h
  · rename_i htop
    cases h
    rw [show d.timeoutListeners.top? = none from htop]
    exact ⟨rfl, rfl⟩
  · rename_i wrapper htop
    split at h
    · rename_i hlater
      cases h
      rw [show d.timeoutListeners.top? = some wrapper from htop]
      exact ⟨rfl, if_pos hlater⟩
    · cases h

theorem onTimeout_next (grow : Nat → Nat) (call : Call τ)
    (h : timeoutRound answer now { timeoutListeners := d.timeoutListeners, calls } = .inl s) :
    ∃ wrapper result, ∃ d' : Dispatcher ι κ τ, s.calls = calls ++ [(wrapper, result)] ∧
      s.timeoutListeners = d'.timeoutListeners ∧ d'.completed = d.completed ∧
      d.Fires [(wrapper, result)] d' ∧
      (d.onTimeout call now).phase = .onTimeout { call with fired := call.fired ++ [wrapper] } now
        d.timeoutStorage.generation ∧
      (d.onTimeout call now).afterTimeout grow { call with fired := call.fired ++ [wrapper] } now
        d.timeoutStorage.generation result =
          d'.onTimeout { call with fired := call.fired ++ [wrapper] } now := by
  unfold timeoutRound at h
  split at h
  · cases h
  · rename_i wrapper htop
    have htop : d.timeoutListeners.top? = some wrapper := htop
    split at h
    · cases h
    · rename_i hdue
      let t : Dispatcher ι κ τ := { d with
        phase := .onTimeout { call with fired := call.fired ++ [wrapper] } now
          d.timeoutStorage.generation
        log := d.log ++ [.onTimeout wrapper] }
      have hcall : d.onTimeout call now = t := by
        rw [Dispatcher.onTimeout, htop]
        exact if_neg hdue
      rw [hcall]
      cases h
      cases hresult : answer calls wrapper with
      | true =>
        refine ⟨wrapper, true, (t.emplace grow wrapper.listener now wrapper.interval).pop, rfl, rfl,
          rfl, ⟨rfl, rfl, rfl, rfl, rfl⟩, rfl, ?_⟩
        rw [Dispatcher.afterTimeout, if_pos rfl, if_pos rfl,
          show t.timeoutListeners.top? = _ from htop]
      | false =>
        exact ⟨wrapper, false, t.pop, rfl, rfl, rfl, ⟨rfl, rfl, rfl, rfl, rfl⟩, rfl, rfl⟩

variable [DecidableEq ι] [DecidableEq κ] (fd : ι → Int) (grow : Nat → Nat) {time : Int64}

/-- By induction on the rounds: the calls and returns that follow are those of the loop. -/
theorem exec_onTimeout {n : Nat} (call : Call τ)
    (h : Loop.run (timeoutRound answer now) n { timeoutListeners := d.timeoutListeners, calls } =
      some s) :
    ∃ more, s.calls = calls ++ more ∧ ∃ d' : Dispatcher ι κ τ, d.Fires more d' ∧
      Runs.exec (step fd grow) (d.onTimeout call now) (more.map fun c => .returns c.2) =
        some (d'.returned { call with fired := call.fired ++ more.map (·.1) }) ∧
      d'.timeoutListeners = s.timeoutListeners ∧ d'.completed = d.completed := by
  induction n generalizing d call calls with
  | zero => cases h
  | succ n ih =>
    rw [Loop.run] at h
    cases hround : timeoutRound answer now { timeoutListeners := d.timeoutListeners, calls } with
    | inr s' =>
      obtain ⟨rfl, hreturned⟩ := onTimeout_leave call hround
      rw [hround] at h
      cases h
      refine ⟨[], (List.append_nil _).symm, d, .nil d, ?_, rfl, rfl⟩
      rw [hreturned, List.map_nil, List.map_nil, List.append_nil]
      rfl
    | inl t =>
      obtain ⟨wrapper, result, d₁, hcalls, hqueue, hcompleted, hfires, hphase, hafter⟩ :=
        onTimeout_next grow call hround
      obtain ⟨queue, calls'⟩ := t
      obtain rfl : calls' = calls ++ [(wrapper, result)] := hcalls
      obtain rfl : queue = d₁.timeoutListeners := hqueue
      rw [hround] at h
      obtain ⟨more, hmore, d', hfires', hrun, hqueue, hcompleted'⟩ :=
        ih (d := d₁) { call with fired := call.fired ++ [wrapper] } h
      refine ⟨(wrapper, result) :: more, ?_, d', hfires.append hfires', ?_, hqueue,
        hcompleted'.trans hcompleted⟩
      · rw [hmore, List.append_assoc]
        rfl
      · rw [List.map_cons, Runs.exec_cons]
        refine ⟨d₁.onTimeout { call with fired := call.fired ++ [wrapper] } now, ?_, ?_⟩
        · rw [step, hphase]
          exact congrArg some hafter
        · rw [hrun, List.map_cons, List.append_assoc]
          rfl

/-- When `epoll_wait` reports nothing, `run_once` calls exactly the timers that are due, in the
order of their deadlines, and returns, provided that none is due again when it is put back. -/
theorem quietCall_served (hphase : d.phase = .epollWait) (htime : d.clock ≤ time)
    (hnow : time ≤ now) (hsettles : Settles now d.timeoutListeners)
    (answer : List (TimeoutListenerWrapper τ × Bool) → TimeoutListenerWrapper τ → Bool) :
    ∃ s d', Loop.Returns (timeoutRound answer now)
        { timeoutListeners := d.timeoutListeners, calls := [] } s ∧
      Served now d.timeoutListeners s ∧
      Runs.exec (step fd grow) d (.epollWait time now [] :: s.calls.map fun c => .returns c.2) =
        some d' ∧
      d'.phase = .outside ∧ d'.timeoutListeners = s.timeoutListeners ∧
      Dispatcher.Fires { d with clock := now } s.calls d' ∧
      d'.completed = d.completed ++
        [{ time, events := 0, queue := d.timeoutListeners.entries,
           fired := s.calls.map (·.1) }] := by
  obtain ⟨s, hreturns, hserved⟩ := hsettles.served answer
  obtain ⟨n, hrun⟩ := hreturns
  let waited : Dispatcher ι κ τ := { d with clock := now }
  let call : Call τ := { time, events := 0, queue := d.timeoutListeners.entries, fired := [] }
  have hwait : step fd grow d (.epollWait time now []) = some (waited.onTimeout call now) := by
    rw [step, hphase]
    exact if_pos ⟨htime, hnow, Nat.zero_le _, List.forall_mem_nil _⟩
  obtain ⟨more, hcalls, d', hfires, hexec, hqueue, hcompleted⟩ :=
    exec_onTimeout (d := waited) fd grow call hrun
  obtain rfl : s.calls = more := hcalls
  refine ⟨s, d'.returned { call with fired := s.calls.map (·.1) }, ⟨n, hrun⟩, hserved,
    Runs.exec_cons.mpr ⟨_, hwait, hexec⟩, rfl, hqueue,
    ⟨hfires.interest, hfires.loopListeners, hfires.loopStorage, hfires.clock, hfires.log⟩, ?_⟩
  rw [Dispatcher.returned, hcompleted]

end

def armedOnce : List (Op Nat Nat Nat) := [.control (.registerTimeout 0 0 5), .runOnce]

theorem armedOnce_served : ∃ d, Runs.exec (step (fun l : Nat => (l : Int)) (2 * ·)) .start
    armedOnce = some d ∧ ∃ s d', Served 10 d.timeoutListeners s ∧
      Runs.exec (step (fun l : Nat => (l : Int)) (2 * ·)) d
        (.epollWait 10 10 [] :: s.calls.map fun c => .returns c.2) = some d' ∧
      d'.phase = .outside := by
  obtain ⟨d, hd, hphase, hclock, hqueue⟩ : ∃ d,
      Runs.exec (step (fun l : Nat => (l : Int)) (2 * ·)) .start armedOnce = some d ∧
        d.phase = .epollWait ∧ d.clock = 0 ∧
        d.timeoutListeners = PriorityQueue.empty.push (.create 0 0 5) :=
    ⟨_, rfl, rfl, rfl, rfl⟩
  have hsettles : Settles 10 d.timeoutListeners := by
    intro w hw _
    rw [hqueue, PriorityQueue.entries_push, PriorityQueue.entries_empty, Multiset.mem_cons] at hw
    obtain rfl := hw.resolve_right (Multiset.notMem_zero w)
    decide
  obtain ⟨s, d', -, hserved, hexec, houtside, -⟩ := quietCall_served
    (fun l : Nat => (l : Int)) (2 * ·) hphase (hclock ▸ by decide) (Int64.le_refl 10) hsettles
    fun _ _ => true
  exact ⟨d, hd, s, d', hserved, hexec, houtside⟩

end Flyzero.EventDispatch
