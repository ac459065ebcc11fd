import Flyzero.Lib.Runs
import Mathlib.Data.List.Basic

/-! `task_queue_thread` over an atomic bounded queue: pushes against the worker's routine. -/
namespace Flyzero.TaskQueueThread.Wakeup
variable {τ : Type*}

inductive PushPc (τ : Type*) where
  | idle
  | full (t : τ)
  | enqueue (t : τ)
  | size (t : τ)
  | post (t : τ)

inductive WorkPc where
  | empty
  | wait
  | run
  | pop (fin : Bool)
  | count (fin : Bool)
  | exit (fin : Bool)
  | done

/-- The queue, the semaphore and both threads, with the tasks enqueued, the tasks run with what
they returned, and the pushes finished with what they returned. -/
structure Machine (τ : Type*) where
  capacity : Nat
  queue : List τ
  sema : Nat
  pusher : PushPc τ
  worker : WorkPc
  processedTaskNum : Nat
  enqueued : List τ
  ran : List (τ × Bool)
  returned : List (τ × Bool)

def start (capacity : Nat) : Machine τ :=
  { capacity, queue := [], sema := 0, pusher := .idle, worker := .empty, processedTaskNum := 0,
    enqueued := [], ran := [], returned := [] }

/-- A thread takes a step; a task that runs in it returns `fin`. -/
inductive Event (τ : Type*) where
  | call (t : τ)
  | pusher
  | worker (fin : Bool)

def Machine.return (m : Machine τ) (t : τ) (res : Bool) : Machine τ :=
  { m with pusher := .idle, returned := m.returned ++ [(t, res)] }

def pushStep (m : Machine τ) : Option (Machine τ) :=
  match m.pusher with
  | .idle => none
  | .full t =>
    if m.queue.length = m.capacity then some (m.return t false)
    else some { m with pusher := .enqueue t }
  | .enqueue t =>
    -- the result of `queue_.push` is not looked at
    if m.queue.length = m.capacity then some { m with pusher := .size t }
    else some { m with
      queue := m.queue ++ [t], enqueued := m.enqueued ++ [t], pusher := .size t }
  | .size t =>
    if m.queue.length = 1 then some { m with pusher := .post t } else some (m.return t true)
  | .post t => some ({ m with sema := m.sema + 1 }.return t true)

def workStep (m : Machine τ) (fin : Bool) : Option (Machine τ) :=
  match m.worker with
  | .empty => some { m with worker := if m.queue = [] then .wait else .run }
  | .wait => if m.sema = 0 then none else some { m with sema := m.sema - 1, worker := .empty }
  | .run =>
    match m.queue with
    | [] => none
    | t :: _ => some { m with ran := m.ran ++ [(t, fin)], worker := .pop fin }
  | .pop fin => some { m with queue := m.queue.tail, worker := .count fin }
  | .count fin =>
    some { m with processedTaskNum := m.processedTaskNum + 1, worker := .exit fin }
  | .exit fin => some { m with worker := if fin then .empty else .done }
  | .done => none

def step (m : Machine τ) : Event τ → Option (Machine τ)
  | .call t =>
    match m.pusher with
    | .idle => some { m with pusher := .full t }
    | _ => none
  | .pusher => pushStep m
  | .worker fin => workStep m fin

def PushPc.inFlight : PushPc τ → List τ
  | .size t | .post t => [t]
  | _ => []

/-- The tasks not run yet: the head of the queue is run before it is popped. -/
def Machine.waiting (m : Machine τ) : List τ :=
  match m.worker with
  | .pop _ => m.queue.tail
  | _ => m.queue

def Machine.accepted (m : Machine τ) : List τ := (m.returned.filter (·.2)).map (·.1)

def ResultsOk (worker : WorkPc) (results : List Bool) : Prop :=
  match worker with
  | .empty | .wait | .run => ∀ b ∈ results, b = true
  | .pop fin | .count fin | .exit fin => ∃ bs, results = bs ++ [fin] ∧ ∀ b ∈ bs, b = true
  | .done => ∃ bs, results = bs ++ [false] ∧ ∀ b ∈ bs, b = true

/-- A worker about to wait beside a non-empty queue has a post, or will get one. -/
def Awake (m : Machine τ) : Prop :=
  m.worker = .wait → m.queue ≠ [] →
    0 < m.sema ∨ (∃ t, m.pusher = .size t ∧ m.queue.length = 1) ∨ ∃ t, m.pusher = .post t

structure Inv (m : Machine τ) : Prop where
  order : m.enqueued = m.ran.map (·.1) ++ m.waiting
  results : ResultsOk m.worker (m.ran.map (·.2))
  head : m.worker = .run ∨ (∃ fin, m.worker = .pop fin) → m.queue ≠ []
  bounded : m.queue.length ≤ m.capacity
  space : ∀ t, m.pusher = .enqueue t → m.queue.length < m.capacity
  returns : m.enqueued = m.accepted ++ m.pusher.inFlight
  awake : Awake m

theorem start_inv (capacity : Nat) : Inv (start capacity : Machine τ) where
  order := rfl
  results := by simp [start, ResultsOk]
  head := by simp [start]
  bounded := Nat.zero_le _
  space := by simp [start]
  returns := rfl
  awake := by simp [start, Awake]

theorem accepted_return (m : Machine τ) (t : τ) (res : Bool) :
    (m.return t res).accepted = m.accepted ++ if res then [t] else [] := by
  cases res <;> simp [Machine.return, Machine.accepted]

theorem waiting_append (m : Machine τ) (t : τ) (pc : PushPc τ)
    (hhead : m.worker = .run ∨ (∃ fin, m.worker = .pop fin) → m.queue ≠ []) :
    ({ m with queue := m.queue ++ [t], enqueued := m.enqueued ++ [t], pusher := pc }
      : Machine τ).waiting = m.waiting ++ [t] := by
  unfold Machine.waiting
  dsimp only
  split
  · rename_i fin hw
    exact List.tail_append_of_ne_nil (hhead (.inr ⟨fin, hw⟩))
  · rfl

theorem pushStep_inv {m m' : Machine τ} (hstep : pushStep m = some m') (h : Inv m) : Inv m' := by
  unfold pushStep at hstep
  split at hstep
  · cases hstep
  · rename_i t hpc
    split at hstep <;> cases hstep
    · -- full: the push returns false and enqueues nothing
      refine ⟨h.order, h.results, h.head, h.bounded, nofun, ?_, ?_⟩
      · rw [accepted_return]
        simpa [Machine.return, PushPc.inFlight, hpc] using h.returns
      · intro hw hq
        simpa [hpc, Machine.return] using h.awake hw hq
    · rename_i hfull
      have hlt := Nat.lt_of_le_of_ne h.bounded hfull
      refine ⟨h.order, h.results, h.head, h.bounded, fun _ _ => hlt, ?_, ?_⟩
      · simpa [PushPc.inFlight, hpc, Machine.accepted] using h.returns
      · intro hw hq
        simpa [hpc] using h.awake hw hq
  · rename_i t hpc
    have hlt := h.space t hpc
    rw [if_neg (Nat.ne_of_lt hlt)] at hstep
    cases hstep
    refine ⟨?_, h.results, ?_, ?_, nofun, ?_, ?_⟩
    · rw [waiting_append m t _ h.head, ← List.append_assoc, ← h.order]
    · simp
    · rw [List.length_append]
      exact hlt
    · simpa [PushPc.inFlight, hpc, Machine.accepted] using h.returns
    · intro hw _
      rcases Classical.em (m.queue = []) with hq | hq
      · exact .inr (.inl ⟨t, rfl, by simp [hq]⟩)
      · left
        simpa [hpc] using h.awake hw hq
  · rename_i t hpc
    split at hstep <;> cases hstep
    · refine ⟨h.order, h.results, h.head, h.bounded, nofun, ?_, fun _ _ => .inr (.inr ⟨t, rfl⟩)⟩
      simpa [PushPc.inFlight, hpc, Machine.accepted] using h.returns
    · rename_i hone
      refine ⟨h.order, h.results, h.head, h.bounded, nofun, ?_, ?_⟩
      · rw [accepted_return]
        simpa [Machine.return, PushPc.inFlight, hpc] using h.returns
      · intro hw hq
        simpa [hpc, Machine.return, hone] using h.awake hw hq
  · rename_i t hpc
    cases hstep
    refine ⟨h.order, h.results, h.head, h.bounded, nofun, ?_, fun _ _ => .inl (Nat.succ_pos _)⟩
    rw [accepted_return]
    simpa [Machine.return, PushPc.inFlight, hpc, Machine.accepted] using h.returns

theorem workStep_inv {m m' : Machine τ} {fin : Bool} (hstep : workStep m fin = some m')
    (h : Inv m) : Inv m' := by
  have horder := h.order
  have hresults := h.results
  unfold workStep at hstep
  split at hstep
  · rename_i hpc
    cases hstep
    simp only [Machine.waiting, hpc] at horder
    simp only [ResultsOk, hpc] at hresults
    by_cases hq : m.queue = []
    · simp only [if_pos hq]
      exact ⟨horder, hresults, by simp, h.bounded, h.space, h.returns, fun _ hne => absurd hq hne⟩
    · simp only [if_neg hq]
      exact ⟨horder, hresults, fun _ => hq, h.bounded, h.space, h.returns, nofun⟩
  · rename_i hpc
    split at hstep <;> cases hstep
    simp only [Machine.waiting, hpc] at horder
    simp only [ResultsOk, hpc] at hresults
    exact ⟨horder, hresults, by simp, h.bounded, h.space, h.returns, nofun⟩
  · rename_i hpc
    split at hstep <;> cases hstep
    rename_i t rest hq
    simp only [Machine.waiting, hpc] at horder
    simp only [ResultsOk, hpc] at hresults
    refine ⟨?_, ⟨_, List.map_append, hresults⟩, fun _ => by simp [hq], h.bounded, h.space,
      h.returns, nofun⟩
    simp [Machine.waiting, horder, hq]
  · rename_i fin' hpc
    cases hstep
    simp only [Machine.waiting, hpc] at horder
    simp only [ResultsOk, hpc] at hresults
    have htail : m.queue.tail.length ≤ m.queue.length := by simp
    exact ⟨horder, hresults, by simp, Nat.le_trans htail h.bounded,
      fun t ht => Nat.lt_of_le_of_lt htail (h.space t ht), h.returns, nofun⟩
  · rename_i fin' hpc
    cases hstep
    simp only [Machine.waiting, hpc] at horder
    simp only [ResultsOk, hpc] at hresults
    exact ⟨horder, hresults, by simp, h.bounded, h.space, h.returns, nofun⟩
  · rename_i fin' hpc
    cases hstep
    simp only [Machine.waiting, hpc] at horder
    simp only [ResultsOk, hpc] at hresults
    obtain ⟨bs, hbs, htrue⟩ := hresults
    cases fin' with
    | false => exact ⟨horder, ⟨bs, hbs, htrue⟩, by simp, h.bounded, h.space, h.returns, nofun⟩
    | true =>
      refine ⟨horder, ?_, by simp, h.bounded, h.space, h.returns, nofun⟩
      simp only [ResultsOk, if_true, hbs, List.mem_append, List.mem_singleton]
      rintro b (hb | hb)
      · exact htrue b hb
      · exact hb
  · cases hstep

theorem step_inv (m : Machine τ) (e : Event τ) (m' : Machine τ) (hstep : step m e = some m')
    (h : Inv m) : Inv m' := by
  cases e with
  | call t =>
    simp only [step] at hstep
    split at hstep <;> cases hstep
    rename_i hpc
    refine ⟨h.order, h.results, h.head, h.bounded, nofun, ?_, ?_⟩
    · simpa [PushPc.inFlight, hpc, Machine.accepted] using h.returns
    · intro hw hq
      simpa [hpc] using h.awake hw hq
  | pusher => exact pushStep_inv hstep h
  | worker fin => exact workStep_inv hstep h

/-- What a reachable state shows of the hand-over of tasks. -/
structure Served (m : Machine τ) : Prop where
  /-- The worker never sleeps beside work once the pushes are over. -/
  awake : ¬ (m.worker = .wait ∧ m.sema = 0 ∧ m.pusher = .idle ∧ m.queue ≠ [])
  prefix_ : m.ran.map (·.1) <+: m.enqueued
  /-- Nothing is run after a task that returned false. -/
  stops : ∀ results fin, m.ran.map (·.2) = results ++ [fin] → ∀ b ∈ results, b = true
  /-- The tasks enqueued are those of the pushes that return true, in their order. -/
  returns : m.enqueued = m.accepted ++ m.pusher.inFlight

theorem ResultsOk.stops {worker : WorkPc} {results : List Bool} {fin : Bool}
    (h : ResultsOk worker (results ++ [fin])) : ∀ b ∈ results, b = true := by
  cases worker with
  | empty | wait | run => exact fun b hb => h b (List.mem_append_left _ hb)
  | pop _ | count _ | exit _ | done =>
    obtain ⟨bs, hbs, htrue⟩ := h
    exact (List.append_inj' hbs rfl).1 ▸ htrue

theorem Inv.served {m : Machine τ} (h : Inv m) : Served m := by
  refine ⟨?_, ⟨_, h.order.symm⟩, ?_, h.returns⟩
  · rintro ⟨hw, hsema, hidle, hq⟩
    rcases h.awake hw hq with hpos | ⟨t, hpc, -⟩ | ⟨t, hpc⟩
    · omega
    · rw [hidle] at hpc
      cases hpc
    · rw [hidle] at hpc
      cases hpc
  · intro results fin hran
    exact (hran ▸ h.results).stops

/-- Every interleaving of serialised pushes with the worker loses no wake-up and no task. -/
theorem reachable_served {capacity : Nat} {m : Machine τ}
    (h : Runs.Reachable step (start capacity) m) : Served m :=
  (h.invariant (start_inv capacity) step_inv).served

def missedPost : List (Event Nat) :=
  [.call 1, .pusher, .pusher, .worker true, .worker true, .worker true, .pusher, .worker true,
    .worker true, .worker true, .call 2, .pusher, .pusher, .pusher, .pusher, .worker false,
    .worker false, .worker false]

theorem missedPost_served : ∃ m : Machine Nat, Runs.exec step (start 2) missedPost = some m ∧
    m.ran = [(1, true), (2, false)] ∧ Served m := by
  obtain ⟨m, hm, hran⟩ : ∃ m : Machine Nat, Runs.exec step (start 2) missedPost = some m ∧
      m.ran = [(1, true), (2, false)] := ⟨_, rfl, rfl⟩
  exact ⟨m, hm, hran, reachable_served ⟨missedPost, hm⟩⟩

end Flyzero.TaskQueueThread.Wakeup
