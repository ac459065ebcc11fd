import Flyzero.EventDispatch.Timeout
import Flyzero.Lib.Runs
import Mathlib.Logic.Function.Basic

/-! `event_dispatch::run_once`, and what the callbacks may do to the dispatcher meanwhile. -/
namespace Flyzero.EventDispatch

/-- The memory of a `std::vector`: iterators and references are good for one generation. -/
structure Storage where
  capacity : Nat
  generation : Nat

def Storage.insert (grow : Nat → Nat) (size : Nat) (s : Storage) : Storage :=
  if size = s.capacity then { capacity := grow size, generation := s.generation + 1 } else s

theorem Storage.generation_insert_full {size : Nat} {s : Storage} (grow : Nat → Nat)
    (h : size = s.capacity) : (s.insert grow size).generation = s.generation + 1 := by
  rw [insert, if_pos h]

theorem Storage.insert_room {size : Nat} {s : Storage} (grow : Nat → Nat)
    (h : size ≠ s.capacity) : s.insert grow size = s := if_neg h

def doubled (size : Nat) : Nat := size + max size 1

structure EpollEvent (ι : Type*) where
  events : UInt32
  listener : ι

def epollIn : UInt32 := 0x001

def epollOut : UInt32 := 0x004

def maxEvents : Nat := 64

inductive Control (ι κ τ : Type*) where
  | registerIo (listener : ι)
  | unregisterIo (listener : ι)
  | registerLoop (listener : κ)
  | unregisterLoop (listener : κ)
  | registerTimeout (listener : τ) (now interval : Int64)

/-- The calls that returned to the user, and the calls of the user's listeners. -/
inductive Entry (ι κ τ : Type*) where
  | control (c : Control ι κ τ)
  | onLoop (listener : κ)
  | onRead (listener : ι)
  | onWrite (listener : ι)
  | onTimeout (wrapper : TimeoutListenerWrapper τ)

/-- A call of `run_once` from the return of its `epoll_wait` on: when that was, with how many
events and which timers, and the timers fired since. -/
structure Call (τ : Type*) where
  time : Int64
  events : Nat
  queue : Multiset (TimeoutListenerWrapper τ)
  fired : List (TimeoutListenerWrapper τ)

/-- Where `run_once` stands. But for `epoll_wait`, code of the user is running. -/
inductive Phase (ι τ : Type*) where
  | outside
  | onLoop (generation size i : Nat)
  | epollWait
  | onRead (call : Call τ) (event : EpollEvent ι) (rest : List (EpollEvent ι))
  | onWrite (call : Call τ) (rest : List (EpollEvent ι))
  /-- In the call for the top of the queue, with a reference to it. -/
  | onTimeout (call : Call τ) (now : Int64) (generation : Nat)
  | undefined

structure Dispatcher (ι κ τ : Type*) where
  interest : Int → Option ι
  loopListeners : List κ
  loopStorage : Storage
  timeoutListeners : TimeoutListenerQueue τ
  timeoutStorage : Storage
  clock : Int64
  phase : Phase ι τ
  log : List (Entry ι κ τ)
  /-- The calls of `run_once` that returned and were not interrupted. -/
  completed : List (Call τ)

namespace Dispatcher
variable {ι κ τ : Type*}

def start : Dispatcher ι κ τ where
  interest _ := none
  loopListeners := []
  loopStorage := { capacity := 0, generation := 0 }
  timeoutListeners := .empty
  timeoutStorage := { capacity := 0, generation := 0 }
  clock := Int64.minValue
  phase := .outside
  log := []
  completed := []

/-- `none` when `epoll_ctl` fails, which changes nothing: a descriptor is listed once. -/
def registerIoListener (fd : ι → Int) (d : Dispatcher ι κ τ) (listener : ι) :
    Option (Dispatcher ι κ τ) :=
  match d.interest (fd listener) with
  | some _ => none
  | none =>
    some { d with interest := Function.update d.interest (fd listener) (some listener) }

def unregisterIoListener (fd : ι → Int) (d : Dispatcher ι κ τ) (listener : ι) :
    Option (Dispatcher ι κ τ) :=
  match d.interest (fd listener) with
  | none => none
  | some _ => some { d with interest := Function.update d.interest (fd listener) none }

def registerLoopListener [DecidableEq κ] (grow : Nat → Nat) (d : Dispatcher ι κ τ) (listener : κ) :
    Dispatcher ι κ τ :=
  if listener ∈ d.loopListeners then d
  else
    { d with
      loopListeners := d.loopListeners ++ [listener]
      loopStorage := d.loopStorage.insert grow d.loopListeners.length }

def unregisterLoopListener [DecidableEq κ] (d : Dispatcher ι κ τ) (listener : κ) :
    Dispatcher ι κ τ :=
  { d with loopListeners := d.loopListeners.erase listener }

def emplace (grow : Nat → Nat) (d : Dispatcher ι κ τ) (listener : τ) (now interval : Int64) :
    Dispatcher ι κ τ :=
  { d with
    timeoutListeners := d.timeoutListeners.push (.create listener now interval)
    timeoutStorage := d.timeoutStorage.insert grow d.timeoutListeners.cells.size }

/-- The clock does not go back. -/
def registerTimeoutListener (grow : Nat → Nat) (d : Dispatcher ι κ τ) (listener : τ)
    (now interval : Int64) : Option (Dispatcher ι κ τ) :=
  if d.clock ≤ now then some { d.emplace grow listener now interval with clock := now } else none

def control [DecidableEq κ] (fd : ι → Int) (grow : Nat → Nat) (d : Dispatcher ι κ τ)
    (c : Control ι κ τ) : Option (Dispatcher ι κ τ) :=
  let result := match c with
    | .registerIo listener => d.registerIoListener fd listener
    | .unregisterIo listener => d.unregisterIoListener fd listener
    | .registerLoop listener => some (d.registerLoopListener grow listener)
    | .unregisterLoop listener => some (d.unregisterLoopListener listener)
    | .registerTimeout listener now interval => d.registerTimeoutListener grow listener now interval
  result.map fun d => { d with log := d.log ++ [.control c] }

/-- The loop of `on_loop` over a vector that began as `generation` with `size` elements; it reads
position `i`, or leaves for `epoll_wait`. -/
def onLoop (d : Dispatcher ι κ τ) (generation size i : Nat) : Dispatcher ι κ τ :=
  if i = size then { d with phase := .epollWait }
  else if d.loopStorage.generation = generation then
    match d.loopListeners[i]? with
    | some listener =>
      { d with phase := .onLoop generation size i, log := d.log ++ [.onLoop listener] }
    | none => { d with phase := .undefined }
  else { d with phase := .undefined }

def runOnce (d : Dispatcher ι κ τ) : Dispatcher ι κ τ :=
  d.onLoop d.loopStorage.generation d.loopListeners.length 0

def returned (d : Dispatcher ι κ τ) (call : Call τ) : Dispatcher ι κ τ :=
  { d with phase := .outside, completed := d.completed ++ [call] }

def onEvents (d : Dispatcher ι κ τ) (call : Call τ) : List (EpollEvent ι) → Dispatcher ι κ τ
  | [] => d.returned call
  | event :: rest =>
    if event.events &&& epollIn ≠ 0 then
      { d with phase := .onRead call event rest, log := d.log ++ [.onRead event.listener] }
    else if event.events &&& epollOut ≠ 0 then
      { d with phase := .onWrite call rest, log := d.log ++ [.onWrite event.listener] }
    else d.onEvents call rest

def afterRead (d : Dispatcher ι κ τ) (call : Call τ) (event : EpollEvent ι)
    (rest : List (EpollEvent ι)) : Dispatcher ι κ τ :=
  if event.events &&& epollOut ≠ 0 then
    { d with phase := .onWrite call rest, log := d.log ++ [.onWrite event.listener] }
  else d.onEvents call rest

def onTimeout (d : Dispatcher ι κ τ) (call : Call τ) (now : Int64) : Dispatcher ι κ τ :=
  match d.timeoutListeners.top? with
  | none => d.returned call
  | some wrapper =>
    if wrapper.deadline > now then d.returned call
    else
      { d with
        phase := .onTimeout { call with fired := call.fired ++ [wrapper] } now
          d.timeoutStorage.generation
        log := d.log ++ [.onTimeout wrapper] }

def pop (d : Dispatcher ι κ τ) : Dispatcher ι κ τ :=
  { d with timeoutListeners := d.timeoutListeners.pop }

/-- A round of `on_timeout` goes on when the listener has returned `result`. The reference to the
top is to the first cell of the vector, whatever is there now. -/
def afterTimeout (grow : Nat → Nat) (d : Dispatcher ι κ τ) (call : Call τ) (now : Int64)
    (generation : Nat) (result : Bool) : Dispatcher ι κ τ :=
  if result then
    if d.timeoutStorage.generation = generation then
      match d.timeoutListeners.top? with
      | some wrapper =>
        (d.emplace grow wrapper.listener now wrapper.interval).pop.onTimeout call now
      | none => { d with phase := .undefined }
    else { d with phase := .undefined }
  else d.pop.onTimeout call now

/-- `epoll_wait` has returned with `events`; `now` is what the clock shows a little later. -/
def afterWait (d : Dispatcher ι κ τ) (time now : Int64) (events : List (EpollEvent ι)) :
    Dispatcher ι κ τ :=
  let call : Call τ :=
    { time, events := events.length, queue := d.timeoutListeners.entries, fired := [] }
  if events.length = 0 then { d with clock := now }.onTimeout call now
  else { d with clock := time }.onEvents call events

inductive LoopStop (d : Dispatcher ι κ τ) : Dispatcher ι κ τ → Prop
  | epollWait : LoopStop d { d with phase := .epollWait }
  | onLoop {generation size i listener} (h : listener ∈ d.loopListeners) :
    LoopStop d { d with phase := .onLoop generation size i, log := d.log ++ [.onLoop listener] }
  | undefined : LoopStop d { d with phase := .undefined }

inductive BatchStop (d : Dispatcher ι κ τ) (call : Call τ) : Dispatcher ι κ τ → Prop
  | returned : BatchStop d call (d.returned call)
  | onRead {event rest} : BatchStop d call
    { d with phase := .onRead call event rest, log := d.log ++ [.onRead event.listener] }
  | onWrite {listener rest} : BatchStop d call
    { d with phase := .onWrite call rest, log := d.log ++ [.onWrite listener] }

inductive TimeoutStop (d : Dispatcher ι κ τ) (call : Call τ) (now : Int64) :
    Dispatcher ι κ τ → Prop
  | returned (h : ∀ w ∈ d.timeoutListeners.entries, ¬ Due now w) :
    TimeoutStop d call now (d.returned call)
  | onTimeout {wrapper} (htop : d.timeoutListeners.top? = some wrapper) (hdue : Due now wrapper) :
    TimeoutStop d call now { d with
      phase := .onTimeout { call with fired := call.fired ++ [wrapper] } now
        d.timeoutStorage.generation
      log := d.log ++ [.onTimeout wrapper] }

inductive Resumes (d : Dispatcher ι κ τ) (call : Call τ) (now : Int64) : Dispatcher ι κ τ → Prop
  | undefined : Resumes d call now { d with phase := .undefined }
  | popped : Resumes d call now (d.pop.onTimeout call now)
  | rearmed {grow listener interval} :
    Resumes d call now ((d.emplace grow listener now interval).pop.onTimeout call now)

theorem onLoop_stop (d : Dispatcher ι κ τ) (generation size i : Nat) :
    LoopStop d (d.onLoop generation size i) := by
  unfold onLoop
  split
  · exact .epollWait
  · split
    · split
      · rename_i hlistener
        exact .onLoop (List.mem_of_getElem? hlistener)
      · exact .undefined
    · exact .undefined

theorem onEvents_stop (d : Dispatcher ι κ τ) (call : Call τ) (events : List (EpollEvent ι)) :
    BatchStop d call (d.onEvents call events) := by
  induction events with
  | nil => exact .returned
  | cons event rest ih =>
    rw [onEvents]
    split
    · exact .onRead
    · split
      · exact .onWrite
      · exact ih

theorem afterRead_stop (d : Dispatcher ι κ τ) (call : Call τ) (event : EpollEvent ι)
    (rest : List (EpollEvent ι)) : BatchStop d call (d.afterRead call event rest) := by
  unfold afterRead
  split
  · exact .onWrite
  · exact onEvents_stop d call rest

theorem onTimeout_stop (d : Dispatcher ι κ τ) (call : Call τ) (now : Int64) :
    TimeoutStop d call now (d.onTimeout call now) := by
  unfold onTimeout
  split
  · rename_i htop
    refine .returned fun w hw => ?_
    rw [PriorityQueue.top?_eq_none.mp htop] at hw
    exact absurd hw (Multiset.notMem_zero w)
  · rename_i wrapper htop
    split
    · rename_i hlater
      exact .returned (not_due_of_later htop hlater)
    · rename_i hdue
      exact .onTimeout htop (Int64.not_lt.mp hdue)

theorem afterTimeout_resumes (grow : Nat → Nat) (d : Dispatcher ι κ τ) (call : Call τ)
    (now : Int64) (generation : Nat) (result : Bool) :
    Resumes d call now (d.afterTimeout grow call now generation result) := by
  unfold afterTimeout
  split
  · split
    · split
      · exact .rearmed
      · exact .undefined
    · exact .undefined
  · exact .popped

end Dispatcher

inductive Op (ι κ τ : Type*) where
  | control (c : Control ι κ τ)
  /-- The last descriptor of an open file is closed, and the kernel takes it off the interest list;
  while a copy of the descriptor is open, the entry stays. -/
  | closed (fd : Int)
  | runOnce
  | epollWait (time now : Int64) (events : List (EpollEvent ι))
  | interrupted
  /-- An exception leaves `run_once`, from a callback or because `epoll_wait` failed. -/
  | throws
  | returns (result : Bool)

section
variable {ι κ τ : Type*} [DecidableEq ι] [DecidableEq κ] (fd : ι → Int) (grow : Nat → Nat)

def step (d : Dispatcher ι κ τ) : Op ι κ τ → Option (Dispatcher ι κ τ)
  | .control c =>
    match d.phase with
    | .epollWait | .undefined => none
    | _ => d.control fd grow c
  | .closed n => some { d with interest := Function.update d.interest n none }
  | .runOnce =>
    match d.phase with
    | .outside => some d.runOnce
    | _ => none
  | .epollWait time now events =>
    match d.phase with
    | .epollWait =>
      if d.clock ≤ time ∧ time ≤ now ∧ events.length ≤ maxEvents ∧
          ∀ event ∈ events, d.interest (fd event.listener) = some event.listener then
        some (d.afterWait time now events)
      else none
    | _ => none
  | .interrupted =>
    match d.phase with
    | .epollWait => some { d with phase := .outside }
    | _ => none
  | .throws =>
    match d.phase with
    | .outside | .undefined => none
    | _ => some { d with phase := .outside }
  | .returns result =>
    match d.phase with
    | .onLoop generation size i => some (d.onLoop generation size (i + 1))
    | .onRead call event rest => some (d.afterRead call event rest)
    | .onWrite call rest => some (d.onEvents call rest)
    | .onTimeout call now generation => some (d.afterTimeout grow call now generation result)
    | .outside | .epollWait | .undefined => none

omit [DecidableEq ι] in
inductive Controls (d : Dispatcher ι κ τ) : Control ι κ τ → Dispatcher ι κ τ → Prop
  | registerIo {l} : Controls d (.registerIo l)
    { d with interest := Function.update d.interest (fd l) (some l) }
  | unregisterIo {l} : Controls d (.unregisterIo l)
    { d with interest := Function.update d.interest (fd l) none }
  | registerLoop {l} : Controls d (.registerLoop l) (d.registerLoopListener grow l)
  | unregisterLoop {l} : Controls d (.unregisterLoop l) (d.unregisterLoopListener l)
  | registerTimeout {l now interval} (hnow : d.clock ≤ now) :
    Controls d (.registerTimeout l now interval)
      { d.emplace grow l now interval with clock := now }

inductive Step (d : Dispatcher ι κ τ) : Op ι κ τ → Dispatcher ι κ τ → Prop
  | control {c d'} (h : d.control fd grow c = some d') : Step d (.control c) d'
  | closed {n} : Step d (.closed n) { d with interest := Function.update d.interest n none }
  | runOnce (hphase : d.phase = .outside) : Step d .runOnce d.runOnce
  | epollWait {time now events} (hphase : d.phase = .epollWait) (htime : d.clock ≤ time)
    (hnow : time ≤ now)
    (hlisted : ∀ event ∈ events, d.interest (fd event.listener) = some event.listener) :
    Step d (.epollWait time now events) (d.afterWait time now events)
  | interrupted (hphase : d.phase = .epollWait) :
    Step d .interrupted { d with phase := .outside }
  | throws : Step d .throws { d with phase := .outside }
  | onLoop {generation size i result} (hphase : d.phase = .onLoop generation size i) :
    Step d (.returns result) (d.onLoop generation size (i + 1))
  | onRead {call event rest result} (hphase : d.phase = .onRead call event rest) :
    Step d (.returns result) (d.afterRead call event rest)
  | onWrite {call rest result} (hphase : d.phase = .onWrite call rest) :
    Step d (.returns result) (d.onEvents call rest)
  | onTimeout {call now generation result} (hphase : d.phase = .onTimeout call now generation) :
    Step d (.returns result) (d.afterTimeout grow call now generation result)

variable {fd grow}

omit [DecidableEq ι] in
theorem control_cases {d d' : Dispatcher ι κ τ} {c : Control ι κ τ}
    (h : d.control fd grow c = some d') :
    ∃ d₁, Controls fd grow d c d₁ ∧ d' = { d₁ with log := d₁.log ++ [.control c] } := by
  obtain ⟨d₁, hd, rfl⟩ := Option.map_eq_some_iff.mp h
  refine ⟨d₁, ?_, rfl⟩
  cases c with
  | registerIo l =>
    dsimp only [Dispatcher.registerIoListener] at hd
    split at hd
    · cases hd
    · cases hd
      exact .registerIo
  | unregisterIo l =>
    dsimp only [Dispatcher.unregisterIoListener] at hd
    split at hd
    · cases hd
    · cases hd
      exact .unregisterIo
  | registerLoop l =>
    cases hd
    exact .registerLoop
  | unregisterLoop l =>
    cases hd
    exact .unregisterLoop
  | registerTimeout l now interval =>
    obtain ⟨hnow, hd⟩ := Option.ite_none_right_eq_some.mp hd
    cases hd
    exact .registerTimeout hnow

omit [DecidableEq ι] in
theorem control_phase {d d' : Dispatcher ι κ τ} {c : Control ι κ τ}
    (h : d.control fd grow c = some d') : d'.phase = d.phase := by
  obtain ⟨d₁, hd, rfl⟩ := control_cases h
  cases hd with
  | registerIo | unregisterIo | unregisterLoop | registerTimeout => rfl
  | registerLoop =>
    dsimp only [Dispatcher.registerLoopListener]
    split
    · rfl
    · rfl

theorem step_cases {d d' : Dispatcher ι κ τ} {op : Op ι κ τ} (h : step fd grow d op = some d') :
    Step fd grow d op d' := by
  cases op with
  | control c =>
    rw [step] at h
    split at h
    · cases h
    · cases h
    · exact .control h
  | closed n =>
    cases h
    exact .closed
  | runOnce =>
    rw [step] at h
    split at h
    · rename_i hphase
      cases h
      exact .runOnce hphase
    · cases h
  | epollWait time now events =>
    rw [step] at h
    split at h
    · rename_i hphase
      obtain ⟨⟨htime, hnow, -, hlisted⟩, hd⟩ := Option.ite_none_right_eq_some.mp h
      cases hd
      exact .epollWait hphase htime hnow hlisted
    · cases h
  | interrupted =>
    rw [step] at h
    split at h
    · rename_i hphase
      cases h
      exact .interrupted hphase
    · cases h
  | throws =>
    rw [step] at h
    split at h
    · cases h
    · cases h
    · cases h
      exact .throws
  | returns result =>
    rw [step] at h
    split at h
    · cases h
      exact .onLoop ‹_›
    · cases h
      exact .onRead ‹_›
    · cases h
      exact .onWrite ‹_›
    · cases h
      exact .onTimeout ‹_›
    all_goals cases h

end

end Flyzero.EventDispatch
