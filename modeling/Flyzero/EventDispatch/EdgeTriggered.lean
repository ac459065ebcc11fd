import Flyzero.EventDispatch.Dispatcher
import Mathlib.Data.Finset.Basic
import Mathlib.Data.Finset.SDiff

/-! `EPOLLET`: which ready descriptors `run_once` will still hear of. -/
namespace Flyzero.EventDispatch
variable {ι κ τ : Type*}

inductive Ready where
  | read | write
  deriving DecidableEq

def epollBits (events : Finset Ready) : UInt32 :=
  (if .read ∈ events then epollIn else 0) ||| if .write ∈ events then epollOut else 0

/-- The kernel's side of `epoll_fd_`: the events a descriptor was added for, those that a poll of
it answers, and the descriptors that `epoll_wait` is going to poll. -/
structure Epoll where
  events : Int → Finset Ready
  polled : Int → Finset Ready
  readyList : Finset Int

namespace Epoll

/-- `EPOLL_CTL_ADD` polls the descriptor at once. -/
def add (e : Epoll) (n : Int) (events : Finset Ready) : Epoll :=
  { e with
    events := Function.update e.events n events
    readyList :=
      if e.polled n ∩ events ≠ ∅ then insert n e.readyList else e.readyList.erase n }

/-- `EPOLL_CTL_DEL`, or the descriptor is closed. -/
def forget (e : Epoll) (n : Int) : Epoll := { e with readyList := e.readyList.erase n }

/-- Data or room for data arrives, which is an edge even if there was some before. -/
def wake (e : Epoll) (n : Int) (listed : Bool) (event : Ready) : Epoll :=
  { e with
    polled := Function.update e.polled n (insert event (e.polled n))
    readyList := if listed ∧ event ∈ e.events n then insert n e.readyList else e.readyList }

/-- Somebody has read or written until `EAGAIN`. -/
def drain (e : Epoll) (n : Int) (event : Ready) : Epoll :=
  { e with polled := Function.update e.polled n ((e.polled n).erase event) }

end Epoll

structure Reactor (ι κ τ : Type*) where
  dispatcher : Dispatcher ι κ τ
  epoll : Epoll

inductive Move (ι κ τ : Type*) where
  | registerIo (listener : ι) (events : Finset Ready)
  | epollWait (time now : Int64) (fds : List Int)
  | wakes (n : Int) (event : Ready)
  | drains (n : Int) (event : Ready)
  | other (op : Op ι κ τ)

namespace Reactor

def start : Reactor ι κ τ where
  dispatcher := .start
  epoll := { events := fun _ => ∅, polled := fun _ => ∅, readyList := ∅ }

/-- The event of a descriptor on the ready list, unless a poll of it answers that there is none. -/
def report (r : Reactor ι κ τ) (n : Int) : Option (EpollEvent ι) :=
  let events := r.epoll.events n ∩ r.epoll.polled n
  if events = ∅ then none
  else (r.dispatcher.interest n).map fun listener => { events := epollBits events, listener }

section
variable [DecidableEq ι] [DecidableEq κ] (fd : ι → Int) (grow : Nat → Nat)

/-- `epoll_wait` takes descriptors off the ready list: edges are told once. -/
def step (r : Reactor ι κ τ) : Move ι κ τ → Option (Reactor ι κ τ)
  | .registerIo listener events =>
    (EventDispatch.step fd grow r.dispatcher (.control (.registerIo listener))).map fun d =>
      { dispatcher := d, epoll := r.epoll.add (fd listener) events }
  | .epollWait time now fds =>
    if fds.Nodup ∧ ∀ n ∈ fds, n ∈ r.epoll.readyList then
      (EventDispatch.step fd grow r.dispatcher
        (.epollWait time now (fds.filterMap r.report))).map fun d =>
        { dispatcher := d
          epoll := { r.epoll with readyList := r.epoll.readyList \ fds.toFinset } }
    else none
  | .wakes n event =>
    some { r with epoll := r.epoll.wake n (r.dispatcher.interest n).isSome event }
  | .drains n event => some { r with epoll := r.epoll.drain n event }
  | .other op =>
    match op with
    | .control (.registerIo _) | .epollWait _ _ _ => none
    | .control (.unregisterIo listener) =>
      (EventDispatch.step fd grow r.dispatcher op).map fun d =>
        { dispatcher := d, epoll := r.epoll.forget (fd listener) }
    | .closed n =>
      (EventDispatch.step fd grow r.dispatcher op).map fun d =>
        { dispatcher := d, epoll := r.epoll.forget n }
    | _ => (EventDispatch.step fd grow r.dispatcher op).map fun d => { r with dispatcher := d }

end

end Reactor

/-! The calls that a batch leads to, by listener and event. -/

def EpollEvent.calls (event : EpollEvent ι) : List (ι × Ready) :=
  (if event.events &&& epollIn ≠ 0 then [(event.listener, .read)] else []) ++
    if event.events &&& epollOut ≠ 0 then [(event.listener, .write)] else []

def Phase.ahead : Phase ι τ → List (ι × Ready)
  | .onRead _ event rest =>
    (if event.events &&& epollOut ≠ 0 then [(event.listener, .write)] else []) ++
      rest.flatMap EpollEvent.calls
  | .onWrite _ rest => rest.flatMap EpollEvent.calls
  | _ => []

def lastWrite (log : List (Entry ι κ τ)) : Option ι :=
  log.reverse.findSome? fun
    | .onWrite listener => some listener
    | _ => none

namespace Dispatcher

def running (d : Dispatcher ι κ τ) : Option (ι × Ready) :=
  match d.phase with
  | .onRead _ event _ => some (event.listener, .read)
  | .onWrite _ _ => (lastWrite d.log).map (·, .write)
  | _ => none

def calls (d : Dispatcher ι κ τ) : List (ι × Ready) := d.running.toList ++ d.phase.ahead

end Dispatcher

/-- The listener is registered for the event, there is something, and no edge is going to tell. -/
def Reactor.Unlisted (r : Reactor ι κ τ) (call : ι × Ready) : Prop :=
  ∃ n, r.dispatcher.interest n = some call.1 ∧ call.2 ∈ r.epoll.events n ∧
    call.2 ∈ r.epoll.polled n ∧ n ∉ r.epoll.readyList

/-- Who is not told of something ready is being called for it, or will be by this batch. -/
def Reactor.Attended (r : Reactor ι κ τ) : Prop :=
  ∀ call, r.Unlisted call → call ∈ r.dispatcher.calls

def Reactor.Hears (r : Reactor ι κ τ) (call : ι × Ready) : Prop :=
  r.Unlisted call → call ∈ r.dispatcher.calls

/-- The calls of the batch that a step ends: the running one when it returns, and the whole batch
when an exception leaves `run_once`. -/
def Reactor.ended (r : Reactor ι κ τ) : Move ι κ τ → List (ι × Ready)
  | .other (.returns _) => r.dispatcher.running.toList
  | .other .throws => r.dispatcher.calls
  | _ => []

/-- A call ends only when its listener has drained what it was called for. -/
def Reactor.Drained (r : Reactor ι κ τ) (move : Move ι κ τ) : Prop :=
  ∀ call ∈ r.ended move, ¬ r.Unlisted call

section
variable {events : Finset Ready}

theorem epollBits_in : epollBits events &&& epollIn ≠ 0 ↔ .read ∈ events := by
  by_cases hread : Ready.read ∈ events <;> by_cases hwrite : Ready.write ∈ events <;>
    simp only [epollBits, hread, hwrite, if_true, if_false] <;> decide

theorem epollBits_out : epollBits events &&& epollOut ≠ 0 ↔ .write ∈ events := by
  by_cases hread : Ready.read ∈ events <;> by_cases hwrite : Ready.write ∈ events <;>
    simp only [epollBits, hread, hwrite, if_true, if_false] <;> decide

variable {event : EpollEvent ι} {call : ι × Ready}

theorem EpollEvent.mem_calls : call ∈ event.calls ↔ call.1 = event.listener ∧
    (call.2 = .read ∧ event.events &&& epollIn ≠ 0 ∨
      call.2 = .write ∧ event.events &&& epollOut ≠ 0) := by
  obtain ⟨l, ready⟩ := call
  simp only [EpollEvent.calls, List.mem_append]
  split <;> split <;> simp_all [and_or_left]

theorem EpollEvent.nodup_calls (event : EpollEvent ι) : event.calls.Nodup := by
  unfold EpollEvent.calls
  split <;> split <;> simp

end

section
variable {d d' : Dispatcher ι κ τ} {log : List (Entry ι κ τ)}

theorem lastWrite_onWrite (l : ι) : lastWrite (log ++ [.onWrite l]) = some l := by
  simp [lastWrite]

theorem lastWrite_control (c : Control ι κ τ) : lastWrite (log ++ [.control c]) = lastWrite log := by
  simp [lastWrite]

namespace Dispatcher

theorem calls_onEvents (call : Call τ) (events : List (EpollEvent ι)) :
    (d.onEvents call events).calls = events.flatMap EpollEvent.calls := by
  induction events with
  | nil => rfl
  | cons event rest ih =>
    rw [onEvents, List.flatMap_cons, EpollEvent.calls]
    split
    · simp [calls, running, Phase.ahead]
    · split
      · simp [calls, running, Phase.ahead, lastWrite_onWrite]
      · simpa using ih

theorem calls_afterRead (call : Call τ) (event : EpollEvent ι) (rest : List (EpollEvent ι)) :
    (d.afterRead call event rest).calls = (Phase.onRead call event rest).ahead := by
  rw [afterRead, Phase.ahead]
  split
  · simp [calls, running, Phase.ahead, lastWrite_onWrite]
  · simpa using calls_onEvents call rest

theorem LoopStop.calls (h : LoopStop d d') : d'.calls = [] ∧ d'.interest = d.interest := by
  cases h with
  | epollWait | onLoop | undefined => exact ⟨rfl, rfl⟩

theorem TimeoutStop.calls {call : Call τ} {now : Int64} (h : TimeoutStop d call now d') :
    d'.calls = [] ∧ d'.interest = d.interest := by
  cases h with
  | returned | onTimeout => exact ⟨rfl, rfl⟩

theorem Resumes.calls {call : Call τ} {now : Int64} (h : Resumes d call now d') :
    d'.calls = [] ∧ d'.interest = d.interest := by
  cases h with
  | undefined => exact ⟨rfl, rfl⟩
  | popped | rearmed => exact (onTimeout_stop _ call now).calls

theorem BatchStop.interest {call : Call τ} (h : BatchStop d call d') :
    d'.interest = d.interest := by
  cases h with
  | returned | onRead | onWrite => rfl

end Dispatcher

inductive CallStep (fd : ι → Int) (d d' : Dispatcher ι κ τ) : Op ι κ τ → Prop
  | registerIo {l} (hcalls : d'.calls = d.calls)
    (hinterest : d'.interest = Function.update d.interest (fd l) (some l)) :
    CallStep fd d d' (.control (.registerIo l))
  | unregisterIo {l} (hcalls : d'.calls = d.calls)
    (hinterest : d'.interest = Function.update d.interest (fd l) none) :
    CallStep fd d d' (.control (.unregisterIo l))
  | control {c} (hregister : ∀ l, c ≠ .registerIo l) (hunregister : ∀ l, c ≠ .unregisterIo l)
    (hcalls : d'.calls = d.calls) (hinterest : d'.interest = d.interest) :
    CallStep fd d d' (.control c)
  | closed {n} (hcalls : d'.calls = d.calls)
    (hinterest : d'.interest = Function.update d.interest n none) : CallStep fd d d' (.closed n)
  | epollWait {time now events} (hidle : d.calls = [])
    (hcalls : d'.calls = events.flatMap EpollEvent.calls) (hinterest : d'.interest = d.interest) :
    CallStep fd d d' (.epollWait time now events)
  | returns {result} (hcalls : d'.calls = d.phase.ahead) (hinterest : d'.interest = d.interest) :
    CallStep fd d d' (.returns result)
  | throws (hcalls : d'.calls = []) (hinterest : d'.interest = d.interest) :
    CallStep fd d d' .throws
  | idle {op} (hop : op = .runOnce ∨ op = .interrupted) (hidle : d.calls = [])
    (hcalls : d'.calls = []) (hinterest : d'.interest = d.interest) : CallStep fd d d' op

theorem calls_control {c : Control ι κ τ} {d₁ : Dispatcher ι κ τ} (hphase : d₁.phase = d.phase)
    (hlog : d₁.log = d.log ++ [.control c]) : d₁.calls = d.calls := by
  simp only [Dispatcher.calls, Dispatcher.running, hphase, hlog, lastWrite_control]

variable [DecidableEq κ] {fd : ι → Int} {grow : Nat → Nat}

theorem control_calls {c : Control ι κ τ} (h : d.control fd grow c = some d') :
    CallStep fd d d' (.control c) := by
  have hphase := control_phase h
  obtain ⟨d₁, hd, rfl⟩ := control_cases h
  cases hd with
  | registerIo => exact .registerIo (calls_control hphase rfl) rfl
  | unregisterIo => exact .unregisterIo (calls_control hphase rfl) rfl
  | @registerLoop l =>
    have hlog : (d.registerLoopListener grow l).log = d.log ∧
        (d.registerLoopListener grow l).interest = d.interest := by
      unfold Dispatcher.registerLoopListener
      split
      · exact ⟨rfl, rfl⟩
      · exact ⟨rfl, rfl⟩
    exact .control nofun nofun (calls_control hphase (congrArg (· ++ _) hlog.1)) hlog.2
  | unregisterLoop | registerTimeout =>
    exact .control nofun nofun (calls_control hphase rfl) rfl

theorem step_calls [DecidableEq ι] {op : Op ι κ τ} (h : step fd grow d op = some d') :
    CallStep fd d d' op := by
  have hidle (hphase : d.phase = .outside ∨ d.phase = .epollWait) : d.calls = [] := by
    obtain hphase | hphase := hphase <;>
      simp [Dispatcher.calls, Dispatcher.running, Phase.ahead, hphase]
  cases step_cases h with
  | control h => exact control_calls h
  | closed => exact .closed rfl rfl
  | runOnce hphase =>
    obtain ⟨hcalls, hinterest⟩ := (d.onLoop_stop _ _ 0).calls
    exact .idle (.inl rfl) (hidle (.inl hphase)) hcalls hinterest
  | @epollWait time now events hphase =>
    refine .epollWait (hidle (.inr hphase)) ?_ ?_
    · unfold Dispatcher.afterWait
      dsimp only
      split
      · rename_i hnil
        rw [List.length_eq_zero_iff.mp hnil]
        exact (Dispatcher.onTimeout_stop _ _ now).calls.1
      · exact Dispatcher.calls_onEvents _ events
    · unfold Dispatcher.afterWait
      dsimp only
      split
      · exact (Dispatcher.onTimeout_stop { d with clock := now } _ now).calls.2
      · exact (Dispatcher.onEvents_stop { d with clock := time } _ events).interest
  | interrupted hphase => exact .idle (.inr rfl) (hidle (.inr hphase)) rfl rfl
  | throws => exact .throws rfl rfl
  | onLoop hphase =>
    obtain ⟨hcalls, hinterest⟩ := (d.onLoop_stop _ _ _).calls
    exact .returns (by rw [hcalls, hphase]; rfl) hinterest
  | @onRead call event rest _ hphase =>
    refine .returns ?_ (d.afterRead_stop call event rest).interest
    rw [hphase, Dispatcher.calls_afterRead]
  | @onWrite call rest _ hphase =>
    refine .returns ?_ (d.onEvents_stop call rest).interest
    rw [hphase, Dispatcher.calls_onEvents, Phase.ahead]
  | onTimeout hphase =>
    obtain ⟨hcalls, hinterest⟩ := (d.afterTimeout_resumes grow _ _ _ _).calls
    exact .returns (by rw [hcalls, hphase]; rfl) hinterest

end

/-! Who is not told. -/

namespace Reactor

structure Orderly (fd : ι → Int) (r : Reactor ι κ τ) : Prop where
  nodup : r.dispatcher.calls.Nodup
  interest : ∀ n l, r.dispatcher.interest n = some l → fd l = n

section
variable {fd : ι → Int} {r t : Reactor ι κ τ} {call : ι × Ready}

theorem report_eq_some {n : Int} {event : EpollEvent ι} (h : r.report n = some event) :
    ∃ l, r.dispatcher.interest n = some l ∧ event.listener = l ∧
      event.events = epollBits (r.epoll.events n ∩ r.epoll.polled n) := by
  unfold report at h
  dsimp only at h
  split at h
  · cases h
  · obtain ⟨l, hl, rfl⟩ := Option.map_eq_some_iff.mp h
    exact ⟨l, hl, rfl, rfl⟩

theorem report_calls {n : Int} (hl : r.dispatcher.interest n = some call.1)
    (hevents : call.2 ∈ r.epoll.events n) (hpolled : call.2 ∈ r.epoll.polled n) :
    ∃ event, r.report n = some event ∧ call ∈ event.calls := by
  have hmem : call.2 ∈ r.epoll.events n ∩ r.epoll.polled n := by simp [hevents, hpolled]
  have hne : r.epoll.events n ∩ r.epoll.polled n ≠ ∅ := Finset.ne_empty_of_mem hmem
  refine ⟨⟨epollBits (r.epoll.events n ∩ r.epoll.polled n), call.1⟩, by simp [report, hne, hl], ?_⟩
  rw [EpollEvent.mem_calls]
  refine ⟨rfl, ?_⟩
  obtain ⟨l, ready⟩ := call
  cases ready with
  | read => exact .inl ⟨rfl, epollBits_in.mpr hmem⟩
  | write => exact .inr ⟨rfl, epollBits_out.mpr hmem⟩

theorem nodup_reports (hr : r.Orderly fd) {fds : List Int} (hfds : fds.Nodup) :
    ((fds.filterMap r.report).flatMap EpollEvent.calls).Nodup := by
  induction fds with
  | nil => simp
  | cons n fds ih =>
    obtain ⟨hn, hfds⟩ := List.nodup_cons.mp hfds
    cases hreport : r.report n with
    | none => simpa [hreport] using ih hfds
    | some event =>
      rw [List.filterMap_cons_some hreport, List.flatMap_cons]
      refine List.nodup_append.mpr ⟨event.nodup_calls, ih hfds, ?_⟩
      intro call hcall call' hcall' heq
      subst heq
      obtain ⟨event', hevent', hcall'⟩ := List.mem_flatMap.mp hcall'
      obtain ⟨m, hm, hreport'⟩ := List.mem_filterMap.mp hevent'
      obtain ⟨l, hl, hlistener, -⟩ := report_eq_some hreport
      obtain ⟨l', hl', hlistener', -⟩ := report_eq_some hreport'
      have hsame : event.listener = event'.listener :=
        (EpollEvent.mem_calls.mp hcall).1.symm.trans (EpollEvent.mem_calls.mp hcall').1
      have hnm : n = m := by
        rw [← hr.interest n l hl, ← hr.interest m l' hl', ← hlistener, ← hlistener', hsame]
      exact hn (hnm ▸ hm)

theorem Hears.frame (h : r.Hears call) (hcalls : t.dispatcher.calls = r.dispatcher.calls)
    (hunlisted : t.Unlisted call → r.Unlisted call) : t.Hears call := by
  intro hcall
  rw [hcalls]
  exact h (hunlisted hcall)

theorem unlisted_congr (hinterest : t.dispatcher.interest = r.dispatcher.interest)
    (hepoll : t.epoll = r.epoll) : t.Unlisted call ↔ r.Unlisted call := by
  simp only [Unlisted, hinterest, hepoll]

theorem unlisted_add {l : ι} {events : Finset Ready}
    (hinterest : t.dispatcher.interest = Function.update r.dispatcher.interest (fd l) (some l))
    (hepoll : t.epoll = r.epoll.add (fd l) events) (h : t.Unlisted call) : r.Unlisted call := by
  obtain ⟨n, hl, hevents, hpolled, hn⟩ := h
  rw [hinterest] at hl
  rw [hepoll] at hevents hpolled hn
  simp only [Epoll.add] at hevents hpolled hn
  by_cases hfd : n = fd l
  · subst hfd
    rw [Function.update_self] at hevents
    have hne : r.epoll.polled (fd l) ∩ events ≠ ∅ :=
      Finset.ne_empty_of_mem (Finset.mem_inter.mpr ⟨hpolled, hevents⟩)
    rw [if_pos hne] at hn
    exact absurd (Finset.mem_insert_self (fd l) _) hn
  · rw [Function.update_of_ne hfd] at hl hevents
    refine ⟨n, hl, hevents, hpolled, fun hmem => hn ?_⟩
    split
    · exact Finset.mem_insert_of_mem hmem
    · exact Finset.mem_erase.mpr ⟨hfd, hmem⟩

theorem unlisted_forget {m : Int}
    (hinterest : t.dispatcher.interest = Function.update r.dispatcher.interest m none)
    (hepoll : t.epoll = r.epoll.forget m) (h : t.Unlisted call) : r.Unlisted call := by
  obtain ⟨n, hl, hevents, hpolled, hn⟩ := h
  rw [hinterest] at hl
  rw [hepoll] at hevents hpolled hn
  by_cases hnm : n = m
  · rw [hnm, Function.update_self] at hl
    cases hl
  · rw [Function.update_of_ne hnm] at hl
    refine ⟨n, hl, hevents, hpolled, fun hmem => hn ?_⟩
    exact Finset.mem_erase.mpr ⟨hnm, hmem⟩

theorem unlisted_wake {m : Int} {event : Ready}
    (h : Unlisted { r with epoll := r.epoll.wake m (r.dispatcher.interest m).isSome event } call) :
    r.Unlisted call := by
  obtain ⟨n, hl, hevents, hpolled, hn⟩ := h
  simp only [Epoll.wake] at hl hevents hpolled hn
  by_cases hnm : n = m
  · subst hnm
    by_cases hlisted : event ∈ r.epoll.events n
    · simp [hl, hlisted] at hn
    · rw [if_neg (by simp [hlisted])] at hn
      rw [Function.update_self] at hpolled
      have hne : call.2 ≠ event := by
        intro heq
        exact hlisted (heq ▸ hevents)
      exact ⟨n, hl, hevents, Finset.mem_of_mem_insert_of_ne hpolled hne, hn⟩
  · rw [Function.update_of_ne hnm] at hpolled
    refine ⟨n, hl, hevents, hpolled, fun hmem => hn ?_⟩
    split
    · exact Finset.mem_insert_of_mem hmem
    · exact hmem

theorem unlisted_drain {m : Int} {event : Ready}
    (h : Unlisted { r with epoll := r.epoll.drain m event } call) : r.Unlisted call := by
  obtain ⟨n, hl, hevents, hpolled, hn⟩ := h
  refine ⟨n, hl, hevents, ?_, hn⟩
  simp only [Epoll.drain] at hpolled
  by_cases hnm : n = m
  · subst hnm
    rw [Function.update_self] at hpolled
    exact Finset.mem_of_mem_erase hpolled
  · rwa [Function.update_of_ne hnm] at hpolled

end

section
variable [DecidableEq ι] [DecidableEq κ] {fd : ι → Int} {grow : Nat → Nat} {r t : Reactor ι κ τ}
  {move : Move ι κ τ}

inductive Moves (fd : ι → Int) (r : Reactor ι κ τ) : Move ι κ τ → Reactor ι κ τ → Prop
  | registerIo {l events d} (hcalls : d.calls = r.dispatcher.calls)
    (hinterest : d.interest = Function.update r.dispatcher.interest (fd l) (some l)) :
    Moves fd r (.registerIo l events) { dispatcher := d, epoll := r.epoll.add (fd l) events }
  | epollWait {time now fds d} (hnodup : fds.Nodup) (hidle : r.dispatcher.calls = [])
    (hcalls : d.calls = (fds.filterMap r.report).flatMap EpollEvent.calls)
    (hinterest : d.interest = r.dispatcher.interest) :
    Moves fd r (.epollWait time now fds)
      { dispatcher := d
        epoll := { r.epoll with readyList := r.epoll.readyList \ fds.toFinset } }
  | wakes {n event} : Moves fd r (.wakes n event)
      { r with epoll := r.epoll.wake n (r.dispatcher.interest n).isSome event }
  | drains {n event} : Moves fd r (.drains n event) { r with epoll := r.epoll.drain n event }
  | forgets {n op d} (hended : r.ended (.other op) = []) (hcalls : d.calls = r.dispatcher.calls)
    (hinterest : d.interest = Function.update r.dispatcher.interest n none) :
    Moves fd r (.other op) { dispatcher := d, epoll := r.epoll.forget n }
  | ends {op d} (hcalls : r.dispatcher.calls = r.ended (.other op) ++ d.calls)
    (hinterest : d.interest = r.dispatcher.interest) :
    Moves fd r (.other op) { r with dispatcher := d }

theorem step_moves (h : r.step fd grow move = some t) : Moves fd r move t := by
  cases move with
  | registerIo l events =>
    obtain ⟨d, hd, rfl⟩ := Option.map_eq_some_iff.mp h
    cases step_calls hd with
    | registerIo hcalls hinterest => exact .registerIo hcalls hinterest
    | control hregister => exact absurd rfl (hregister l)
    | idle hop => simp at hop
  | epollWait time now fds =>
    obtain ⟨⟨hnodup, -⟩, h⟩ := Option.ite_none_right_eq_some.mp h
    obtain ⟨d, hd, rfl⟩ := Option.map_eq_some_iff.mp h
    cases step_calls hd with
    | epollWait hidle hcalls hinterest => exact .epollWait hnodup hidle hcalls hinterest
    | idle hop => simp at hop
  | wakes n event =>
    cases h
    exact .wakes
  | drains n event =>
    cases h
    exact .drains
  | other op =>
    unfold step at h
    dsimp only at h
    split at h
    · cases h
    · cases h
    · obtain ⟨d, hd, rfl⟩ := Option.map_eq_some_iff.mp h
      cases step_calls hd with
      | unregisterIo hcalls hinterest => exact .forgets rfl hcalls hinterest
      | control _ hunregister => exact absurd rfl (hunregister _)
      | idle hop => simp at hop
    · obtain ⟨d, hd, rfl⟩ := Option.map_eq_some_iff.mp h
      cases step_calls hd with
      | closed hcalls hinterest => exact .forgets rfl hcalls hinterest
      | idle hop => simp at hop
    · rename_i hregister hepollWait hunregister hclosed
      obtain ⟨d, hd, rfl⟩ := Option.map_eq_some_iff.mp h
      cases step_calls hd with
      | registerIo => exact absurd rfl (hregister _)
      | unregisterIo => exact absurd rfl (hunregister _)
      | control _ _ hcalls hinterest => exact .ends hcalls.symm hinterest
      | closed => exact absurd rfl (hclosed _)
      | epollWait => exact absurd rfl (hepollWait _ _ _)
      | returns hcalls hinterest => exact .ends (by rw [hcalls]; rfl) hinterest
      | throws hcalls hinterest => exact .ends (by rw [hcalls]; simp [ended]) hinterest
      | idle hop hidle hcalls hinterest =>
        obtain rfl | rfl := hop
        · exact .ends (by rw [hcalls, hidle]; rfl) hinterest
        · exact .ends (by rw [hcalls, hidle]; rfl) hinterest

theorem registerIo_free {l : ι} {events : Finset Ready}
    (h : r.step fd grow (.registerIo l events) = some t) :
    r.dispatcher.interest (fd l) = none := by
  obtain ⟨d, hd, -⟩ := Option.map_eq_some_iff.mp h
  simp only [EventDispatch.step] at hd
  split at hd
  · cases hd
  · cases hd
  · obtain ⟨d₁, hd₁, -⟩ := Option.map_eq_some_iff.mp hd
    simp only [Dispatcher.registerIoListener] at hd₁
    split at hd₁
    · cases hd₁
    · assumption

theorem step_orderly (h : r.step fd grow move = some t) (hr : r.Orderly fd) : t.Orderly fd := by
  cases step_moves h with
  | @registerIo l events d hcalls hinterest =>
    refine ⟨hcalls ▸ hr.nodup, fun n m hm => ?_⟩
    rw [hinterest] at hm
    by_cases hn : n = fd l
    · rw [hn, Function.update_self] at hm
      cases hm
      exact hn.symm
    · rw [Function.update_of_ne hn] at hm
      exact hr.interest n m hm
  | epollWait hnodup hidle hcalls hinterest =>
    exact ⟨hcalls ▸ nodup_reports hr hnodup, hinterest ▸ hr.interest⟩
  | wakes | drains => exact ⟨hr.nodup, hr.interest⟩
  | @forgets m op d hended hcalls hinterest =>
    refine ⟨hcalls ▸ hr.nodup, fun n l hl => ?_⟩
    rw [hinterest] at hl
    by_cases hn : n = m
    · rw [hn, Function.update_self] at hl
      cases hl
    · rw [Function.update_of_ne hn] at hl
      exact hr.interest n l hl
  | ends hcalls hinterest =>
    exact ⟨(List.nodup_append.mp (hcalls ▸ hr.nodup)).2.1, hinterest ▸ hr.interest⟩

/-- A move leaves somebody behind only by ending a call that has not drained its descriptor. -/
theorem step_hears {call : ι × Ready} (h : r.step fd grow move = some t) (hr : r.Orderly fd)
    (ha : r.Hears call) : t.Hears call ↔ (call ∈ r.ended move → ¬ r.Unlisted call) := by
  have hnone (hended : r.ended move = []) (ht : t.Hears call) :
      t.Hears call ↔ (call ∈ r.ended move → ¬ r.Unlisted call) := by
    refine iff_of_true ht ?_
    simp [hended]
  cases step_moves h with
  | registerIo hcalls hinterest =>
    exact hnone rfl (ha.frame hcalls (unlisted_add hinterest rfl))
  | @epollWait time now fds d hnodup hidle hcalls hinterest =>
    refine hnone rfl fun hcall => ?_
    obtain ⟨n, hl, hevents, hpolled, hn⟩ := hcall
    rw [hinterest] at hl
    rw [hcalls]
    by_cases hmem : n ∈ fds
    · obtain ⟨event, hreport, hcall⟩ := report_calls hl hevents hpolled
      exact List.mem_flatMap.mpr ⟨event, List.mem_filterMap.mpr ⟨n, hmem, hreport⟩, hcall⟩
    · have hnot : n ∉ r.epoll.readyList := by simpa [hmem] using hn
      have hidle' := ha ⟨n, hl, hevents, hpolled, hnot⟩
      rw [hidle] at hidle'
      cases hidle'
  | wakes => exact hnone rfl (ha.frame rfl unlisted_wake)
  | drains => exact hnone rfl (ha.frame rfl unlisted_drain)
  | forgets hended hcalls hinterest =>
    exact hnone hended (ha.frame hcalls (unlisted_forget hinterest rfl))
  | @ends op d hcalls hinterest =>
    have hsame : Unlisted { r with dispatcher := d } call ↔ r.Unlisted call :=
      unlisted_congr hinterest rfl
    constructor
    · intro ht hended hunlisted
      have hlater := ht (hsame.mpr hunlisted)
      exact (List.nodup_append.mp (hcalls ▸ hr.nodup)).2.2 call hended call hlater rfl
    · intro hdrained hunlisted
      have hcall := ha (hsame.mp hunlisted)
      rw [hcalls, List.mem_append] at hcall
      exact hcall.resolve_left fun hended => hdrained hended (hsame.mp hunlisted)

theorem step_attended (h : r.step fd grow move = some t) (hr : r.Orderly fd) (ha : r.Attended) :
    t.Attended ↔ r.Drained move := by
  constructor
  · intro ht call
    exact (step_hears h hr (ha call)).mp (ht call)
  · intro hdrained call
    exact (step_hears h hr (ha call)).mpr (hdrained call)

/-- In every run, whatever becomes ready at whatever time: a registered listener that has something
ready is on the ready list or is called for it by the batch at hand, if and only if every call
drains its descriptor before it ends, by returning or because an exception leaves `run_once`. -/
theorem attended_iff_drained {moves : List (Move ι κ τ)}
    (hrun : Runs.exec (step fd grow) .start moves = some r) :
    (∀ t, Runs.Visits (step fd grow) .start moves t → t.Attended) ↔
      Runs.Along (step fd grow) Drained .start moves := by
  have hstart : (start : Reactor ι κ τ).Orderly fd := ⟨List.nodup_nil, nofun⟩
  have hattended : (start : Reactor ι κ τ).Attended := by
    intro call hcall
    obtain ⟨n, hl, -⟩ := hcall
    cases hl
  exact Runs.visits_iff_along (fun s move t h hs => step_orderly h hs)
    (fun s move t h hs ha => step_attended h hs ha) hrun hstart hattended

end

def drainedRead : List (Move Nat Nat Nat) :=
  [.registerIo 0 {.read}, .wakes 0 .read, .other .runOnce, .epollWait 0 0 [0], .drains 0 .read,
    .other (.returns true)]

theorem drainedRead_attended : ∃ r,
    Runs.exec (step (fun l : Nat => (l : Int)) (2 * ·)) .start drainedRead = some r ∧
      ∀ t, Runs.Visits (step (fun l : Nat => (l : Int)) (2 * ·)) .start drainedRead t →
        t.Attended := by
  obtain ⟨r, hr⟩ : ∃ r,
      Runs.exec (step (fun l : Nat => (l : Int)) (2 * ·)) .start drainedRead = some r := ⟨_, rfl⟩
  refine ⟨r, hr, (attended_iff_drained hr).mpr ?_⟩
  refine ⟨nofun, fun a ha => ⟨nofun, fun b hb => ⟨nofun, fun c hc => ⟨nofun, fun d hd =>
    ⟨nofun, fun t ht => ⟨fun call hcall => ?_, fun _ _ => trivial⟩⟩⟩⟩⟩⟩
  obtain rfl := Option.some.inj ha
  obtain rfl := Option.some.inj hb
  obtain rfl := Option.some.inj hc
  obtain rfl := Option.some.inj hd
  obtain rfl := Option.some.inj ht
  obtain rfl : call = (0, .read) := List.mem_singleton.mp hcall
  intro hunlisted
  obtain ⟨n, hl, -, hpolled, -⟩ := hunlisted
  obtain rfl : n = 0 := by
    by_contra hn
    have hnone : Function.update (fun _ : Int => (none : Option Nat)) 0 (some 0) n = some 0 := hl
    rw [Function.update_of_ne hn] at hnone
    cases hnone
  exact absurd hpolled (by decide)

def thrownRead : List (Move Nat Nat Nat) :=
  [.registerIo 0 {.read}, .registerIo 1 {.read}, .wakes 0 .read, .wakes 1 .read,
    .other .runOnce, .epollWait 0 0 [0, 1], .drains 0 .read, .other .throws]

theorem thrownRead_unattended : ¬ ∀ r,
    Runs.exec (step (fun l : Nat => (l : Int)) (2 * ·)) .start thrownRead = some r →
      r.Attended := by
  intro h
  have hcalls := h _ rfl (1, .read) ⟨1, rfl, by decide, by decide, by decide⟩
  cases hcalls

end Reactor

end Flyzero.EventDispatch
