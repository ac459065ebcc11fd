import Flyzero.EventDispatch.Dispatcher
import Flyzero.Lib.Trace

/-! Which loop listeners are in the vector, and which are called. -/
namespace Flyzero.EventDispatch
variable {ι κ τ : Type*}

inductive LoopEvent (κ : Type*) where
  | registered (listener : κ)
  | unregistered (listener : κ)
  | called (listener : κ)

namespace LoopEvent

def call? : LoopEvent κ → Option κ
  | .called l => some l
  | .registered _ | .unregistered _ => none

/-- `unregister_loop_listener(l)` has returned, and the listener has not been registered since. -/
def Withdrawn (l : κ) (es : List (LoopEvent κ)) : Prop :=
  Trace.Since (· = .unregistered l) (· = .registered l) es

def Quiet (es : List (LoopEvent κ)) : Prop :=
  Trace.Always (fun before e => ∀ l, e = .called l → ¬ Withdrawn l before) es

end LoopEvent

def Entry.loopEvent? : Entry ι κ τ → Option (LoopEvent κ)
  | .control (.registerLoop l) => some (.registered l)
  | .control (.unregisterLoop l) => some (.unregistered l)
  | .onLoop l => some (.called l)
  | _ => none

def loopEvents (log : List (Entry ι κ τ)) : List (LoopEvent κ) := log.filterMap Entry.loopEvent?

def loopCalls (log : List (Entry ι κ τ)) : List κ := (loopEvents log).filterMap LoopEvent.call?

theorem loopEvents_concat (log : List (Entry ι κ τ)) (e : Entry ι κ τ) :
    loopEvents (log ++ [e]) = loopEvents log ++ e.loopEvent?.toList := by
  rw [loopEvents, List.filterMap_append]
  cases h : e.loopEvent? <;> simp [loopEvents, h]

theorem loopEvents_other {e : Entry ι κ τ} (h : e.loopEvent? = none) (log : List (Entry ι κ τ)) :
    loopEvents (log ++ [e]) = loopEvents log := by
  rw [loopEvents_concat, h, Option.toList_none, List.append_nil]

theorem loopCalls_concat (log : List (Entry ι κ τ)) (e : Entry ι κ τ) :
    loopCalls (log ++ [e]) = loopCalls log ++ (e.loopEvent?.bind LoopEvent.call?).toList := by
  rw [loopCalls, loopEvents_concat, List.filterMap_append, loopCalls]
  cases e.loopEvent? with
  | none => rfl
  | some e => cases e <;> rfl

theorem LoopEvent.withdrawn_concat {l : κ} {es : List (LoopEvent κ)} {e : LoopEvent κ} :
    Withdrawn l (es ++ [e]) ↔ e = .unregistered l ∨ e ≠ .registered l ∧ Withdrawn l es :=
  Trace.since_concat

inductive LoopChange [DecidableEq κ] (xs : List κ) (es : List (LoopEvent κ)) :
    List κ → List (LoopEvent κ) → Prop
  | none : LoopChange xs es xs es
  | called {l} (h : l ∈ xs) : LoopChange xs es xs (es ++ [.called l])
  | known {l} (h : l ∈ xs) : LoopChange xs es xs (es ++ [.registered l])
  | registered {l} (h : l ∉ xs) : LoopChange xs es (xs ++ [l]) (es ++ [.registered l])
  | unregistered {l} : LoopChange xs es (xs.erase l) (es ++ [.unregistered l])

structure Consistent (xs : List κ) (es : List (LoopEvent κ)) : Prop where
  nodup : xs.Nodup
  listed : ∀ l ∈ xs, ¬ LoopEvent.Withdrawn l es
  quiet : LoopEvent.Quiet es

theorem LoopChange.consistent [DecidableEq κ] {xs xs' : List κ} {es es' : List (LoopEvent κ)}
    (h : LoopChange xs es xs' es') (hd : Consistent xs es) : Consistent xs' es' := by
  obtain ⟨hnodup, hlisted, hquiet⟩ := hd
  cases h with
  | none => exact ⟨hnodup, hlisted, hquiet⟩
  | called hl =>
    refine ⟨hnodup, fun x hx => ?_, Trace.always_concat.mpr ⟨hquiet, fun x hx => ?_⟩⟩
    · rw [LoopEvent.withdrawn_concat]
      simpa using hlisted x hx
    · cases hx
      exact hlisted _ hl
  | known hl =>
    refine ⟨hnodup, fun x hx => ?_, Trace.always_concat.mpr ⟨hquiet, nofun⟩⟩
    rw [LoopEvent.withdrawn_concat]
    simpa using fun _ => hlisted x hx
  | @registered l hl =>
    refine ⟨?_, fun x hx => ?_, Trace.always_concat.mpr ⟨hquiet, nofun⟩⟩
    · rw [← List.concat_eq_append]
      exact hnodup.concat hl
    · rw [LoopEvent.withdrawn_concat]
      cases List.mem_append.mp hx with
      | inl hx => simpa using fun _ => hlisted x hx
      | inr hx =>
        rw [List.mem_singleton.mp hx]
        simp
  | @unregistered l =>
    refine ⟨hnodup.erase l, fun x hx => ?_, Trace.always_concat.mpr ⟨hquiet, nofun⟩⟩
    obtain ⟨hne, hx⟩ := hnodup.mem_erase_iff.mp hx
    rw [LoopEvent.withdrawn_concat]
    simpa [hne.symm] using hlisted x hx

structure Dispatcher.KeepsLoop (d d' : Dispatcher ι κ τ) : Prop where
  listeners : d'.loopListeners = d.loopListeners
  events : loopEvents d'.log = loopEvents d.log

namespace Dispatcher

theorem BatchStop.keepsLoop {d d' : Dispatcher ι κ τ} {call : Call τ} (h : BatchStop d call d') :
    KeepsLoop d d' := by
  cases h with
  | returned => exact ⟨rfl, rfl⟩
  | onRead | onWrite => exact ⟨rfl, loopEvents_other rfl _⟩

theorem TimeoutStop.keepsLoop {d d' : Dispatcher ι κ τ} {call : Call τ} {now : Int64}
    (h : TimeoutStop d call now d') : KeepsLoop d d' := by
  cases h with
  | returned => exact ⟨rfl, rfl⟩
  | onTimeout => exact ⟨rfl, loopEvents_other rfl _⟩

theorem Resumes.keepsLoop {d d' : Dispatcher ι κ τ} {call : Call τ} {now : Int64}
    (h : Resumes d call now d') : KeepsLoop d d' := by
  cases h with
  | undefined => exact ⟨rfl, rfl⟩
  | popped | rearmed =>
    obtain ⟨hlisteners, hevents⟩ := (onTimeout_stop _ call now).keepsLoop
    exact ⟨hlisteners, hevents⟩

theorem afterWait_keepsLoop (d : Dispatcher ι κ τ) (time now : Int64)
    (events : List (EpollEvent ι)) : KeepsLoop d (d.afterWait time now events) := by
  unfold afterWait
  dsimp only
  split
  · obtain ⟨hlisteners, hevents⟩ := (onTimeout_stop { d with clock := now }
      ⟨time, events.length, d.timeoutListeners.entries, []⟩ now).keepsLoop
    exact ⟨hlisteners, hevents⟩
  · obtain ⟨hlisteners, hevents⟩ := (onEvents_stop { d with clock := time }
      ⟨time, events.length, d.timeoutListeners.entries, []⟩ events).keepsLoop
    exact ⟨hlisteners, hevents⟩

theorem KeepsLoop.change [DecidableEq κ] {d d' : Dispatcher ι κ τ} (h : KeepsLoop d d') :
    LoopChange d.loopListeners (loopEvents d.log) d'.loopListeners (loopEvents d'.log) := by
  rw [h.listeners, h.events]
  exact .none

end Dispatcher

section
variable [DecidableEq κ] {fd : ι → Int} {grow : Nat → Nat} {d d' : Dispatcher ι κ τ}

theorem loopStop_change (h : d.LoopStop d') :
    LoopChange d.loopListeners (loopEvents d.log) d'.loopListeners (loopEvents d'.log) := by
  cases h with
  | epollWait | undefined => exact .none
  | onLoop hl =>
    dsimp only
    rw [loopEvents_concat]
    exact .called hl

theorem control_change {c : Control ι κ τ} (h : d.control fd grow c = some d') :
    LoopChange d.loopListeners (loopEvents d.log) d'.loopListeners (loopEvents d'.log) := by
  obtain ⟨d₁, hd, rfl⟩ := control_cases h
  dsimp only
  rw [loopEvents_concat]
  cases hd with
  | registerIo | unregisterIo | registerTimeout =>
    change LoopChange d.loopListeners _ d.loopListeners (loopEvents d.log ++ [])
    rw [List.append_nil]
    exact .none
  | registerLoop =>
    unfold Dispatcher.registerLoopListener
    split
    · exact .known ‹_›
    · exact .registered ‹_›
  | unregisterLoop => exact .unregistered

variable [DecidableEq ι]

theorem step_change {op : Op ι κ τ} (h : step fd grow d op = some d') :
    LoopChange d.loopListeners (loopEvents d.log) d'.loopListeners (loopEvents d'.log) := by
  cases step_cases h with
  | control h => exact control_change h
  | closed | interrupted | throws => exact .none
  | runOnce => exact loopStop_change (d.onLoop_stop _ _ 0)
  | onLoop => exact loopStop_change (d.onLoop_stop _ _ _)
  | epollWait => exact (Dispatcher.afterWait_keepsLoop d _ _ _).change
  | onRead => exact (d.afterRead_stop _ _ _).keepsLoop.change
  | onWrite => exact (d.onEvents_stop _ _).keepsLoop.change
  | onTimeout => exact (d.afterTimeout_resumes grow _ _ _ _).keepsLoop.change

theorem exec_consistent {ops : List (Op ι κ τ)} (h : Runs.exec (step fd grow) d ops = some d')
    (hd : Consistent d.loopListeners (loopEvents d.log)) :
    Consistent d'.loopListeners (loopEvents d'.log) := by
  induction ops generalizing d with
  | nil =>
    cases h
    exact hd
  | cons op ops ih =>
    obtain ⟨d₁, hstep, hrest⟩ := Runs.exec_cons.mp h
    exact ih hrest ((step_change hstep).consistent hd)

theorem reachable_consistent (h : Runs.Reachable (step fd grow) .start d) :
    Consistent d.loopListeners (loopEvents d.log) := by
  obtain ⟨ops, hrun⟩ := h
  exact exec_consistent hrun ⟨List.nodup_nil, nofun, Trace.always_nil⟩

end

end Flyzero.EventDispatch
