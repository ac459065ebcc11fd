import Flyzero.EventDispatch.Dispatcher
import Flyzero.Lib.Trace

/-! Which listeners `run_once` calls after they have been unregistered. -/
namespace Flyzero.EventDispatch
variable {ι κ τ : Type*}

def Entry.Calls (e : Entry ι κ τ) (l : ι) : Prop := e = .onRead l ∨ e = .onWrite l

/-- `unregister_io_listener(l)` has returned, and the listener has not been registered since. -/
def Withdrawn (l : ι) (log : List (Entry ι κ τ)) : Prop :=
  Trace.Since (· = .control (.unregisterIo l)) (· = .control (.registerIo l)) log

def Quiet (log : List (Entry ι κ τ)) : Prop :=
  Trace.Always (fun before e => ∀ l, e.Calls l → ¬ Withdrawn l before) log

def EpollEvent.targets (event : EpollEvent ι) : List ι :=
  (if event.events &&& epollIn ≠ 0 then [event.listener] else []) ++
    if event.events &&& epollOut ≠ 0 then [event.listener] else []

def Phase.targets : Phase ι τ → List ι
  | .onRead _ event rest =>
    (if event.events &&& epollOut ≠ 0 then [event.listener] else []) ++
      rest.flatMap EpollEvent.targets
  | .onWrite _ rest => rest.flatMap EpollEvent.targets
  | _ => []

/-- Before the next event of the batch for `l`, the listener is registered again or the batch is
given up; `targets` are the listeners that the batch has events for. -/
def Spared (l : ι) : List ι → List (Op ι κ τ) → Prop
  | _, [] => True
  | targets, op :: ops =>
    match op with
    | .control (.registerIo m) => m = l ∨ Spared l targets ops
    | .throws => True
    | .returns _ =>
      match targets with
      | [] => True
      | m :: targets => m ≠ l ∧ Spared l targets ops
    | _ => Spared l targets ops

/-- Who unregisters a listener in the middle of a batch has it spared. -/
def Considerate [DecidableEq ι] [DecidableEq κ] (fd : ι → Int) (grow : Nat → Nat)
    (d : Dispatcher ι κ τ) (ops : List (Op ι κ τ)) : Prop :=
  Runs.Ahead (step fd grow)
    (fun d op rest => ∀ l, op = .control (.unregisterIo l) → Spared l d.phase.targets rest) d ops

section
variable {l m : ι} {log : List (Entry ι κ τ)} {e : Entry ι κ τ}

theorem withdrawn_concat : Withdrawn l (log ++ [e]) ↔
    e = .control (.unregisterIo l) ∨ e ≠ .control (.registerIo l) ∧ Withdrawn l log :=
  Trace.since_concat

theorem quiet_concat :
    Quiet (log ++ [e]) ↔ Quiet log ∧ ∀ l, e.Calls l → ¬ Withdrawn l log :=
  Trace.always_concat

theorem quiet_nil : Quiet ([] : List (Entry ι κ τ)) := Trace.always_nil

theorem Entry.Calls.withdrawn (h : e.Calls m) : Withdrawn l (log ++ [e]) ↔ Withdrawn l log := by
  rw [withdrawn_concat]
  rcases h with rfl | rfl <;> simp

theorem Entry.Calls.quiet (h : e.Calls m) :
    Quiet (log ++ [e]) ↔ Quiet log ∧ ¬ Withdrawn m log := by
  rw [quiet_concat]
  refine and_congr_right fun _ => ⟨fun hl => hl m h, fun hm l hl => ?_⟩
  obtain rfl : l = m := by
    rcases h with rfl | rfl <;> rcases hl with hl | hl <;> cases hl <;> rfl
  exact hm

theorem quiet_control {c : Control ι κ τ} : Quiet (log ++ [.control c]) ↔ Quiet log := by
  rw [quiet_concat, and_iff_left]
  rintro l (h | h) <;> cases h

theorem spared_of_notMem {targets : List ι} {ops : List (Op ι κ τ)} (h : l ∉ targets) :
    Spared l targets ops := by
  induction ops generalizing targets with
  | nil => trivial
  | cons op ops ih =>
    unfold Spared
    split
    · exact .inr (ih h)
    · trivial
    · split
      · trivial
      · obtain ⟨hne, hnot⟩ := not_or.mp (List.mem_cons.not.mp h)
        exact ⟨Ne.symm hne, ih hnot⟩
    · exact ih h

inductive Silent (log : List (Entry ι κ τ)) : List (Entry ι κ τ) → Prop
  | none : Silent log log
  | onLoop (l : κ) : Silent log (log ++ [.onLoop l])
  | onTimeout (w : TimeoutListenerWrapper τ) : Silent log (log ++ [.onTimeout w])

theorem Silent.withdrawn {log' : List (Entry ι κ τ)} (h : Silent log log') :
    Withdrawn l log' ↔ Withdrawn l log := by
  cases h with
  | none => rfl
  | onLoop | onTimeout => simp [withdrawn_concat]

theorem Silent.quiet {log' : List (Entry ι κ τ)} (h : Silent log log') :
    Quiet log' ↔ Quiet log := by
  cases h with
  | none => rfl
  | onLoop | onTimeout => simp [quiet_concat, Entry.Calls]

end

inductive IoStep (Listed : ι → Prop) :
    List ι → List (Entry ι κ τ) → Op ι κ τ → List ι → List (Entry ι κ τ) → Prop
  | control {targets log c} :
    IoStep Listed targets log (.control c) targets (log ++ [.control c])
  | closed {targets log n} : IoStep Listed targets log (.closed n) targets log
  | call {l targets log result e} (he : Entry.Calls e l) :
    IoStep Listed (l :: targets) log (.returns result) targets (log ++ [e])
  | batch {l targets log time now events e} (hlisted : ∀ m ∈ l :: targets, Listed m)
    (he : Entry.Calls e l) :
    IoStep Listed [] log (.epollWait time now events) targets (log ++ [e])
  | throws {targets log} : IoStep Listed targets log .throws [] log
  | silent {log op log'} (hop : ∀ c, op ≠ .control c) (hlog : Silent log log') :
    IoStep Listed [] log op [] log'

section
variable {Listed : ι → Prop} {targets targets' : List ι} {log log' : List (Entry ι κ τ)}
  {op : Op ι κ τ} {l : ι}

theorem IoStep.withdrawn (h : IoStep Listed targets log op targets' log') : Withdrawn l log' ↔
    op = .control (.unregisterIo l) ∨ op ≠ .control (.registerIo l) ∧ Withdrawn l log := by
  cases h with
  | control => simp [withdrawn_concat]
  | closed | throws => simp
  | call he | batch _ he => simp [he.withdrawn]
  | silent hop hlog =>
    rw [hlog.withdrawn, or_iff_right (hop _), and_iff_right (hop _)]

/-- The log stays quiet while the listeners that are withdrawn are spared. -/
theorem IoStep.quiet (h : IoStep Listed targets log op targets' log')
    (hlisted : ∀ m, Listed m → ¬ Withdrawn m log) (ops : List (Op ι κ τ)) :
    (Quiet log' ∧ ∀ m, Withdrawn m log' → Spared m targets' ops) ↔
      Quiet log ∧ (∀ m, Withdrawn m log → Spared m targets (op :: ops)) ∧
        ∀ m, op = .control (.unregisterIo m) → Spared m targets ops := by
  have hspared (m : ι) (ops : List (Op ι κ τ)) : Spared m [] ops :=
    spared_of_notMem List.not_mem_nil
  have hwithdrawn (m : ι) := h.withdrawn (l := m)
  simp only [hwithdrawn]
  cases h with
  | @control _ _ c =>
    rw [quiet_control]
    cases c with
    | registerIo l =>
      simp only [Op.control.injEq, reduceCtorEq, ne_eq, Control.registerIo.injEq, false_or, and_imp,
        Spared, IsEmpty.forall_iff, implies_true, and_true, and_congr_right_iff]
      exact fun _ => forall_congr' fun m => by tauto
    | unregisterIo l =>
      simp only [Op.control.injEq, Control.unregisterIo.injEq, ne_eq, reduceCtorEq,
        not_false_eq_true, true_and, Spared, forall_eq', and_congr_right_iff]
      intro _
      constructor
      · exact fun h => ⟨fun m hm => h m (.inr hm), h l (.inl rfl)⟩
      · rintro ⟨h, hl⟩ m (rfl | hm)
        · exact hl
        · exact h m hm
    | registerLoop | unregisterLoop | registerTimeout => simp [Spared]
  | closed => simp [Spared]
  | @call l _ _ _ _ he =>
    rw [he.quiet]
    simp only [reduceCtorEq, ne_eq, not_false_eq_true, true_and, false_or, Spared,
      IsEmpty.forall_iff, implies_true, and_true]
    constructor
    · rintro ⟨⟨hquiet, hl⟩, h⟩
      exact ⟨hquiet, fun m hm => ⟨fun heq => hl (heq ▸ hm), h m hm⟩⟩
    · rintro ⟨hquiet, h⟩
      exact ⟨⟨hquiet, fun hl => (h l hl).1 rfl⟩, fun m hm => (h m hm).2⟩
  | batch hbatch he =>
    rename_i l _ _ _ _
    rw [he.quiet, and_iff_left (hlisted l (hbatch l List.mem_cons_self))]
    have hspared' (m : ι) (hm : Withdrawn m log) : Spared m targets' ops :=
      spared_of_notMem fun hmem => hlisted m (hbatch m (List.mem_cons_of_mem l hmem)) hm
    simp only [reduceCtorEq, ne_eq, not_false_eq_true, true_and, false_or, hspared, implies_true,
      and_self, and_true, and_iff_left_iff_imp]
    exact fun _ => hspared'
  | throws => simp [Spared, hspared]
  | silent hop hlog =>
    rw [hlog.quiet]
    simp [hspared]

end

namespace Dispatcher

inductive Delivers (d d' : Dispatcher ι κ τ) : List ι → Prop
  | done (htargets : d'.phase.targets = []) (hlog : d'.log = d.log) : Delivers d d' []
  | call {l targets e} (htargets : d'.phase.targets = targets) (he : Entry.Calls e l)
    (hlog : d'.log = d.log ++ [e]) : Delivers d d' (l :: targets)

theorem onEvents_delivers (d : Dispatcher ι κ τ) (call : Call τ) (events : List (EpollEvent ι)) :
    Delivers d (d.onEvents call events) (events.flatMap EpollEvent.targets) ∧
      (d.onEvents call events).interest = d.interest := by
  induction events with
  | nil => exact ⟨.done rfl rfl, rfl⟩
  | cons event rest ih =>
    rw [onEvents, List.flatMap_cons, EpollEvent.targets]
    split
    · exact ⟨.call rfl (.inl rfl) rfl, rfl⟩
    · split
      · exact ⟨.call rfl (.inr rfl) rfl, rfl⟩
      · exact ih

theorem afterRead_delivers (d : Dispatcher ι κ τ) (call : Call τ) (event : EpollEvent ι)
    (rest : List (EpollEvent ι)) :
    Delivers d (d.afterRead call event rest) (Phase.onRead call event rest).targets ∧
      (d.afterRead call event rest).interest = d.interest := by
  rw [afterRead, Phase.targets]
  split
  · exact ⟨.call rfl (.inr rfl) rfl, rfl⟩
  · exact onEvents_delivers d call rest

/-- No I/O listener is called, and no batch is left. -/
structure Idles (d d' : Dispatcher ι κ τ) : Prop where
  targets : d'.phase.targets = []
  log : Silent d.log d'.log
  interest : d'.interest = d.interest

theorem LoopStop.idles {d d' : Dispatcher ι κ τ} (h : LoopStop d d') : Idles d d' := by
  cases h with
  | epollWait | undefined => exact ⟨rfl, .none, rfl⟩
  | onLoop => exact ⟨rfl, .onLoop _, rfl⟩

theorem TimeoutStop.idles {d d' : Dispatcher ι κ τ} {call : Call τ} {now : Int64}
    (h : TimeoutStop d call now d') : Idles d d' := by
  cases h with
  | returned => exact ⟨rfl, .none, rfl⟩
  | onTimeout => exact ⟨rfl, .onTimeout _, rfl⟩

theorem Resumes.idles {d d' : Dispatcher ι κ τ} {call : Call τ} {now : Int64}
    (h : Resumes d call now d') : Idles d d' := by
  cases h with
  | undefined => exact ⟨rfl, .none, rfl⟩
  | popped | rearmed =>
    obtain ⟨htargets, hlog, hinterest⟩ := (onTimeout_stop _ call now).idles
    exact ⟨htargets, hlog, hinterest⟩

end Dispatcher

theorem EpollEvent.mem_targets {event : EpollEvent ι} {l : ι} (h : l ∈ event.targets) :
    l = event.listener := by
  rw [targets, List.mem_append] at h
  rcases h with h | h
  · split at h
    · exact List.mem_singleton.mp h
    · cases h
  · split at h
    · exact List.mem_singleton.mp h
    · cases h

def Dispatcher.Listed (fd : ι → Int) (d : Dispatcher ι κ τ) (l : ι) : Prop :=
  d.interest (fd l) = some l

section
variable {fd : ι → Int} {grow : Nat → Nat} {d d' : Dispatcher ι κ τ} {op : Op ι κ τ} {l : ι}

theorem listed_of_forgotten {n : Int}
    (hl : Function.update d.interest n none (fd l) = some l) : fd l ≠ n ∧ d.Listed fd l := by
  by_cases hfd : fd l = n
  · rw [hfd, Function.update_self] at hl
    cases hl
  · rw [Function.update_of_ne hfd] at hl
    exact ⟨hfd, hl⟩

theorem control_io [DecidableEq κ] {c : Control ι κ τ} (h : d.control fd grow c = some d') :
    d'.phase = d.phase ∧ d'.log = d.log ++ [.control c] ∧
      ∀ l, d'.Listed fd l → c = .registerIo l ∨ c ≠ .unregisterIo l ∧ d.Listed fd l := by
  obtain ⟨d₁, hd, rfl⟩ := control_cases h
  cases hd with
  | @registerIo m =>
    refine ⟨rfl, rfl, fun l hl => ?_⟩
    change Function.update d.interest (fd m) (some m) (fd l) = some l at hl
    by_cases hfd : fd l = fd m
    · rw [hfd, Function.update_self] at hl
      exact .inl (congrArg _ (Option.some.inj hl))
    · rw [Function.update_of_ne hfd] at hl
      exact .inr ⟨nofun, hl⟩
  | unregisterIo =>
    refine ⟨rfl, rfl, fun l hl => .inr ?_⟩
    obtain ⟨hfd, hl⟩ := listed_of_forgotten hl
    exact ⟨fun hc => hfd (by cases hc; rfl), hl⟩
  | registerLoop =>
    dsimp only [Dispatcher.registerLoopListener]
    split
    · exact ⟨rfl, rfl, fun l hl => .inr ⟨nofun, hl⟩⟩
    · exact ⟨rfl, rfl, fun l hl => .inr ⟨nofun, hl⟩⟩
  | unregisterLoop | registerTimeout => exact ⟨rfl, rfl, fun l hl => .inr ⟨nofun, hl⟩⟩

structure IoSpec (fd : ι → Int) (d d' : Dispatcher ι κ τ) (op : Op ι κ τ) : Prop where
  io : IoStep (d.Listed fd) d.phase.targets d.log op d'.phase.targets d'.log
  listed : ∀ l, d'.Listed fd l →
    op = .control (.registerIo l) ∨ op ≠ .control (.unregisterIo l) ∧ d.Listed fd l

theorem listed_of_interest_eq (hop : ∀ c, op ≠ .control c) (h : d'.interest = d.interest) (l : ι)
    (hl : d'.Listed fd l) :
    op = .control (.registerIo l) ∨ op ≠ .control (.unregisterIo l) ∧ d.Listed fd l := by
  rw [Dispatcher.Listed, h] at hl
  exact .inr ⟨hop _, hl⟩

theorem Dispatcher.Idles.io (h : d.Idles d') (hop : ∀ c, op ≠ .control c)
    (htargets : d.phase.targets = []) : IoSpec fd d d' op := by
  refine ⟨?_, listed_of_interest_eq hop h.interest⟩
  rw [htargets, h.targets]
  exact .silent hop h.log

theorem Dispatcher.Delivers.io {result : Bool} {targets : List ι} (h : d.Delivers d' targets)
    (htargets : d.phase.targets = targets) (hinterest : d'.interest = d.interest) :
    IoSpec fd d d' (.returns result) := by
  refine ⟨?_, listed_of_interest_eq nofun hinterest⟩
  rw [htargets]
  cases h with
  | done hdone hlog =>
    rw [hdone, hlog]
    exact .silent nofun .none
  | call hrest he hlog =>
    rw [hrest, hlog]
    exact .call he

theorem afterWait_io {time now : Int64} {events : List (EpollEvent ι)}
    (hphase : d.phase.targets = [])
    (hlisted : ∀ event ∈ events, d.Listed fd event.listener) :
    IoSpec fd d (d.afterWait time now events) (.epollWait time now events) := by
  unfold Dispatcher.afterWait
  dsimp only
  split
  · obtain ⟨htargets, hlog, hinterest⟩ := (Dispatcher.onTimeout_stop { d with clock := now }
      ⟨time, events.length, d.timeoutListeners.entries, []⟩ now).idles
    exact Dispatcher.Idles.io ⟨htargets, hlog, hinterest⟩ nofun hphase
  · obtain ⟨hdelivers, hinterest⟩ := Dispatcher.onEvents_delivers { d with clock := time }
      ⟨time, events.length, d.timeoutListeners.entries, []⟩ events
    refine ⟨?_, listed_of_interest_eq nofun hinterest⟩
    rw [hphase]
    have hmem (l : ι) (hl : l ∈ events.flatMap EpollEvent.targets) : d.Listed fd l := by
      obtain ⟨event, hevent, hl⟩ := List.mem_flatMap.mp hl
      exact event.mem_targets hl ▸ hlisted event hevent
    generalize events.flatMap EpollEvent.targets = targets at hdelivers hmem
    cases hdelivers with
    | done htargets hlog =>
      rw [htargets, hlog]
      exact .silent nofun .none
    | call htargets he hlog =>
      rw [htargets, hlog]
      exact .batch hmem he

end

section
variable [DecidableEq ι] [DecidableEq κ] {fd : ι → Int} {grow : Nat → Nat}
  {d d' : Dispatcher ι κ τ} {op : Op ι κ τ}

theorem step_io (h : step fd grow d op = some d') : IoSpec fd d d' op := by
  cases step_cases h with
  | @control c _ h =>
    obtain ⟨hphase, hlog, hlisted⟩ := control_io h
    refine ⟨?_, fun l hl => ?_⟩
    · rw [hphase, hlog]
      exact .control
    · simpa using hlisted l hl
  | closed => exact ⟨.closed, fun l hl => .inr ⟨nofun, (listed_of_forgotten hl).2⟩⟩
  | runOnce hphase => exact (d.onLoop_stop _ _ 0).idles.io nofun (hphase ▸ rfl)
  | epollWait hphase htime hnow hlisted => exact afterWait_io (hphase ▸ rfl) hlisted
  | interrupted hphase =>
    exact Dispatcher.Idles.io ⟨rfl, .none, rfl⟩ nofun (hphase ▸ rfl)
  | throws => exact ⟨.throws, fun l hl => .inr ⟨nofun, hl⟩⟩
  | onLoop hphase => exact (d.onLoop_stop _ _ _).idles.io nofun (hphase ▸ rfl)
  | onRead hphase =>
    obtain ⟨hdelivers, hinterest⟩ := Dispatcher.afterRead_delivers d _ _ _
    exact hdelivers.io (hphase ▸ rfl) hinterest
  | onWrite hphase =>
    obtain ⟨hdelivers, hinterest⟩ := Dispatcher.onEvents_delivers d _ _
    exact hdelivers.io (hphase ▸ rfl) hinterest
  | onTimeout hphase =>
    exact (d.afterTimeout_resumes grow _ _ _ _).idles.io nofun (hphase ▸ rfl)

def Dispatcher.Honest (fd : ι → Int) (d : Dispatcher ι κ τ) : Prop :=
  ∀ l, d.Listed fd l → ¬ Withdrawn l d.log

theorem step_honest (h : step fd grow d op = some d') (hd : d.Honest fd) : d'.Honest fd := by
  intro l hl
  rw [(step_io h).io.withdrawn]
  rcases (step_io h).listed l hl with rfl | ⟨hop, hl⟩
  · simp
  · rintro (hc | ⟨-, hc⟩)
    · exact hop hc
    · exact hd l hl hc

theorem exec_quiet_iff {ops : List (Op ι κ τ)} (hrun : Runs.exec (step fd grow) d ops = some d')
    (hd : d.Honest fd) : Quiet d'.log ↔
      Quiet d.log ∧ (∀ l, Withdrawn l d.log → Spared l d.phase.targets ops) ∧
        Considerate fd grow d ops := by
  induction ops generalizing d with
  | nil =>
    cases hrun
    simp [Spared, Considerate, Runs.Ahead]
  | cons op ops ih =>
    obtain ⟨d₁, hstep, hrun⟩ := Runs.exec_cons.mp hrun
    have hconsiderate : Considerate fd grow d (op :: ops) ↔
        (∀ l, op = .control (.unregisterIo l) → Spared l d.phase.targets ops) ∧
          Considerate fd grow d₁ ops := by
      simp [Considerate, Runs.Ahead, hstep]
    rw [ih hrun (step_honest hstep hd), ← and_assoc, (step_io hstep).io.quiet hd ops, hconsiderate,
      and_assoc, and_assoc]

/-- No listener is called after it has been unregistered, in any run, if and only if whoever
unregisters a listener in the middle of a batch has it spared. -/
theorem quiet_iff_considerate {ops : List (Op ι κ τ)}
    (hrun : Runs.exec (step fd grow) .start ops = some d) :
    Quiet d.log ↔ Considerate fd grow .start ops := by
  have hquiet : Quiet (Dispatcher.start : Dispatcher ι κ τ).log := quiet_nil
  rw [exec_quiet_iff hrun nofun, and_iff_right hquiet, and_iff_right]
  exact fun l hl => absurd hl Trace.not_since_nil

end

def sparedListener : List (Op Nat Nat Nat) :=
  [.control (.registerIo 0), .control (.registerIo 1), .runOnce,
    .epollWait 0 0 [⟨epollIn, 0⟩, ⟨epollIn ||| epollOut, 1⟩], .control (.unregisterIo 1),
    .control (.registerIo 1), .returns true, .returns true, .returns true]

theorem sparedListener_quiet :
    ∃ d, Runs.exec (step (fun l : Nat => (l : Int)) (2 * ·)) .start sparedListener = some d ∧
      d.completed.length = 1 ∧ Quiet d.log := by
  obtain ⟨d, hd, hcompleted⟩ : ∃ d, Runs.exec (step (fun l : Nat => (l : Int)) (2 * ·)) .start
      sparedListener = some d ∧ d.completed.length = 1 := ⟨_, rfl, rfl⟩
  refine ⟨d, hd, hcompleted, (quiet_iff_considerate hd).mpr ?_⟩
  have hspared (l : Nat) (targets : List Nat) (rest : List (Op Nat Nat Nat))
      (hl : (.control (.unregisterIo 1) : Op Nat Nat Nat) = .control (.unregisterIo l)) :
      Spared l targets (.control (.registerIo 1) :: rest) := by
    cases hl
    exact .inl rfl
  exact ⟨nofun, fun _ _ => ⟨nofun, fun _ _ => ⟨nofun, fun _ _ => ⟨nofun, fun _ _ =>
    ⟨fun l => hspared l _ _, fun _ _ => ⟨nofun, fun _ _ => ⟨nofun, fun _ _ => ⟨nofun, fun _ _ =>
    ⟨nofun, fun _ _ => trivial⟩⟩⟩⟩⟩⟩⟩⟩⟩

def closedInRead : List (Op Nat Nat Nat) :=
  [.control (.registerIo 0), .runOnce, .epollWait 0 0 [⟨epollIn ||| epollOut, 0⟩],
    .control (.unregisterIo 0), .returns true]

theorem closedInRead_not_quiet :
    ¬ ∀ d, Runs.exec (step (fun l : Nat => (l : Int)) (2 * ·)) .start closedInRead = some d →
      Quiet d.log := by
  intro h
  have hquiet := h _ rfl
  exact hquiet [_, _, _] (.onWrite 0) [] rfl 0 (.inr rfl) ⟨[_, _], _, [], rfl, rfl, nofun⟩

end Flyzero.EventDispatch
