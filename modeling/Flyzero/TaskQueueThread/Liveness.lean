import Flyzero.Lib.Fairness
import Flyzero.TaskQueueThread.Wakeup

/-! Under weak fairness of the two threads every task is run. -/
namespace Flyzero.TaskQueueThread.Wakeup
open Fairness
variable {τ : Type*} {m m' : Machine τ} {e : Event τ}

inductive Thread where
  | pusher | worker
  deriving DecidableEq

/-- A call of `push` begins when the program likes. -/
def Event.thread : Event τ → Option Thread
  | .call _ => none
  | .pusher => some .pusher
  | .worker _ => some .worker

def Machine.Stopped (m : Machine τ) : Prop := ∃ r ∈ m.ran, r.2 = false

/-- Steps until a task is run. -/
def Machine.distance (m : Machine τ) : Nat :=
  match m.worker with
  | .run => 1
  | .empty => 2
  | .exit _ => 3
  | .count _ => 4
  | .pop _ => 5
  | .wait =>
    if 0 < m.sema then 3
    else
      match m.pusher with
      | .post _ => 4
      | _ => 5
  | .done => 0

/-- A worker that waits needs the push at hand to go on. -/
def Machine.helper (m : Machine τ) : Thread :=
  match m.worker with
  | .wait => if 0 < m.sema then .worker else .pusher
  | _ => .worker

structure Behind (r : Nat) (m : Machine τ) : Prop where
  ran : m.ran.length = r
  enqueued : r < m.enqueued.length
  goesOn : ¬ m.Stopped

theorem Behind.waiting {r : Nat} (h : Behind r m) (hinv : Inv m) : m.waiting ≠ [] := by
  intro hnil
  have horder := congrArg List.length hinv.order
  have hran := h.ran
  have henqueued := h.enqueued
  simp [hnil] at horder
  omega

theorem Behind.queue {r : Nat} (h : Behind r m) (hinv : Inv m) : m.queue ≠ [] := by
  have hwaiting := h.waiting hinv
  intro hnil
  unfold Machine.waiting at hwaiting
  split at hwaiting <;> simp [hnil] at hwaiting

theorem Behind.helped {r : Nat} (h : Behind r m) (hinv : Inv m) (hwait : m.worker = .wait)
    (hsema : m.sema = 0) :
    (∃ t, m.pusher = .size t ∧ m.queue.length = 1) ∨ ∃ t, m.pusher = .post t := by
  have hawake := hinv.awake hwait (h.queue hinv)
  simpa [hsema] using hawake

theorem helper_eq_worker (h : m.worker = .wait → 0 < m.sema) : m.helper = .worker := by
  unfold Machine.helper
  split
  · rename_i hwait
    rw [if_pos (h hwait)]
  · rfl

theorem stopped_of_mem (h : false ∈ m.ran.map (·.2)) : m.Stopped := by
  obtain ⟨r, hr, hfalse⟩ := List.mem_map.mp h
  exact ⟨r, hr, hfalse⟩

theorem distance_eq (hworker : m'.worker = m.worker)
    (hsema : m.worker = .wait → 0 < m.sema ∧ 0 < m'.sema) : m'.distance = m.distance := by
  unfold Machine.distance
  rw [hworker]
  split <;> try rfl
  rename_i hwait
  obtain ⟨hsema, hsema'⟩ := hsema hwait
  rw [if_pos hsema, if_pos hsema']

structure PushFrame (m m' : Machine τ) : Prop where
  worker : m'.worker = m.worker
  ran : m'.ran = m.ran
  enqueued : m.enqueued <+: m'.enqueued
  sema : m.sema ≤ m'.sema

theorem pushStep_frame (hstep : pushStep m = some m') : PushFrame m m' := by
  unfold pushStep at hstep
  split at hstep
  · cases hstep
  · split at hstep <;> cases hstep <;> exact ⟨rfl, rfl, List.prefix_rfl, Nat.le_refl _⟩
  · split at hstep <;> cases hstep
    · exact ⟨rfl, rfl, List.prefix_rfl, Nat.le_refl _⟩
    · exact ⟨rfl, rfl, List.prefix_append .., Nat.le_refl _⟩
  · split at hstep <;> cases hstep <;> exact ⟨rfl, rfl, List.prefix_rfl, Nat.le_refl _⟩
  · cases hstep
    exact ⟨rfl, rfl, List.prefix_rfl, Nat.le_succ _⟩

theorem Behind.push {r : Nat} (h : Behind r m) (hframe : PushFrame m m') : Behind r m' := by
  obtain ⟨hran, henqueued, hgoes⟩ := h
  have hlen := hframe.enqueued.length_le
  refine ⟨by rw [hframe.ran, hran], by omega, ?_⟩
  rwa [Machine.Stopped, hframe.ran]

theorem PushFrame.distance (h : PushFrame m m') (hgoes : m.worker = .wait → 0 < m.sema) :
    m'.distance = m.distance ∧ m'.helper = m.helper ∧ m.helper = .worker := by
  have hsema := h.sema
  have hgoes' (hwait : m'.worker = .wait) : 0 < m'.sema := by
    have hpositive := hgoes (h.worker ▸ hwait)
    omega
  refine ⟨distance_eq h.worker fun hwait => ⟨hgoes hwait, hgoes' (h.worker.trans hwait)⟩, ?_,
    helper_eq_worker hgoes⟩
  rw [helper_eq_worker hgoes, helper_eq_worker hgoes']

theorem Behind.enabled {r : Nat} (h : Behind r m) (hinv : Inv m) :
    Enabled step Event.thread m.helper m := by
  by_cases hneeds : m.worker = .wait ∧ m.sema = 0
  · obtain ⟨hwait, hsema⟩ := hneeds
    have hhelper : m.helper = .pusher := by simp [Machine.helper, hwait, hsema]
    refine ⟨.pusher, by rw [hhelper]; rfl, ?_⟩
    obtain ⟨t, hpc, hone⟩ | ⟨t, hpc⟩ := h.helped hinv hwait hsema
    · simp [Wakeup.step, pushStep, hpc, hone]
    · simp [Wakeup.step, pushStep, hpc]
  · have hgoes (hwait : m.worker = .wait) : 0 < m.sema := by
      by_contra hsema
      exact hneeds ⟨hwait, by omega⟩
    refine ⟨.worker true, by rw [helper_eq_worker hgoes]; rfl, ?_⟩
    have hqueue := h.queue hinv
    have hresults := hinv.results
    cases hpc : m.worker with
    | empty | pop | count | exit => simp [Wakeup.step, workStep, hpc]
    | wait =>
      have hsema := hgoes hpc
      simp [Wakeup.step, workStep, hpc]
      omega
    | run =>
      obtain ⟨t, rest, hqueue⟩ := List.exists_cons_of_ne_nil hqueue
      simp [Wakeup.step, workStep, hpc, hqueue]
    | done =>
      rw [hpc] at hresults
      obtain ⟨bs, hbs, -⟩ := hresults
      exact absurd (stopped_of_mem (by simp [hbs])) h.goesOn

theorem Behind.step {r : Nat} (h : Behind r m) (hinv : Inv m) (hstep : step m e = some m') :
    (r < m'.ran.length ∨ m'.Stopped) ∨ Behind r m' ∧ (m'.distance < m.distance ∨
      m'.distance = m.distance ∧ m'.helper = m.helper ∧ e.thread ≠ some m.helper) := by
  cases e with
  | call t =>
    simp only [Wakeup.step] at hstep
    split at hstep <;> cases hstep
    rename_i hpc
    have hframe : PushFrame m { m with pusher := .full t } :=
      ⟨rfl, rfl, List.prefix_rfl, Nat.le_refl _⟩
    obtain ⟨hdistance, hhelper, -⟩ := hframe.distance fun hwait => by
      by_contra hsema
      obtain ⟨t, hpc', -⟩ | ⟨t, hpc'⟩ := h.helped hinv hwait (by omega)
      · cases hpc.symm.trans hpc'
      · cases hpc.symm.trans hpc'
    exact .inr ⟨h.push hframe, .inr ⟨hdistance, hhelper, by simp [Event.thread]⟩⟩
  | pusher =>
    have hframe := pushStep_frame hstep
    refine .inr ⟨h.push hframe, ?_⟩
    by_cases hneeds : m.worker = .wait ∧ m.sema = 0
    · left
      obtain ⟨hwait, hsema⟩ := hneeds
      obtain ⟨t, hpc, hone⟩ | ⟨t, hpc⟩ := h.helped hinv hwait hsema
      · simp only [Wakeup.step, pushStep, hpc, hone, if_true] at hstep
        cases hstep
        simp [Machine.distance, hwait, hsema, hpc]
      · simp only [Wakeup.step, pushStep, hpc] at hstep
        cases hstep
        simp [Machine.distance, Machine.return, hwait, hsema, hpc]
    · obtain ⟨hdistance, hhelper, hworker⟩ := hframe.distance fun hwait => by
        by_contra hsema
        exact hneeds ⟨hwait, by omega⟩
      exact .inr ⟨hdistance, hhelper, by simp [hworker, Event.thread]⟩
  | worker fin =>
    have hqueue := h.queue hinv
    have hresults := hinv.results
    simp only [Wakeup.step, workStep] at hstep
    split at hstep
    · rename_i hpc
      cases hstep
      refine .inr ⟨⟨h.ran, h.enqueued, h.goesOn⟩, .inl ?_⟩
      simp [Machine.distance, hpc, hqueue]
    · rename_i hpc
      split at hstep <;> cases hstep
      rename_i hsema
      refine .inr ⟨⟨h.ran, h.enqueued, h.goesOn⟩, .inl ?_⟩
      simp [Machine.distance, hpc, Nat.pos_of_ne_zero hsema]
    · split at hstep <;> cases hstep
      left
      left
      simp [h.ran]
    · rename_i hpc
      cases hstep
      refine .inr ⟨⟨h.ran, h.enqueued, h.goesOn⟩, .inl ?_⟩
      simp [Machine.distance, hpc]
    · rename_i hpc
      cases hstep
      refine .inr ⟨⟨h.ran, h.enqueued, h.goesOn⟩, .inl ?_⟩
      simp [Machine.distance, hpc]
    · rename_i fin' hpc
      cases hstep
      simp only [ResultsOk, hpc] at hresults
      obtain ⟨bs, hbs, -⟩ := hresults
      have htrue : fin' = true := by
        by_contra hfalse
        exact h.goesOn (stopped_of_mem (by simp [hbs, hfalse]))
      refine .inr ⟨⟨h.ran, h.enqueued, h.goesOn⟩, .inl ?_⟩
      simp [Machine.distance, hpc, htrue]
    · cases hstep

theorem step_grows (hstep : step m e = some m') : m.ran <+: m'.ran ∧ m.enqueued <+: m'.enqueued := by
  cases e with
  | call t =>
    simp only [Wakeup.step] at hstep
    split at hstep <;> cases hstep
    exact ⟨List.prefix_rfl, List.prefix_rfl⟩
  | pusher =>
    have hframe := pushStep_frame hstep
    exact ⟨hframe.ran ▸ List.prefix_rfl, hframe.enqueued⟩
  | worker fin =>
    simp only [Wakeup.step, workStep] at hstep
    split at hstep
    · cases hstep
      exact ⟨List.prefix_rfl, List.prefix_rfl⟩
    · split at hstep <;> cases hstep
      exact ⟨List.prefix_rfl, List.prefix_rfl⟩
    · split at hstep <;> cases hstep
      exact ⟨List.prefix_append .., List.prefix_rfl⟩
    · cases hstep
      exact ⟨List.prefix_rfl, List.prefix_rfl⟩
    · cases hstep
      exact ⟨List.prefix_rfl, List.prefix_rfl⟩
    · cases hstep
      exact ⟨List.prefix_rfl, List.prefix_rfl⟩
    · cases hstep

def Machine.callLeft (m : Machine τ) : Nat :=
  match m.pusher with
  | .idle => 0
  | .post _ => 1
  | .size _ => 2
  | .enqueue _ => 3
  | .full _ => 4

theorem workStep_pusher {fin : Bool} (hstep : workStep m fin = some m') : m'.pusher = m.pusher := by
  unfold workStep at hstep
  split at hstep
  · cases hstep
    rfl
  · split at hstep <;> cases hstep
    rfl
  · split at hstep <;> cases hstep
    rfl
  · cases hstep
    rfl
  · cases hstep
    rfl
  · cases hstep
    rfl
  · cases hstep

theorem behind_progress (r : Nat) : Run.Progress step Event.thread (Inv : Machine τ → Prop) (Behind r)
    (fun m => r < m.ran.length ∨ m.Stopped) Machine.distance Machine.helper where
  enabled _ hinv h := h.enabled hinv
  step _ _ _ hstep hinv h := h.step hinv hstep

theorem push_progress : Run.Progress step Event.thread (fun _ : Machine τ => True)
    (fun m => m.pusher ≠ .idle) (fun m => m.pusher = .idle) Machine.callLeft
    (fun _ => .pusher) where
  enabled m _ h := by
    refine ⟨.pusher, rfl, ?_⟩
    cases hpc : m.pusher with
    | idle => exact absurd hpc h
    | full | enqueue | size =>
      simp only [step, pushStep, hpc]
      split <;> rfl
    | post => simp [step, pushStep, hpc]
  step m e m' hstep _ h := by
    cases e with
    | call t =>
      simp only [step] at hstep
      cases hstep
    | pusher =>
      simp only [step, pushStep] at hstep
      split at hstep
      · cases hstep
      · rename_i hpc
        split at hstep <;> cases hstep
        · exact .inl rfl
        · exact .inr ⟨by simp, .inl (by simp [Machine.callLeft, hpc])⟩
      · rename_i hpc
        split at hstep <;> cases hstep <;>
          exact .inr ⟨by simp, .inl (by simp [Machine.callLeft, hpc])⟩
      · rename_i hpc
        split at hstep <;> cases hstep
        · exact .inr ⟨by simp, .inl (by simp [Machine.callLeft, hpc])⟩
        · exact .inl rfl
      · cases hstep
        exact .inl rfl
    | worker fin =>
      have hsame := workStep_pusher hstep
      refine .inr ⟨hsame ▸ h, .inr ⟨?_, rfl, by simp [Event.thread]⟩⟩
      rw [Machine.callLeft, Machine.callLeft, hsame]

section
variable {capacity : Nat} {run : Run step (start capacity : Machine τ)}

theorem run_grows (run : Run step (start capacity : Machine τ)) {n n' : Nat} (hle : n ≤ n') :
    (run.state n).ran <+: (run.state n').ran ∧
      (run.state n).enqueued <+: (run.state n').enqueued := by
  refine Run.invariant_from
    (fun m : Machine τ => (run.state n).ran <+: m.ran ∧ (run.state n).enqueued <+: m.enqueued)
    (fun m e m' hstep h => ?_) hle ⟨List.prefix_rfl, List.prefix_rfl⟩
  obtain ⟨hran, henqueued⟩ := step_grows hstep
  exact ⟨h.1.trans hran, h.2.trans henqueued⟩

theorem push_returns (hfair : Fair Event.thread run) (n : Nat) :
    ∃ m, n ≤ m ∧ (run.state m).pusher = .idle := by
  by_cases hidle : (run.state n).pusher = .idle
  · exact ⟨n, Nat.le_refl n, hidle⟩
  · exact Run.leadsTo hfair (fun _ => trivial) push_progress hidle

/-- What has been enqueued is run, or a task before it has returned false. -/
theorem queue_served (hfair : Fair Event.thread run) {n k : Nat}
    (hk : k < (run.state n).enqueued.length) :
    ∃ m, n ≤ m ∧ (k < (run.state m).ran.length ∨ (run.state m).Stopped) := by
  induction hleft : k + 1 - (run.state n).ran.length using Nat.strongRecOn generalizing n with
  | ind left ih =>
    by_cases hdone : k < (run.state n).ran.length
    · exact ⟨n, Nat.le_refl n, .inl hdone⟩
    by_cases hstopped : (run.state n).Stopped
    · exact ⟨n, Nat.le_refl n, .inr hstopped⟩
    have hinv := run.invariant (start_inv capacity) step_inv
    obtain ⟨m, hle, hran | hstopped⟩ := Run.leadsTo hfair hinv (behind_progress _)
      (⟨rfl, by omega, hstopped⟩ : Behind (run.state n).ran.length (run.state n))
    · have hlen := (run_grows run hle).2.length_le
      obtain ⟨m', hle', hm'⟩ := ih (k + 1 - (run.state m).ran.length) (by omega) (by omega) rfl
      exact ⟨m', by omega, hm'⟩
    · exact ⟨m, hle, .inr hstopped⟩

theorem Served.length_of_false {m : Machine τ} (h : Served m) {k : Nat} {t : τ}
    (hk : m.ran[k]? = some (t, false)) : m.ran.length = k + 1 := by
  have hlt := (List.getElem?_eq_some_iff.mp hk).1
  by_contra hne
  obtain ⟨before, last, hran⟩ := List.eq_nil_or_concat m.ran |>.resolve_left fun hnil => by
    simp [hnil] at hlt
  rw [List.concat_eq_append] at hran
  rw [hran, List.length_append, List.length_singleton] at hlt hne
  rw [hran, List.getElem?_append_left (by omega)] at hk
  have htrue := h.stops (before.map (·.2)) last.2 (by rw [hran, List.map_append]; rfl) false
    (List.mem_map.mpr ⟨_, List.mem_of_getElem? hk, rfl⟩)
  cases htrue

/-- In every fair run with serialised pushes: every call of `push` returns, and every task that has
been enqueued is run in its turn, unless a task returns false, behind which nothing is run. -/
theorem fair_served (hfair : Fair Event.thread run) (n : Nat) :
    (∃ m, n ≤ m ∧ (run.state m).pusher = .idle) ∧
      (∀ (k : Nat) (t : τ), (run.state n).enqueued[k]? = some t → ∃ m, n ≤ m ∧
        ((∃ res, (run.state m).ran[k]? = some (t, res)) ∨ (run.state m).Stopped)) ∧
      ∀ (k : Nat) (t : τ), (run.state n).ran[k]? = some (t, false) →
        ∀ m, n ≤ m → (run.state m).ran.length = k + 1 := by
  refine ⟨push_returns hfair n, fun k t ht => ?_, fun k t ht m hle => ?_⟩
  · obtain ⟨hk, ht⟩ := List.getElem?_eq_some_iff.mp ht
    obtain ⟨m, hle, hran | hstopped⟩ := queue_served hfair hk
    · have hserved := (run.invariant (start_inv capacity) step_inv m).served
      have hran' := List.prefix_iff_getElem?.mp hserved.prefix_ k (by simpa using hran)
      have henqueued := List.prefix_iff_getElem?.mp (run_grows run hle).2 k hk
      have hsame : ((run.state m).ran[k]).1 = t := by
        rw [hran', ht] at henqueued
        simpa using henqueued
      refine ⟨m, hle, .inl ⟨(run.state m).ran[k].2, ?_⟩⟩
      rw [List.getElem?_eq_getElem hran, ← hsame]
    · exact ⟨m, hle, .inr hstopped⟩
  · obtain ⟨hk, -⟩ := List.getElem?_eq_some_iff.mp ht
    have hlater := List.prefix_iff_getElem?.mp (run_grows run hle).1 k hk
    rw [← List.getElem?_eq_getElem hk, ht] at hlater
    exact (run.invariant (start_inv capacity) step_inv m).served.length_of_false hlater

end

def twoTasks : List (Event Nat) :=
  [.call 1, .pusher, .pusher, .pusher, .pusher, .worker true, .worker true, .call 2, .pusher,
    .worker true, .pusher, .worker true, .worker true, .worker true, .pusher, .pusher,
    .worker false, .worker false, .worker false, .worker false]

theorem twoTasks_fair : ∃ run : Run step (start 2 : Machine Nat), Fair Event.thread run ∧
    ∃ m, (∃ res, (run.state m).ran[1]? = some (2, res)) ∨ (run.state m).Stopped := by
  obtain ⟨m, hm, hpusher, hworker⟩ : ∃ m : Machine Nat, Runs.exec step (start 2) twoTasks = some m ∧
      m.pusher = .idle ∧ m.worker = .done := ⟨_, rfl, rfl, rfl⟩
  have hfair : Fair Event.thread (Run.ofExec hm) := by
    refine Run.ofExec_fair hm fun p henabled => ?_
    obtain ⟨e, howner, henabled⟩ := henabled
    cases e with
    | call => cases howner
    | pusher => simp [step, pushStep, hpusher] at henabled
    | worker => simp [step, workStep, hworker] at henabled
  obtain ⟨n, -, hserved⟩ := (fair_served hfair 11).2.1 1 2 rfl
  exact ⟨_, hfair, n, hserved⟩

end Flyzero.TaskQueueThread.Wakeup
