import Flyzero.EventDispatch.LoopListeners
import Flyzero.Lib.Cursor

/-! Rounds of the loop listeners, which register and unregister loop listeners meanwhile. -/
namespace Flyzero.EventDispatch
variable {ι κ τ : Type*}

section
variable [DecidableEq ι] [DecidableEq κ] (fd : ι → Int) (grow : Nat → Nat)

/-- What is left of a round of `on_loop`, up to `epoll_wait` or to a read outside of the vector. -/
inductive Round : Dispatcher ι κ τ → List (Op ι κ τ) → Dispatcher ι κ τ → Prop
  | ended {d} (h : d.phase = .epollWait ∨ d.phase = .undefined) : Round d [] d
  | next {d d₁ d' op ops generation size i} (hphase : d.phase = .onLoop generation size i)
    (hstep : step fd grow d op = some d₁) (hrest : Round d₁ ops d') : Round d (op :: ops) d'

/-- The listener is in the vector when the round begins, and is not taken out in the round. -/
def Stays (d : Dispatcher ι κ τ) (ops : List (Op ι κ τ)) (l : κ) : Prop :=
  l ∈ d.loopListeners ∧ .control (.unregisterLoop l) ∉ ops

structure SoundRound (d : Dispatcher ι κ τ) (ops : List (Op ι κ τ)) (d' : Dispatcher ι κ τ) :
    Prop where
  inside : d'.phase ≠ .undefined
  once : ∀ l, Stays d ops l → (loopCalls d'.log).count l = (loopCalls d.log).count l + 1
  quiet : LoopEvent.Quiet (loopEvents d'.log)

/-- The memory is not left while the vector is still read, and the vector is not used up. -/
def Roomy (d : Dispatcher ι κ τ) (op : Op ι κ τ) : Prop :=
  match d.phase, op with
  | .onLoop _ size i, .control (.registerLoop m) =>
    i + 1 = size ∨ m ∈ d.loopListeners ∨ d.loopListeners.length ≠ d.loopStorage.capacity
  | .onLoop _ size i, .returns _ => i + 1 = size ∨ i + 1 < d.loopListeners.length
  | _, _ => True

/-- When a listener is taken out that has had its turn, the next in turn is not to stay. -/
def Spares (stays : κ → Prop) (d : Dispatcher ι κ τ) (op : Op ι κ τ) : Prop :=
  match d.phase, op with
  | .onLoop _ _ i, .control (.unregisterLoop m) =>
    m ∈ d.loopListeners.take (i + 1) → ∀ l, stays l → d.loopListeners[i + 1]? ≠ some l
  | _, _ => True

omit [DecidableEq ι] [DecidableEq κ] in
structure Dispatcher.KeepsRound (d d' : Dispatcher ι κ τ) : Prop where
  listeners : d'.loopListeners = d.loopListeners
  storage : d'.loopStorage = d.loopStorage
  calls : loopCalls d'.log = loopCalls d.log

inductive RoundStep (d : Dispatcher ι κ τ) (generation size i : Nat) :
    Op ι κ τ → Dispatcher ι κ τ → Prop
  | idle {op d'} (hkeeps : d.KeepsRound d') (hphase : d'.phase = d.phase) (hroomy : Roomy d op)
    (hspares : ∀ stays, Spares stays d op) : RoundStep d generation size i op d'
  | register {m d'} (hm : m ∉ d.loopListeners) (hphase : d'.phase = d.phase)
    (hlisteners : d'.loopListeners = d.loopListeners ++ [m])
    (hstorage : d'.loopStorage = d.loopStorage.insert grow d.loopListeners.length)
    (hcalls : loopCalls d'.log = loopCalls d.log) :
    RoundStep d generation size i (.control (.registerLoop m)) d'
  | unregister {m d'} (hphase : d'.phase = d.phase)
    (hlisteners : d'.loopListeners = d.loopListeners.erase m)
    (hstorage : d'.loopStorage = d.loopStorage) (hcalls : loopCalls d'.log = loopCalls d.log) :
    RoundStep d generation size i (.control (.unregisterLoop m)) d'
  | read {l result d'} (hsize : i + 1 ≠ size) (hgeneration : d.loopStorage.generation = generation)
    (hl : d.loopListeners[i + 1]? = some l) (hphase : d'.phase = .onLoop generation size (i + 1))
    (hlisteners : d'.loopListeners = d.loopListeners) (hstorage : d'.loopStorage = d.loopStorage)
    (hcalls : loopCalls d'.log = loopCalls d.log ++ [l]) :
    RoundStep d generation size i (.returns result) d'
  | last {result d'} (hsize : i + 1 = size) (hkeeps : d.KeepsRound d')
    (hphase : d'.phase = .epollWait) : RoundStep d generation size i (.returns result) d'
  | stray {result d'} (hsize : i + 1 ≠ size)
    (h : d.loopStorage.generation = generation → d.loopListeners.length ≤ i + 1)
    (hphase : d'.phase = .undefined) : RoundStep d generation size i (.returns result) d'
  | throws {d'} (hphase : d'.phase = .outside) : RoundStep d generation size i .throws d'

variable {fd grow} {d d' : Dispatcher ι κ τ} {op : Op ι κ τ} {ops : List (Op ι κ τ)}

theorem Round.exec (h : Round fd grow d ops d') : Runs.exec (step fd grow) d ops = some d' := by
  induction h with
  | ended => rfl
  | next _ hstep _ ih => exact Runs.exec_cons.mpr ⟨_, hstep, ih⟩

theorem Round.eq_of_ended (h : Round fd grow d ops d')
    (hended : d.phase = .epollWait ∨ d.phase = .undefined) : ops = [] ∧ d' = d := by
  cases h with
  | ended => exact ⟨rfl, rfl⟩
  | next hphase =>
    rw [hphase] at hended
    cases hended with
    | inl h => cases h
    | inr h => cases h

omit [DecidableEq ι] in
theorem onLoop_step {generation size i : Nat} {result : Bool} :
    RoundStep grow d generation size i (.returns result) (d.onLoop generation size (i + 1)) := by
  unfold Dispatcher.onLoop
  split
  · exact .last ‹_› ⟨rfl, rfl, rfl⟩ rfl
  · split
    · split
      · exact .read ‹_› ‹_› ‹_› rfl rfl rfl (loopCalls_concat _ _)
      · exact .stray ‹_› (fun _ => List.getElem?_eq_none_iff.mp ‹_›) rfl
    · exact .stray ‹_› (fun h => absurd h ‹_›) rfl

omit [DecidableEq ι] in
theorem control_step {generation size i : Nat} {c : Control ι κ τ}
    (hphase : d.phase = .onLoop generation size i) (h : d.control fd grow c = some d') :
    RoundStep grow d generation size i (.control c) d' := by
  obtain ⟨d₁, hd, rfl⟩ := control_cases h
  clear h
  have hcalls (log : List (Entry ι κ τ)) : loopCalls (log ++ [.control c]) = loopCalls log := by
    rw [loopCalls_concat]
    cases hd <;> exact List.append_nil _
  cases hd with
  | registerIo | unregisterIo | registerTimeout =>
    refine .idle ⟨rfl, rfl, hcalls _⟩ rfl ?_ fun _ => ?_
    · simp [Roomy, hphase]
    · simp [Spares, hphase]
  | registerLoop =>
    unfold Dispatcher.registerLoopListener
    split
    · rename_i hknown
      refine .idle ⟨rfl, rfl, hcalls _⟩ rfl ?_ fun _ => ?_
      · simp [Roomy, hphase, hknown]
      · simp [Spares, hphase]
    · exact .register ‹_› rfl rfl rfl (hcalls _)
  | unregisterLoop => exact .unregister rfl rfl rfl (hcalls _)

theorem round_step {generation size i : Nat} (hphase : d.phase = .onLoop generation size i)
    (h : step fd grow d op = some d') : RoundStep grow d generation size i op d' := by
  cases step_cases h with
  | control h => exact control_step hphase h
  | closed =>
    refine .idle ⟨rfl, rfl, rfl⟩ rfl ?_ fun _ => ?_
    · simp [Roomy, hphase]
    · simp [Spares, hphase]
  | throws => exact .throws rfl
  | onLoop hp =>
    rw [hphase] at hp
    cases hp
    exact onLoop_step
  | runOnce hp | epollWait hp | interrupted hp | onRead hp | onWrite hp | onTimeout hp =>
    rw [hphase] at hp
    cases hp

theorem Round.not_outside (h : Round fd grow d ops d') : d.phase ≠ .outside := by
  intro hphase
  cases h with
  | ended hended => simp [hphase] at hended
  | next hp =>
    rw [hphase] at hp
    cases hp

/-- Once the vector has new memory, only the last listener may return. -/
theorem Round.inside_iff {generation size i : Nat} (h : Round fd grow d ops d')
    (hphase : d.phase = .onLoop generation size i)
    (hgeneration : generation ≤ d.loopStorage.generation) :
    d'.phase ≠ .undefined ↔ (i + 1 = size ∨ d.loopStorage.generation = generation) ∧
      Runs.Along (step fd grow) Roomy d ops := by
  induction h generalizing i with
  | ended hended => simp [hphase] at hended
  | @next d d₁ d' op ops _ _ _ _ hstep hrest ih =>
    rw [Runs.along_cons hstep]
    cases round_step hphase hstep with
    | idle hkeeps hp hroomy =>
      rw [ih (hp.trans hphase) (hkeeps.storage ▸ hgeneration), hkeeps.storage, and_iff_right hroomy]
    | @register m _ hm hp _ hstorage =>
      by_cases hfull : d.loopListeners.length = d.loopStorage.capacity
      · have hmoved := Storage.generation_insert_full grow hfull
        rw [← hstorage] at hmoved
        rw [ih (hp.trans hphase) (by omega), hmoved]
        simp only [Roomy, hphase]
        constructor
        · rintro ⟨hlast, hrest⟩
          have hlast : i + 1 = size := hlast.resolve_right (by omega)
          exact ⟨.inl hlast, .inl hlast, hrest⟩
        · rintro ⟨-, hroomy, hrest⟩
          exact ⟨.inl (by simpa [hm, hfull] using hroomy), hrest⟩
      · have hsame := hstorage.trans (Storage.insert_room grow hfull)
        have hroomy : Roomy d (.control (.registerLoop m)) := by
          simp only [Roomy, hphase]
          exact .inr (.inr hfull)
        rw [ih (hp.trans hphase) (hsame ▸ hgeneration), hsame, and_iff_right hroomy]
    | @unregister m _ hp _ hstorage =>
      have hroomy : Roomy d (.control (.unregisterLoop m)) := by simp only [Roomy, hphase]
      rw [ih (hp.trans hphase) (hstorage ▸ hgeneration), hstorage, and_iff_right hroomy]
    | @read _ result _ hsize hsame hl hp _ hstorage =>
      obtain ⟨hlt, -⟩ := List.getElem?_eq_some_iff.mp hl
      have hroomy : Roomy d (.returns result) := by
        simp only [Roomy, hphase]
        exact .inr hlt
      rw [ih hp (hstorage ▸ hgeneration), hstorage, and_iff_right hroomy]
      simp [hsame]
    | last hsize _ hp =>
      obtain ⟨rfl, rfl⟩ := hrest.eq_of_ended (.inl hp)
      simp [Roomy, Runs.Along, hphase, hp, hsize]
    | stray hsize hout hp =>
      obtain ⟨rfl, rfl⟩ := hrest.eq_of_ended (.inr hp)
      refine iff_of_false (fun hdefined => hdefined hp) ?_
      rintro ⟨hsame, hroomy, -⟩
      simp only [Roomy, hphase] at hroomy
      have hlen := hout (hsame.resolve_left hsize)
      omega
    | throws hp => exact absurd hp hrest.not_outside

omit [DecidableEq ι] in
/-- How often a listener has been called, or still will be in this round if nothing changes. -/
def Dispatcher.owed (d : Dispatcher ι κ τ) (l : κ) : Nat :=
  match d.phase with
  | .onLoop _ _ i => Cursor.owed (loopCalls d.log) d.loopListeners (i + 1) l
  | _ => (loopCalls d.log).count l

def Covers (stays : κ → Prop) (d : Dispatcher ι κ τ) : Prop :=
  match d.phase with
  | .onLoop _ size _ => ∀ l, stays l → l ∈ d.loopListeners ∧ l ∉ d.loopListeners.drop size
  | _ => True

structure OwedStep (stays : κ → Prop) (d : Dispatcher ι κ τ) (op : Op ι κ τ)
    (d' : Dispatcher ι κ τ) : Prop where
  covers : Covers stays d'
  le : ∀ l, stays l → d'.owed l ≤ d.owed l
  eq_iff : (∀ l, stays l → d'.owed l = d.owed l) ↔ Spares stays d op

section
variable {generation size i : Nat} {stays : κ → Prop}

omit [DecidableEq ι] in
theorem OwedStep.of_eq (hcovers : Covers stays d') (howed : ∀ l, stays l → d'.owed l = d.owed l)
    (hspares : Spares stays d op) : OwedStep stays d op d' :=
  ⟨hcovers, fun l hl => Nat.le_of_eq (howed l hl), iff_of_true howed hspares⟩

section
variable {m : κ} (hphase : d.phase = .onLoop generation size i) (hcovers : Covers stays d)
  (hp : d'.phase = d.phase) (hcalls : loopCalls d'.log = loopCalls d.log)
include hphase hcovers hp hcalls

omit [DecidableEq ι] in
theorem owed_register (hm : m ∉ d.loopListeners)
    (hlisteners : d'.loopListeners = d.loopListeners ++ [m]) :
    OwedStep stays d (.control (.registerLoop m)) d' := by
  simp only [Covers, hphase] at hcovers
  have hne : ∀ l, stays l → m ≠ l := fun l hl hml => hm (hml ▸ (hcovers l hl).1)
  refine .of_eq ?_ (fun l hl => ?_) (by simp only [Spares, hphase])
  · simp only [Covers, hp, hphase, hlisteners]
    intro l hl
    refine ⟨List.mem_append_left _ (hcovers l hl).1, fun hdrop => ?_⟩
    cases Cursor.mem_drop_of_append hdrop with
    | inl hdrop => exact (hcovers l hl).2 hdrop
    | inr hlm => exact hne l hl hlm.symm
  · simp only [Dispatcher.owed, hp, hphase, hlisteners, hcalls]
    exact Cursor.owed_append (hne l hl)

omit [DecidableEq ι] in
theorem owed_unregister (hne : ∀ l, stays l → m ≠ l)
    (hlisteners : d'.loopListeners = d.loopListeners.erase m) :
    OwedStep stays d (.control (.unregisterLoop m)) d' := by
  simp only [Covers, hphase] at hcovers
  have hbefore (l : κ) : d.owed l = Cursor.owed (loopCalls d.log) d.loopListeners (i + 1) l := by
    simp only [Dispatcher.owed, hphase]
  have hafter (l : κ) : d'.owed l =
      Cursor.owed (loopCalls d.log) (d.loopListeners.erase m) (i + 1) l := by
    simp only [Dispatcher.owed, hp, hphase, hlisteners, hcalls]
  refine ⟨?_, fun l hl => ?_, ?_⟩
  · simp only [Covers, hp, hphase, hlisteners]
    intro l hl
    exact ⟨(List.mem_erase_of_ne (hne l hl).symm).mpr (hcovers l hl).1,
      fun hdrop => (hcovers l hl).2 (Cursor.mem_drop_of_erase hdrop)⟩
  · rw [hbefore, hafter]
    exact Cursor.owed_erase_le (hne l hl)
  · have heach : (∀ l, stays l → d'.owed l = d.owed l) ↔ ∀ l, stays l →
        m ∈ d.loopListeners.take (i + 1) → d.loopListeners[i + 1]? ≠ some l := by
      refine forall₂_congr fun l hl => ?_
      rw [hbefore, hafter, Cursor.owed_erase_eq_iff (hne l hl)]
    rw [heach]
    simp only [Spares, hphase]
    exact ⟨fun h hm l hl => h l hl hm, fun h l hl hm => h hm l hl⟩

end

omit [DecidableEq ι] in
theorem owed_step (h : RoundStep grow d generation size i op d')
    (hphase : d.phase = .onLoop generation size i) (hcovers : Covers stays d)
    (hstays : ∀ l, stays l → op ≠ .control (.unregisterLoop l)) (hinside : d'.phase ≠ .undefined)
    (houtside : d'.phase ≠ .outside) : OwedStep stays d op d' := by
  cases h with
  | idle hkeeps hp _ hspares =>
    refine .of_eq ?_ (fun l hl => ?_) (hspares stays)
    · simpa only [Covers, hp, hkeeps.listeners] using hcovers
    · simp only [Dispatcher.owed, hp, hkeeps.listeners, hkeeps.calls]
  | register hm hp hlisteners _ hcalls =>
    exact owed_register hphase hcovers hp hcalls hm hlisteners
  | @unregister m _ hp hlisteners _ hcalls =>
    refine owed_unregister hphase hcovers hp hcalls (fun l hl hml => ?_) hlisteners
    exact hstays m (hml ▸ hl) rfl
  | read _ _ hl hp hlisteners _ hcalls =>
    refine .of_eq ?_ (fun l _ => ?_) (by simp only [Spares, hphase])
    · simpa only [Covers, hp, hphase, hlisteners] using hcovers
    · simp only [Dispatcher.owed, hp, hphase, hlisteners, hcalls]
      exact Cursor.owed_read hl l
  | last hsize hkeeps hp =>
    simp only [Covers, hphase] at hcovers
    refine .of_eq ?_ (fun l hl => ?_) (by simp only [Spares, hphase])
    · simp only [Covers, hp]
    · simp only [Dispatcher.owed, hp, hphase, hkeeps.calls, Cursor.owed, hsize]
      rw [List.count_eq_zero_of_not_mem (hcovers l hl).2, Nat.add_zero]
  | stray _ _ hp => exact absurd hp hinside
  | throws hp => exact absurd hp houtside

/-- No call that is owed is lost if and only if every step spares the listeners that stay. -/
theorem Round.owed_iff (h : Round fd grow d ops d') (hcovers : Covers stays d)
    (hstays : ∀ l, stays l → .control (.unregisterLoop l) ∉ ops) (hinside : d'.phase ≠ .undefined) :
    (∀ l, stays l → d'.owed l ≤ d.owed l) ∧ ((∀ l, stays l → d'.owed l = d.owed l) ↔
      Runs.Along (step fd grow) (Spares stays) d ops) := by
  induction h with
  | ended => exact ⟨fun l _ => Nat.le_refl _, iff_of_true (fun l _ => rfl) trivial⟩
  | @next d d₁ d' op ops _ _ _ hphase hstep hrest ih =>
    have hinside₁ : d₁.phase ≠ .undefined := by
      intro hundefined
      obtain ⟨-, rfl⟩ := hrest.eq_of_ended (.inr hundefined)
      exact hinside hundefined
    have hop : ∀ l, stays l → op ≠ .control (.unregisterLoop l) := by
      rintro l hl rfl
      exact hstays l hl List.mem_cons_self
    obtain ⟨hcovers₁, hle₁, heq₁⟩ :=
      owed_step (round_step hphase hstep) hphase hcovers hop hinside₁ hrest.not_outside
    obtain ⟨hle, heq⟩ :=
      ih hcovers₁ (fun l hl hmem => hstays l hl (List.mem_cons_of_mem op hmem)) hinside
    refine ⟨fun l hl => Nat.le_trans (hle l hl) (hle₁ l hl), ?_⟩
    rw [Runs.along_cons hstep, ← heq₁, ← heq, ← forall₂_and]
    refine forall₂_congr fun l hl => ?_
    have hle := hle l hl
    have hle₁ := hle₁ l hl
    omega

theorem Round.ends (h : Round fd grow d ops d') :
    d'.phase = .epollWait ∨ d'.phase = .undefined := by
  induction h with
  | ended h => exact h
  | next _ _ _ ih => exact ih

theorem Round.owed_eq (h : Round fd grow d ops d') (l : κ) :
    d'.owed l = (loopCalls d'.log).count l := by
  cases h.ends with
  | inl hphase => simp only [Dispatcher.owed, hphase]
  | inr hphase => simp only [Dispatcher.owed, hphase]

omit [DecidableEq ι] [DecidableEq κ] in
theorem runOnce_nil (h : d.loopListeners = []) : d.runOnce.phase = .epollWait := by
  rw [Dispatcher.runOnce, h, List.length_nil, Dispatcher.onLoop, if_pos rfl]

omit [DecidableEq ι] [DecidableEq κ] in
theorem runOnce_cons {first : κ} {rest : List κ} (h : d.loopListeners = first :: rest) :
    d.runOnce = { d with
      phase := .onLoop d.loopStorage.generation d.loopListeners.length 0
      log := d.log ++ [.onLoop first] } := by
  rw [Dispatcher.runOnce, Dispatcher.onLoop, if_neg (by simp [h]), if_pos rfl, h]
  rfl

omit [DecidableEq ι] in
theorem runOnce_owed {first l : κ} {rest : List κ} (h : d.loopListeners = first :: rest)
    (hnodup : d.loopListeners.Nodup) (hl : l ∈ d.loopListeners) :
    d.runOnce.owed l = (loopCalls d.log).count l + 1 := by
  have hread : d.loopListeners[0]? = some first := by simp [h]
  calc d.runOnce.owed l
      = Cursor.owed (loopCalls d.log ++ [first]) d.loopListeners 1 l := by
        simp only [Dispatcher.owed, runOnce_cons h, loopCalls_concat]
        rfl
    _ = Cursor.owed (loopCalls d.log) d.loopListeners 0 l := Cursor.owed_read hread l
    _ = (loopCalls d.log).count l + 1 := by
        rw [Cursor.owed, List.drop_zero, List.count_eq_one_of_mem hnodup hl]

/-- A round goes over the vector as it should if and only if the vector keeps its memory and enough
elements, and no listener takes one out that the round has passed while one that stays is next. -/
theorem loopRound_sound_iff (h : Runs.Reachable (step fd grow) .start d)
    (hphase : d.phase = .outside) (hround : Round fd grow d.runOnce ops d') :
    SoundRound d ops d' ↔ Runs.Along (step fd grow) Roomy d.runOnce ops ∧
      Runs.Along (step fd grow) (Spares (Stays d ops)) d.runOnce ops := by
  have hd := reachable_consistent h
  have hstart : step fd grow d .runOnce = some d.runOnce := by rw [step, hphase]
  have hd' := exec_consistent hround.exec ((step_change hstart).consistent hd)
  cases hlisteners : d.loopListeners with
  | nil =>
    obtain ⟨rfl, rfl⟩ := hround.eq_of_ended (.inl (runOnce_nil hlisteners))
    refine iff_of_true ⟨?_, fun l hl => ?_, hd'.quiet⟩ ⟨trivial, trivial⟩
    · simp [runOnce_nil hlisteners]
    · rw [Stays, hlisteners] at hl
      exact absurd hl.1 List.not_mem_nil
  | cons first rest =>
    have hphase₀ : d.runOnce.phase =
        .onLoop d.loopStorage.generation d.loopListeners.length 0 := by rw [runOnce_cons hlisteners]
    have hstorage : d.runOnce.loopStorage = d.loopStorage := by rw [runOnce_cons hlisteners]
    have hcovers : Covers (Stays d ops) d.runOnce := by
      simp only [Covers, runOnce_cons hlisteners, List.drop_length]
      exact fun l hl => ⟨hl.1, List.not_mem_nil⟩
    have howed (l : κ) (hl : Stays d ops l) :
        d'.owed l = d.runOnce.owed l ↔
          (loopCalls d'.log).count l = (loopCalls d.log).count l + 1 := by
      rw [hround.owed_eq, runOnce_owed hlisteners hd.nodup hl.1]
    have hroomy := hround.inside_iff hphase₀ (Nat.le_of_eq (congrArg _ hstorage.symm))
    rw [hstorage, and_iff_right (.inr rfl)] at hroomy
    constructor
    · rintro ⟨hinside, honce, -⟩
      refine ⟨hroomy.mp hinside, ?_⟩
      rw [← (hround.owed_iff hcovers (fun l hl => hl.2) hinside).2]
      exact fun l hl => (howed l hl).mpr (honce l hl)
    · rintro ⟨hkeeps, hspares⟩
      have hinside := hroomy.mpr hkeeps
      rw [← (hround.owed_iff hcovers (fun l hl => hl.2) hinside).2] at hspares
      exact ⟨hinside, fun l hl => (howed l hl).mp (hspares l hl), hd'.quiet⟩

end

end

def threeListeners : Dispatcher Nat Nat Nat where
  interest _ := none
  loopListeners := [0, 1, 2]
  loopStorage := { capacity := 4, generation := 3 }
  timeoutListeners := .empty
  timeoutStorage := { capacity := 0, generation := 0 }
  clock := Int64.minValue
  phase := .outside
  log := [.control (.registerLoop 0), .control (.registerLoop 1), .control (.registerLoop 2)]
  completed := []

theorem threeListeners_reachable :
    Runs.Reachable (step (fun l : Nat => (l : Int)) doubled) .start threeListeners :=
  ⟨[.control (.registerLoop 0), .control (.registerLoop 1), .control (.registerLoop 2)], rfl⟩

def replacement : List (Op Nat Nat Nat) :=
  [.control (.unregisterLoop 2), .control (.registerLoop 3), .returns true, .returns true,
    .returns true]

theorem replacement_sound :
    ∃ d, Round (fun l : Nat => (l : Int)) doubled threeListeners.runOnce replacement d ∧
      SoundRound threeListeners replacement d := by
  obtain ⟨d, hround⟩ : ∃ d,
      Round (fun l : Nat => (l : Int)) doubled threeListeners.runOnce replacement d := by
    constructor
    iterate 5 apply Round.next rfl rfl
    exact .ended (.inl rfl)
  refine ⟨d, hround,
    (loopRound_sound_iff threeListeners_reachable rfl hround).mpr ⟨?_, ?_⟩⟩
  · refine (Runs.along_cons rfl).mpr ⟨trivial, ?_⟩
    refine (Runs.along_cons rfl).mpr ⟨.inr (.inr (by decide)), ?_⟩
    refine (Runs.along_cons rfl).mpr ⟨.inr (by decide), ?_⟩
    refine (Runs.along_cons rfl).mpr ⟨.inr (by decide), ?_⟩
    exact (Runs.along_cons rfl).mpr ⟨.inl rfl, trivial⟩
  · refine (Runs.along_cons rfl).mpr ⟨fun htaken => absurd htaken (by decide), ?_⟩
    iterate 4 refine (Runs.along_cons rfl).mpr ⟨trivial, ?_⟩
    trivial

def selfRemoval : List (Op Nat Nat Nat) :=
  [.control (.unregisterLoop 0), .returns true, .returns true]

theorem selfRemoval_unsound : ¬ ∀ d,
    Round (fun l : Nat => (l : Int)) doubled threeListeners.runOnce selfRemoval d →
      SoundRound threeListeners selfRemoval d := by
  intro h
  obtain ⟨d, hround, hphase⟩ : ∃ d,
      Round (fun l : Nat => (l : Int)) doubled threeListeners.runOnce selfRemoval d ∧
        d.phase = .undefined := by
    constructor
    constructor
    · iterate 3 apply Round.next rfl rfl
      exact .ended (.inr rfl)
    · rfl
  exact (h d hround).inside hphase

end Flyzero.EventDispatch
