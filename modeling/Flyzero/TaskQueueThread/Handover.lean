import Flyzero.CircularQueue.Queue
import Flyzero.Lib.Runs

/-! `task_queue_thread` with the index steps of `circular_queue` taken apart from the construction
and the destruction of the element. -/
namespace Flyzero.TaskQueueThread.Handover
open CircularQueue
variable {τ : Type*}

/-- Where `task_queue_thread::push` stands: before its own full test, before the one of
`circular_queue::push`, before the increment of `widx_`, before the construction in the slot of
the old index, before the size test and before the post. -/
inductive PushPc (τ : Type*) where
  | idle
  | full (t : τ)
  | fullAgain (t : τ)
  | increment (t : τ)
  | construct (t : τ) (idx : BitVec 64)
  | size
  | post

inductive WorkPc where
  | empty
  | wait
  | run
  | emptyAgain (fin : Bool)
  | increment (fin : Bool)
  | destroy (fin : Bool) (idx : BitVec 64)
  | count (fin : Bool)
  | exit (fin : Bool)
  | done

/-- A slot goes by its masked index and holds the task pointer constructed there, if any. -/
structure Machine (τ : Type*) where
  queue : Queue
  slots : Nat → Option τ
  sema : Nat
  pusher : PushPc τ
  worker : WorkPc
  processedTaskNum : Nat

def start (queue : Queue) : Machine τ :=
  { queue, slots := fun _ => none, sema := 0, pusher := .idle, worker := .empty,
    processedTaskNum := 0 }

inductive Event (τ : Type*) where
  | call (t : τ)
  | pusher
  | worker (fin : Bool)

def slotOf (q : Queue) (idx : BitVec 64) : Nat := (idx &&& q.mask).toNat

def pushStep (m : Machine τ) : Option (Machine τ) :=
  match m.pusher with
  | .idle => none
  | .full t => some { m with pusher := if m.queue.full then .idle else .fullAgain t }
  | .fullAgain t => some { m with pusher := if m.queue.full then .size else .increment t }
  | .increment t =>
    some { m with
      queue := { m.queue with widx := m.queue.widx + 1#64 }
      pusher := .construct t m.queue.widx }
  | .construct t idx =>
    some { m with
      slots := Function.update m.slots (slotOf m.queue idx) (some t)
      pusher := .size }
  | .size => some { m with pusher := if m.queue.size = 1#64 then .post else .idle }
  | .post => some { m with sema := m.sema + 1, pusher := .idle }

def workStep (m : Machine τ) (fin : Bool) : Option (Machine τ) :=
  match m.worker with
  | .empty => some { m with worker := if m.queue.empty then .wait else .run }
  | .wait => if m.sema = 0 then none else some { m with sema := m.sema - 1, worker := .empty }
  | .run => some { m with worker := .emptyAgain fin }
  | .emptyAgain fin =>
    some { m with worker := if m.queue.empty then .count fin else .increment fin }
  | .increment fin =>
    some { m with
      queue := { m.queue with ridx := m.queue.ridx + 1#64 }
      worker := .destroy fin m.queue.ridx }
  | .destroy fin idx =>
    some { m with
      slots := Function.update m.slots (slotOf m.queue idx) none
      worker := .count fin }
  | .count fin =>
    some { m with processedTaskNum := m.processedTaskNum + 1, worker := .exit fin }
  | .exit fin => some { m with worker := if fin then .empty else .done }
  | .done => none

def step (m : Machine τ) : Event τ → Option (Machine τ)
  | .call t =>
    match m.pusher with
    | .idle => some { m with pusher := .full t }
    | _ => none
  | .pusher => pushStep m
  | .worker fin => workStep m fin

/-- The step neither runs a task that is not there nor constructs over one that still is. -/
def Sound (m : Machine τ) : Event τ → Prop
  | .call _ => True
  | .pusher => ∀ t idx, m.pusher = .construct t idx → m.slots (slotOf m.queue idx) = none
  | .worker _ => m.worker = .run → m.slots (slotOf m.queue m.queue.ridx) ≠ none

/-- The index of a slot is not seen ahead of the slot: the worker runs no task while a push stands
between its increment and its construction of the only element, and a push constructs nothing
while the queue is full and the worker stands between its increment and its destruction. -/
def Settled (m : Machine τ) : Event τ → Prop
  | .call _ => True
  | .pusher => (∃ t idx, m.pusher = .construct t idx) → (∃ fin idx, m.worker = .destroy fin idx) →
      m.queue.full = false
  | .worker _ => m.worker = .run → (∃ t idx, m.pusher = .construct t idx) → m.queue.size ≠ 1#64

def Made (k lo hi made : Nat) : PushPc τ → Prop
  | .construct _ idx => idx = BitVec.ofNat 64 made ∧ hi = made + 1
  | .increment _ => made = hi ∧ hi < lo + 2 ^ k
  | _ => made = hi

def Left (lo hi made left : Nat) : WorkPc → Prop
  | .destroy _ idx => idx = BitVec.ofNat 64 left ∧ lo = left + 1
  | .emptyAgain _ | .increment _ => left = lo ∧ lo < made
  | .run => left = lo ∧ lo < hi
  | _ => left = lo

structure Objects (k : Nat) (m : Machine τ) (lo hi left made : Nat) : Prop where
  indices : At m.queue k lo hi
  pusher : Made k lo hi made m.pusher
  worker : Left lo hi made left m.worker
  le : lo ≤ made
  room : made ≤ left + 2 ^ k
  slots : ∀ s, m.slots s ≠ none ↔ ∃ p, left ≤ p ∧ p < made ∧ p % 2 ^ k = s

def Inv (k : Nat) (m : Machine τ) : Prop := ∃ lo hi left made, Objects k m lo hi left made

theorem start_inv {q : Queue} {k : Nat} (h : At q k 0 0) : Inv k (start q : Machine τ) :=
  ⟨0, 0, 0, 0, h, rfl, rfl, Nat.le_refl 0, Nat.zero_le _, fun s => by simp [start]⟩

section
variable {k lo hi left made : Nat}

theorem Made.le {pc : PushPc τ} (h : Made k lo hi made pc) : made ≤ hi := by
  cases pc with
  | construct t idx => have := h.2; omega
  | increment t => exact h.1.le
  | idle | full _ | fullAgain _ | size | post => exact Nat.le_of_eq h

theorem Made.construct_of_lt {pc : PushPc τ} (h : Made k lo hi made pc) (hlt : made < hi) :
    ∃ t idx, pc = .construct t idx ∧ hi = made + 1 := by
  cases pc with
  | construct t idx => exact ⟨t, idx, rfl, h.2⟩
  | increment t => exact absurd h.1 hlt.ne
  | idle | full _ | fullAgain _ | size | post => exact absurd h hlt.ne

theorem Made.pop {pc : PushPc τ} (h : Made k lo hi made pc) : Made k (lo + 1) hi made pc := by
  cases pc with
  | increment t => exact ⟨h.1, by have := h.2; omega⟩
  | construct t idx => exact h
  | idle | full _ | fullAgain _ | size | post => exact h

theorem Left.destroy_of_lt {pc : WorkPc} (h : Left lo hi made left pc) (hlt : left < lo) :
    ∃ fin idx, pc = .destroy fin idx ∧ lo = left + 1 := by
  cases pc with
  | destroy fin idx => exact ⟨fin, idx, rfl, h.2⟩
  | emptyAgain _ | increment _ | run => exact absurd h.1 hlt.ne
  | empty | wait | count _ | exit _ | done => exact absurd h hlt.ne

theorem Left.bounds {pc : WorkPc} (h : Left lo hi made left pc) : left ≤ lo ∧ lo ≤ left + 1 := by
  cases pc with
  | destroy fin idx => have := h.2; omega
  | emptyAgain _ | increment _ | run => have := h.1; omega
  | empty | wait | count _ | exit _ | done => have : left = lo := h; omega

theorem Left.push {pc : WorkPc} (h : Left lo hi made left pc) {hi' made' : Nat} (hhi : hi ≤ hi')
    (hmade : made ≤ made') : Left lo hi' made' left pc := by
  cases pc with
  | emptyAgain _ | increment _ => exact ⟨h.1, Nat.lt_of_lt_of_le h.2 hmade⟩
  | run => exact ⟨h.1, Nat.lt_of_lt_of_le h.2 hhi⟩
  | destroy fin idx => exact h
  | empty | wait | count _ | exit _ | done => exact h

end

section
variable {k lo hi left made : Nat} {m : Machine τ}

/-- The slot of position `made` is taken only when it is a lap ahead of the oldest object. -/
theorem Objects.slot_made (h : Objects k m lo hi left made) :
    m.slots (made % 2 ^ k) ≠ none ↔ made = left + 2 ^ k := by
  have hroom := h.room
  have hpos := Nat.two_pow_pos k
  rw [h.slots]
  constructor
  · rintro ⟨p, hle, hlt, hmod⟩
    by_contra hne
    have := Window.slot_inj (n := 2 ^ k) (by omega) (by omega) hmod
    omega
  · intro heq
    exact ⟨left, Nat.le_refl _, by omega, by rw [heq, Nat.add_mod_right]⟩

theorem Objects.slot_left (h : Objects k m lo hi left made) :
    m.slots (left % 2 ^ k) ≠ none ↔ left < made := by
  have hroom := h.room
  rw [h.slots]
  constructor
  · rintro ⟨p, hle, hlt, -⟩
    omega
  · intro hlt
    exact ⟨left, Nat.le_refl _, hlt, rfl⟩

theorem Objects.size_eq_one (h : Objects k m lo hi left made) :
    m.queue.size = 1#64 ↔ hi = lo + 1 := by
  have hle := h.indices.le
  rw [← BitVec.toNat_inj, h.indices.size_toNat]
  change hi - lo = 1 ↔ _
  omega

theorem Objects.sound_iff (h : Objects k m lo hi left made) (e : Event τ) :
    Sound m e ↔ Settled m e := by
  have hle := h.le
  have hleft := h.worker.bounds
  have hmade := h.pusher.le
  cases e with
  | call t => exact Iff.rfl
  | pusher =>
    constructor
    · rintro hsound ⟨t, idx, hpc⟩ ⟨fin, jdx, hw⟩
      have hm := h.pusher
      have hl := h.worker
      rw [hpc] at hm
      rw [hw] at hl
      have hfree := hsound t idx hpc
      rw [hm.1, slotOf, h.indices.slot] at hfree
      have hlap : made ≠ left + 2 ^ k := fun heq => h.slot_made.mpr heq hfree
      rw [Bool.eq_false_iff, Ne, h.indices.full_iff]
      have := hm.2
      have := hl.2
      omega
    · intro hsettled t idx hpc
      have hm := h.pusher
      rw [hpc] at hm
      rw [hm.1, slotOf, h.indices.slot]
      by_contra htaken
      have hlap := h.slot_made.mp htaken
      have hroom := h.indices.room
      have hhi := hm.2
      obtain ⟨fin, jdx, hw, hlo⟩ := h.worker.destroy_of_lt (by omega)
      have hfull := hsettled ⟨t, idx, hpc⟩ ⟨fin, jdx, hw⟩
      rw [Bool.eq_false_iff, Ne, h.indices.full_iff] at hfull
      omega
  | worker fin =>
    constructor
    · rintro hsound hw ⟨t, idx, hpc⟩
      have hm := h.pusher
      have hl := h.worker
      rw [hpc] at hm
      rw [hw] at hl
      have hthere := hsound hw
      rw [h.indices.ridx, slotOf, h.indices.slot, ← hl.1, h.slot_left] at hthere
      rw [Ne, h.size_eq_one]
      have := hm.2
      have := hl.1
      omega
    · intro hsettled hw
      have hl := h.worker
      rw [hw] at hl
      rw [h.indices.ridx, slotOf, h.indices.slot, ← hl.1, h.slot_left]
      by_contra hnone
      have := hl.1
      have := hl.2
      obtain ⟨t, idx, hpc, hhi⟩ := h.pusher.construct_of_lt (by omega)
      exact hsettled hw ⟨t, idx, hpc⟩ (h.size_eq_one.mpr (by omega))

theorem Objects.construct (h : Objects k m lo hi left made) (t : τ) (s : Nat) :
    Function.update m.slots (made % 2 ^ k) (some t) s ≠ none ↔
      ∃ p, left ≤ p ∧ p < made + 1 ∧ p % 2 ^ k = s := by
  have hle := h.le
  have hbounds := h.worker.bounds
  rcases Decidable.em (s = made % 2 ^ k) with rfl | hne
  · rw [Function.update_self]
    exact ⟨fun _ => ⟨made, by omega, by omega, rfl⟩, fun _ => nofun⟩
  · rw [Function.update_of_ne hne, h.slots]
    constructor
    · rintro ⟨p, hp, hlt, hmod⟩
      exact ⟨p, hp, by omega, hmod⟩
    · rintro ⟨p, hp, hlt, hmod⟩
      have : p ≠ made := fun heq => hne (by rw [← hmod, heq])
      exact ⟨p, hp, by omega, hmod⟩

theorem Objects.destroy (h : Objects k m lo hi left made) (s : Nat) :
    Function.update m.slots (left % 2 ^ k) none s ≠ none ↔
      ∃ p, left + 1 ≤ p ∧ p < made ∧ p % 2 ^ k = s := by
  have hroom := h.room
  rcases Decidable.em (s = left % 2 ^ k) with rfl | hne
  · rw [Function.update_self]
    refine ⟨fun hn => absurd rfl hn, ?_⟩
    rintro ⟨p, hp, hlt, hmod⟩
    have := Window.slot_inj (n := 2 ^ k) (by omega) (by omega) hmod
    omega
  · rw [Function.update_of_ne hne, h.slots]
    constructor
    · rintro ⟨p, hp, hlt, hmod⟩
      have : p ≠ left := fun heq => hne (by rw [← hmod, heq])
      exact ⟨p, by omega, hlt, hmod⟩
    · rintro ⟨p, hp, hlt, hmod⟩
      exact ⟨p, by omega, hlt, hmod⟩

theorem Objects.goes {m' : Machine τ} (h : Objects k m lo hi left made)
    (hqueue : m'.queue = m.queue) (hslots : m'.slots = m.slots)
    (hpusher : Made k lo hi made m'.pusher) (hworker : Left lo hi made left m'.worker) :
    Inv k m' := by
  refine ⟨lo, hi, left, made, ?_, hpusher, hworker, h.le, h.room, ?_⟩
  · rw [hqueue]
    exact h.indices
  · rw [hslots]
    exact h.slots

theorem pushStep_inv {m' : Machine τ} (hstep : pushStep m = some m') (hsound : Sound m .pusher)
    (h : Objects k m lo hi left made) : Inv k m' := by
  have hpusher := h.pusher
  unfold pushStep at hstep
  split at hstep
  · cases hstep
  · rename_i t hpc
    cases hstep
    rw [hpc] at hpusher
    refine h.goes rfl rfl ?_ h.worker
    split <;> exact hpusher
  · rename_i t hpc
    cases hstep
    rw [hpc] at hpusher
    refine h.goes rfl rfl ?_ h.worker
    split
    · exact hpusher
    · rename_i hfull
      have hne := mt h.indices.full_iff.mpr hfull
      have hroom := h.indices.room
      exact ⟨hpusher, by omega⟩
  · rename_i t hpc
    cases hstep
    rw [hpc] at hpusher
    have hfull : ¬ m.queue.full = true := by
      rw [h.indices.full_iff]
      have := hpusher.2
      omega
    refine ⟨lo, hi + 1, left, made, h.indices.push hfull, ⟨?_, by rw [hpusher.1]⟩,
      h.worker.push (Nat.le_succ _) (Nat.le_refl _), h.le, h.room, h.slots⟩
    rw [hpusher.1]
    exact h.indices.widx
  · rename_i t idx hpc
    cases hstep
    rw [hpc] at hpusher
    have hfree := hsound t idx hpc
    rw [hpusher.1, slotOf, h.indices.slot] at hfree
    have hlap : made ≠ left + 2 ^ k := fun heq => h.slot_made.mpr heq hfree
    have hroom := h.room
    have hle := h.le
    refine ⟨lo, hi, left, made + 1, h.indices, hpusher.2.symm,
      h.worker.push (Nat.le_refl _) (Nat.le_succ _), by omega, by omega, ?_⟩
    dsimp only
    rw [hpusher.1, slotOf, h.indices.slot]
    exact h.construct t
  · rename_i hpc
    cases hstep
    rw [hpc] at hpusher
    refine h.goes rfl rfl ?_ h.worker
    split <;> exact hpusher
  · rename_i hpc
    cases hstep
    rw [hpc] at hpusher
    exact h.goes rfl rfl hpusher h.worker

theorem workStep_inv {m' : Machine τ} {fin : Bool} (hstep : workStep m fin = some m')
    (hsound : Sound m (.worker fin)) (h : Objects k m lo hi left made) : Inv k m' := by
  have hworker := h.worker
  have hle := h.le
  unfold workStep at hstep
  split at hstep
  · rename_i hpc
    cases hstep
    rw [hpc] at hworker
    refine h.goes rfl rfl h.pusher ?_
    split
    · exact hworker
    · rename_i hempty
      have hne := mt h.indices.empty_iff.mpr hempty
      have hlo := h.indices.le
      exact ⟨hworker, by omega⟩
  · rename_i hpc
    split at hstep <;> cases hstep
    rw [hpc] at hworker
    exact h.goes rfl rfl h.pusher hworker
  · rename_i hpc
    cases hstep
    rw [hpc] at hworker
    -- the task that is run is there, so it stays until it is popped
    have hthere := hsound hpc
    rw [h.indices.ridx, slotOf, h.indices.slot, ← hworker.1, h.slot_left] at hthere
    have := hworker.1
    exact h.goes rfl rfl h.pusher ⟨hworker.1, by omega⟩
  · rename_i fin' hpc
    cases hstep
    rw [hpc] at hworker
    refine h.goes rfl rfl h.pusher ?_
    split
    · exact hworker.1
    · exact hworker
  · rename_i fin' hpc
    cases hstep
    rw [hpc] at hworker
    have hempty : ¬ m.queue.empty = true := by
      rw [h.indices.empty_iff]
      have := hworker.2
      have := h.pusher.le
      omega
    refine ⟨lo + 1, hi, left, made, h.indices.pop hempty, h.pusher.pop, ⟨?_, by rw [hworker.1]⟩,
      hworker.2, h.room, h.slots⟩
    rw [hworker.1]
    exact h.indices.ridx
  · rename_i fin' idx hpc
    cases hstep
    rw [hpc] at hworker
    have hroom := h.room
    have hlo := hworker.2
    refine ⟨lo, hi, left + 1, made, h.indices, h.pusher, hlo.symm, h.le, by omega, ?_⟩
    dsimp only
    rw [hworker.1, slotOf, h.indices.slot]
    exact h.destroy
  · rename_i fin' hpc
    cases hstep
    rw [hpc] at hworker
    exact h.goes rfl rfl h.pusher hworker
  · rename_i fin' hpc
    cases hstep
    rw [hpc] at hworker
    refine h.goes rfl rfl h.pusher ?_
    cases fin' <;> exact hworker
  · cases hstep

end

theorem step_inv {k : Nat} (m : Machine τ) (e : Event τ) (m' : Machine τ)
    (hstep : step m e = some m') (hsound : Sound m e) (h : Inv k m) : Inv k m' := by
  obtain ⟨lo, hi, left, made, h⟩ := h
  cases e with
  | call t =>
    simp only [step] at hstep
    split at hstep <;> cases hstep
    rename_i hpc
    have hpusher := h.pusher
    rw [hpc] at hpusher
    exact h.goes rfl rfl hpusher h.worker
  | pusher => exact pushStep_inv hstep hsound h
  | worker fin => exact workStep_inv hstep hsound h

/-- A run exposes no half-made element exactly when no index is seen ahead of its slot. -/
theorem sound_iff_settled {sizeof : Nat} {allocator : BitVec 64 → Nat} {capacity : BitVec 64}
    {q : Queue} (hcreate : create sizeof allocator capacity = some q) (es : List (Event τ)) :
    Runs.Along step Sound (start q) es ↔ Runs.Along step Settled (start q) es := by
  obtain ⟨k, hat⟩ := create_at hcreate
  have hagree : ∀ (m : Machine τ) e, Inv k m → (Sound m e ↔ Settled m e) := by
    rintro m e ⟨lo, hi, left, made, h⟩
    exact h.sound_iff e
  exact Runs.along_iff hagree step_inv (start_inv hat) es

def twoSlots : Queue := { capacity := 2, mask := 1, buffer := 4096, ridx := 0, widx := 0 }

def incremented : List (Event Nat) := [.call 1, .pusher, .pusher, .pusher, .worker true]

def lapped : List (Event Nat) :=
  [.call 1, .pusher, .pusher, .pusher, .pusher, .pusher, .pusher,
   .call 2, .pusher, .pusher, .pusher, .pusher, .pusher,
   .worker true, .worker true, .worker true, .worker true,
   .call 3, .pusher, .pusher, .pusher]

theorem incremented_sound_iff_settled : create 40 (fun _ => 4096) 2 = some twoSlots ∧
    (Runs.Along step Sound (start twoSlots) incremented ↔
      Runs.Along step Settled (start twoSlots) incremented) := by
  have hcreate : create 40 (fun _ => 4096) 2 = some twoSlots := by decide
  exact ⟨hcreate, sound_iff_settled hcreate incremented⟩

/-- The worker runs a task that is not constructed yet, and a push constructs one over a task that
is not destroyed yet. -/
theorem handover_not_sound : create 40 (fun _ => 4096) 2 = some twoSlots ∧
    ¬ Runs.Along step Sound (start twoSlots) (incremented ++ [.worker true]) ∧
    ¬ Runs.Along step Sound (start twoSlots) (lapped ++ [.pusher]) := by
  refine ⟨by decide, fun h => ?_, fun h => ?_⟩
  · obtain ⟨m, hm, hpc, hslot⟩ : ∃ m, Runs.exec step (start twoSlots) incremented = some m ∧
        m.worker = .run ∧ m.slots (slotOf m.queue m.queue.ridx) = none := ⟨_, rfl, rfl, rfl⟩
    exact h.holds hm hpc hslot
  · obtain ⟨m, hm, hpc, hslot⟩ : ∃ m, Runs.exec step (start twoSlots) lapped = some m ∧
        m.pusher = .construct 3 2 ∧ m.slots (slotOf m.queue 2) = some 1 := ⟨_, rfl, rfl, rfl⟩
    have hfree := h.holds hm 3 2 hpc
    rw [hslot] at hfree
    cases hfree

end Flyzero.TaskQueueThread.Handover
