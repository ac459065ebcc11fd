import Flyzero.Lib.BinHeap
import Flyzero.Lib.Loop
import Mathlib.Algebra.Group.Int.Defs
import Mathlib.Data.Multiset.Filter

/-! `event_dispatch::on_timeout` over the queue of timeout listeners. -/
namespace Flyzero.EventDispatch
variable {ι : Type*}

/-- The times are signed 64-bit ticks of `steady_clock`. -/
structure TimeoutListenerWrapper (ι : Type*) where
  listener : ι
  deadline : Int64
  interval : Int64

def TimeoutListenerWrapper.create (listener : ι) (now interval : Int64) :
    TimeoutListenerWrapper ι :=
  { listener, deadline := now + interval, interval }

/-- `operator>` -/
def TimeoutListenerWrapper.gt (a b : TimeoutListenerWrapper ι) : Bool := a.deadline > b.deadline

instance : BinHeap.StrictWeak (@TimeoutListenerWrapper.gt ι) where
  asymm a b h := by
    simp only [TimeoutListenerWrapper.gt, gt_iff_lt, decide_eq_true_eq, decide_eq_false_iff_not,
      Int64.lt_iff_toInt_lt] at h ⊢
    omega
  trans a b c hab hbc := by
    simp only [TimeoutListenerWrapper.gt, gt_iff_lt, decide_eq_false_iff_not,
      Int64.lt_iff_toInt_lt] at hab hbc ⊢
    omega

abbrev TimeoutListenerQueue (ι : Type*) :=
  PriorityQueue (TimeoutListenerWrapper ι) TimeoutListenerWrapper.gt

/-- The queue, and the entries whose listener has been called with what it returned. -/
structure Dispatch (ι : Type*) where
  timeoutListeners : TimeoutListenerQueue ι
  calls : List (TimeoutListenerWrapper ι × Bool)

/-- One round of the loop of `on_timeout`; `onTimeout` answers a call after the ones before it. -/
def timeoutRound
    (onTimeout : List (TimeoutListenerWrapper ι × Bool) → TimeoutListenerWrapper ι → Bool)
    (now : Int64) (s : Dispatch ι) : Dispatch ι ⊕ Dispatch ι :=
  match s.timeoutListeners.top? with
  | none => .inr s
  | some wrapper =>
    if wrapper.deadline > now then .inr s
    else
      let result := onTimeout s.calls wrapper
      let listeners :=
        if result then
          s.timeoutListeners.push (.create wrapper.listener now wrapper.interval)
        else s.timeoutListeners
      .inl { timeoutListeners := listeners.pop, calls := s.calls ++ [(wrapper, result)] }

def Due (now : Int64) (w : TimeoutListenerWrapper ι) : Prop := w.deadline ≤ now

instance (now : Int64) : DecidablePred (@Due ι now) := fun w =>
  inferInstanceAs (Decidable (w.deadline ≤ now))

def rearmed (now : Int64) (calls : List (TimeoutListenerWrapper ι × Bool)) :
    List (TimeoutListenerWrapper ι) :=
  (calls.filter (·.2)).map fun c => .create c.1.listener now c.1.interval

/-- What `on_timeout` owes the entries of the queue `q`. -/
structure Served (now : Int64) (q : TimeoutListenerQueue ι) (s : Dispatch ι) : Prop where
  called : (s.calls.map (·.1) : Multiset _) = q.entries.filter (Due now)
  ordered : s.calls.Pairwise fun a b => a.1.deadline ≤ b.1.deadline
  queue : s.timeoutListeners.entries =
    q.entries.filter (¬ Due now ·) + (rearmed now s.calls : Multiset _)

def Sane (now : Int64) (q : TimeoutListenerQueue ι) : Prop :=
  ∀ w ∈ q.entries, Due now w → 0 < w.interval.toInt ∧ now.toInt + w.interval.toInt < 2 ^ 63

theorem create_not_due {now interval : Int64} (listener : ι) (hpos : 0 < interval.toInt)
    (hfits : now.toInt + interval.toInt < 2 ^ 63) :
    ¬ Due now (TimeoutListenerWrapper.create listener now interval) := by
  have hlow := now.le_toInt
  rw [Due, TimeoutListenerWrapper.create, Int64.le_iff_toInt_le, Int64.toInt_add,
    Int.bmod_eq_of_le (by omega) (by omega)]
  omega

/-- What is due now is not due when it is put back. -/
def Settles (now : Int64) (q : TimeoutListenerQueue ι) : Prop :=
  ∀ w ∈ q.entries, Due now w → ¬ Due now (.create w.listener now w.interval)

theorem Sane.settles {now : Int64} {q : TimeoutListenerQueue ι} (h : Sane now q) :
    Settles now q := by
  intro w hw hdue
  obtain ⟨hpos, hfits⟩ := h w hw hdue
  exact create_not_due w.listener hpos hfits

/-- Where the loop stands: `rest` is due and not called yet. -/
structure Progress (now : Int64) (q : TimeoutListenerQueue ι) (s : Dispatch ι)
    (rest : Multiset (TimeoutListenerWrapper ι)) : Prop where
  due : q.entries.filter (Due now) = (s.calls.map (·.1) : Multiset _) + rest
  queue : s.timeoutListeners.entries =
    rest + q.entries.filter (¬ Due now ·) + (rearmed now s.calls : Multiset _)
  ordered : s.calls.Pairwise fun a b => a.1.deadline ≤ b.1.deadline
  before : ∀ c ∈ s.calls, ∀ w ∈ rest, c.1.deadline ≤ w.deadline

section
variable {now : Int64} {q : TimeoutListenerQueue ι} {s : Dispatch ι}
  {rest : Multiset (TimeoutListenerWrapper ι)}

theorem Progress.due_of_mem (h : Progress now q s rest) {w : TimeoutListenerWrapper ι}
    (hw : w ∈ rest) : Due now w := by
  have hmem : w ∈ q.entries.filter (Due now) := h.due ▸ Multiset.mem_add.mpr (.inr hw)
  exact (Multiset.mem_filter.mp hmem).2

theorem Progress.not_due_of_rearmed (h : Progress now q s rest) (hsettles : Settles now q)
    {w : TimeoutListenerWrapper ι} (hw : w ∈ rearmed now s.calls) : ¬ Due now w := by
  obtain ⟨c, hc, rfl⟩ := List.mem_map.mp hw
  have hcall : c.1 ∈ s.calls.map (·.1) := List.mem_map_of_mem (List.mem_of_mem_filter hc)
  have hmem : c.1 ∈ q.entries.filter (Due now) := h.due ▸ Multiset.mem_add.mpr (.inl hcall)
  obtain ⟨hin, hdue⟩ := Multiset.mem_filter.mp hmem
  exact hsettles c.1 hin hdue

theorem Progress.filter_due (h : Progress now q s rest) (hsettles : Settles now q) :
    s.timeoutListeners.entries.filter (Due now) = rest := by
  have hrest : rest.filter (Due now) = rest :=
    Multiset.filter_eq_self.mpr fun w hw => h.due_of_mem hw
  have hkept : (q.entries.filter (¬ Due now ·)).filter (Due now) = 0 :=
    Multiset.filter_eq_nil.mpr fun w hw => (Multiset.mem_filter.mp hw).2
  have hrearmed : Multiset.filter (Due now) (rearmed now s.calls : Multiset _) = 0 :=
    Multiset.filter_eq_nil.mpr fun w hw => h.not_due_of_rearmed hsettles hw
  rw [h.queue, Multiset.filter_add, Multiset.filter_add, hrest, hkept, hrearmed,
    Multiset.add_zero, Multiset.add_zero]

theorem Progress.served (h : Progress now q s 0) : Served now q s where
  called := by rw [h.due, Multiset.add_zero]
  ordered := h.ordered
  queue := by rw [h.queue, Multiset.zero_add]

theorem le_of_gt_eq_false {a b : TimeoutListenerWrapper ι} (h : a.gt b = false) :
    a.deadline ≤ b.deadline := Int64.not_lt.mp (of_decide_eq_false h)

theorem gt_eq_false_of_due {a b : TimeoutListenerWrapper ι} (ha : Due now a) (hb : ¬ Due now b) :
    a.gt b = false := by
  have hlt : a.deadline < b.deadline := Int64.lt_of_le_of_lt ha (Int64.not_le.mp hb)
  exact decide_eq_false (Int64.lt_asymm hlt)

theorem not_due_of_later {t : TimeoutListenerWrapper ι} (htop : q.top? = some t)
    (hlater : t.deadline > now) : ∀ w ∈ q.entries, ¬ Due now w := by
  intro w hw hdue
  have hle := le_of_gt_eq_false (PriorityQueue.top?_le htop hw)
  exact Int64.not_le.mpr hlater (Int64.le_trans hle hdue)

/-- A call takes the top from what is still due, whatever the listener answers. -/
theorem Progress.call (h : Progress now q s rest) (hsettles : Settles now q)
    {w : TimeoutListenerWrapper ι} (htop : s.timeoutListeners.top? = some w) (hdue : Due now w)
    (result : Bool) :
    ∃ rest', rest = w ::ₘ rest' ∧
      Progress now q
        { timeoutListeners :=
            (if result then s.timeoutListeners.push (.create w.listener now w.interval)
              else s.timeoutListeners).pop
          calls := s.calls ++ [(w, result)] } rest' := by
  have hmem := PriorityQueue.top?_mem htop
  have hrest : w ∈ rest := h.filter_due hsettles ▸ Multiset.mem_filter.mpr ⟨hmem, hdue⟩
  obtain ⟨rest', rfl⟩ := Multiset.exists_cons_of_mem hrest
  refine ⟨rest', rfl, ?_, ?_, ?_, ?_⟩
  · rw [h.due, List.map_append, ← Multiset.coe_add, Multiset.add_assoc, ← Multiset.singleton_add]
    rfl
  · have hqueue := h.queue
    rw [Multiset.cons_add, Multiset.cons_add, PriorityQueue.entries_pop htop] at hqueue
    have hpop := (Multiset.cons_inj_right w).mp hqueue
    cases result with
    | false =>
      rw [rearmed, List.filter_append, List.filter_cons_of_neg (by simp), List.filter_nil,
        List.append_nil]
      exact hpop
    | true =>
      -- the new entry is later than the top, so the top that is popped is the one that was called
      obtain ⟨x, hx⟩ : ∃ x, TimeoutListenerWrapper.create w.listener now w.interval = x := ⟨_, rfl⟩
      have hxdue : ¬ Due now x := by
        have hw : w ∈ q.entries.filter (Due now) := h.due ▸ Multiset.mem_add.mpr (.inr hrest)
        exact hx ▸ hsettles w (Multiset.mem_filter.mp hw).1 hdue
      have hpush := PriorityQueue.entries_pop_push htop (gt_eq_false_of_due hdue hxdue)
      rw [rearmed, List.filter_append, List.filter_cons_of_pos rfl, List.filter_nil,
        List.map_append, List.map_singleton, ← Multiset.coe_add, ← Multiset.add_assoc]
      simp only [hx, if_true, hpush, hpop]
      rw [← Multiset.singleton_add, Multiset.add_comm]
      rfl
  · rw [List.pairwise_append]
    refine ⟨h.ordered, List.pairwise_singleton _ _, fun c hc d hd => ?_⟩
    rw [List.mem_singleton.mp hd]
    exact h.before c hc w hrest
  · intro c hc x hx
    rcases List.mem_append.mp hc with hc | hc
    · exact h.before c hc x (Multiset.mem_cons_of_mem hx)
    · rw [List.mem_singleton.mp hc]
      have hx : x ∈ s.timeoutListeners.entries := by
        rw [h.queue, Multiset.add_assoc]
        exact Multiset.mem_add.mpr (.inl (Multiset.mem_cons_of_mem hx))
      exact le_of_gt_eq_false (PriorityQueue.top?_le htop hx)

theorem timeoutRound_progress (hsettles : Settles now q)
    (onTimeout : List (TimeoutListenerWrapper ι × Bool) → TimeoutListenerWrapper ι → Bool)
    (s : Dispatch ι) (h : ∃ rest, Progress now q s rest) :
    Loop.Round (fun s => ∃ rest, Progress now q s rest)
      (fun s => (s.timeoutListeners.entries.filter (Due now)).card) (Served now q) s
      (timeoutRound onTimeout now s) := by
  obtain ⟨rest, h⟩ := h
  have hfilter := h.filter_due hsettles
  unfold timeoutRound
  split
  · rename_i htop
    rw [PriorityQueue.top?_eq_none.mp htop, Multiset.filter_zero] at hfilter
    subst hfilter
    exact h.served
  · rename_i w htop
    split
    · rename_i hlater
      rw [Multiset.filter_eq_nil.mpr (not_due_of_later htop hlater)] at hfilter
      subst hfilter
      exact h.served
    · rename_i hnow
      have hdue : Due now w := Int64.not_lt.mp hnow
      obtain ⟨rest', rfl, h'⟩ := h.call hsettles htop hdue (onTimeout s.calls w)
      refine ⟨⟨rest', h'⟩, ?_⟩
      dsimp only
      rw [hfilter, h'.filter_due hsettles, Multiset.card_cons]
      exact Nat.lt_succ_self _

end

theorem Progress.start (now : Int64) (q : TimeoutListenerQueue ι) :
    Progress now q { timeoutListeners := q, calls := [] } (q.entries.filter (Due now)) := by
  refine ⟨(Multiset.zero_add _).symm, ?_, .nil, nofun⟩
  rw [rearmed, List.filter_nil, List.map_nil, Multiset.coe_nil, Multiset.add_zero,
    Multiset.filter_add_not]

theorem Settles.served {now : Int64} {q : TimeoutListenerQueue ι} (h : Settles now q)
    (onTimeout : List (TimeoutListenerWrapper ι × Bool) → TimeoutListenerWrapper ι → Bool) :
    ∃ s, Loop.Returns (timeoutRound onTimeout now) { timeoutListeners := q, calls := [] } s ∧
      Served now q s :=
  Loop.total (timeoutRound_progress h onTimeout) ⟨_, Progress.start now q⟩

/-- A call of `on_timeout` returns and serves exactly the due timers. -/
theorem onTimeout_served {now : Int64} {q : TimeoutListenerQueue ι} (hsane : Sane now q)
    (onTimeout : List (TimeoutListenerWrapper ι × Bool) → TimeoutListenerWrapper ι → Bool) :
    ∃ s, Loop.Returns (timeoutRound onTimeout now) { timeoutListeners := q, calls := [] } s ∧
      Served now q s :=
  hsane.settles.served onTimeout

def threeTimers : TimeoutListenerQueue Nat :=
  ((PriorityQueue.empty.push ⟨0, 5, 10⟩).push ⟨1, 5, 3⟩).push ⟨2, 9, 4⟩

theorem threeTimers_served :
    ∃ s, Loop.Returns (timeoutRound (fun _ w => w.listener == 0) 6)
        { timeoutListeners := threeTimers, calls := [] } s ∧ Served 6 threeTimers s := by
  apply onTimeout_served
  intro w hw _
  simp only [threeTimers, PriorityQueue.entries_push, PriorityQueue.entries_empty,
    Multiset.mem_cons, Multiset.notMem_zero, or_false] at hw
  rcases hw with rfl | rfl | rfl <;> decide

end Flyzero.EventDispatch
