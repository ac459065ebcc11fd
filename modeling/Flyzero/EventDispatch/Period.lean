import Flyzero.EventDispatch.Timeout
import Flyzero.Lib.Alarm
import Flyzero.Lib.Trace
import Mathlib.Algebra.Order.Group.Int
import Mathlib.Logic.Relation

/-! Timers over any number of calls of `on_timeout`: each is an alarm of its own, which the calls
poll. -/
namespace Flyzero.EventDispatch
open Relation (ReflTransGen)

/-- A timer since it was registered: when `on_timeout` was called, and when its listener, with what
the listener returned. -/
structure Timer where
  registered : Int64
  interval : Int64
  polls : List Int64
  calls : List (Int64 × Bool)

structure Timers where
  clock : Int64
  timers : List Timer
  queue : TimeoutListenerQueue Nat

def Timers.start : Timers := { clock := Int64.minValue, timers := [], queue := .empty }

def Timer.poll (now : Int64) (calls : List (TimeoutListenerWrapper Nat × Bool)) (k : Nat)
    (t : Timer) : Timer :=
  { t with
    polls := t.polls ++ [now]
    calls := t.calls ++ (calls.filter (·.1.listener == k)).map fun c => (now, c.2) }

/-- Intervals are positive, and do not take the clock past its end when a timer is armed. -/
inductive Timers.Step : Timers → Timers → Prop
  | registerTimeoutListener {s now interval} (hclock : s.clock ≤ now) (hpos : 0 < interval.toInt)
    (hfits : now.toInt + interval.toInt < 2 ^ 63) :
    Step s
      { clock := now
        timers := s.timers ++ [{ registered := now, interval, polls := [], calls := [] }]
        queue := s.queue.push (.create s.timers.length now interval) }
  | onTimeout {s now answer r} (hclock : s.clock ≤ now)
    (hfits : ∀ w ∈ s.queue.entries, Due now w → now.toInt + w.interval.toInt < 2 ^ 63)
    (hreturns : Loop.Returns (timeoutRound answer now)
      { timeoutListeners := s.queue, calls := [] } r) :
    Step s
      { clock := now, timers := s.timers.mapIdx (Timer.poll now r.calls)
        queue := r.timeoutListeners }

def Timer.pollTimes (t : Timer) : List Int := t.registered.toInt :: t.polls.map Int64.toInt

def Timer.callTimes (t : Timer) : List (Int × Bool) := t.calls.map fun c => (c.1.toInt, c.2)

def Timer.armings (t : Timer) : List Int := Alarm.armings t.registered.toInt t.callTimes

/-- The queue has timer `k` for this time, if any, and once. -/
def Timers.Armed (q : TimeoutListenerQueue Nat) (k : Nat) (t : Timer) (next : Option Int64) :
    Prop :=
  ∀ w, w ∈ q.entries ∧ w.listener = k ↔ ∃ d, next = some d ∧ w = ⟨k, d, t.interval⟩

structure Timers.Inv (s : Timers) : Prop where
  intervals : ∀ t ∈ s.timers, 0 < t.interval.toInt
  known : ∀ w ∈ s.queue.entries, w.listener < s.timers.length
  single : (s.queue.entries.map (·.listener)).Nodup
  alarms : ∀ k t, s.timers[k]? = some t → ∃ next : Option Int64,
    Alarm.Polled t.interval.toInt t.registered.toInt (t.polls.map Int64.toInt) t.callTimes
      (next.map Int64.toInt) ∧ Timers.Armed s.queue k t next

theorem filter_key {β : Type*} {l : List β} {key : β → Nat} (h : (l.map key).Nodup) {c : β}
    (hc : c ∈ l) : l.filter (key · == key c) = [c] := by
  induction l with
  | nil => cases hc
  | cons b l ih =>
    obtain ⟨hb, hl⟩ := List.nodup_cons.mp h
    by_cases heq : b = c
    · subst heq
      have hrest : l.filter (key · == key b) = [] := by
        refine List.filter_eq_nil_iff.mpr fun d hd hkey => hb ?_
        rw [← beq_iff_eq.mp hkey]
        exact List.mem_map_of_mem hd
      simp [hrest]
    · have hmem : c ∈ l := (List.mem_cons.mp hc).resolve_left (Ne.symm heq)
      have hkey : ¬ (key b == key c) = true := by
        intro hkey
        rw [beq_iff_eq.mp hkey] at hb
        exact hb (List.mem_map_of_mem hmem)
      rw [List.filter_cons, if_neg hkey]
      exact ih hl hmem

theorem toInt_create {now interval : Int64} (hpos : 0 < interval.toInt)
    (hfits : now.toInt + interval.toInt < 2 ^ 63) :
    (now + interval).toInt = now.toInt + interval.toInt := by
  have hlow := now.le_toInt
  rw [Int64.toInt_add, Int.bmod_eq_of_le (by omega) (by omega)]

inductive Turn (now : Int64) (calls : List (TimeoutListenerWrapper Nat × Bool)) (k : Nat)
    (t : Timer) : Option Int64 → Prop
  | early {next} (hcalls : calls.filter (·.1.listener == k) = [])
    (hlater : ∀ d, next = some d → now < d) : Turn now calls k t next
  | rings {d again} (hdue : d ≤ now)
    (hcalls : calls.filter (·.1.listener == k) = [(⟨k, d, t.interval⟩, again)]) :
    Turn now calls k t (some d)

section
variable {s : Timers} {now : Int64}

theorem register_inv (h : s.Inv) {interval : Int64} (hpos : 0 < interval.toInt)
    (hfits : now.toInt + interval.toInt < 2 ^ 63) :
    Timers.Inv
      { clock := now
        timers := s.timers ++ [{ registered := now, interval, polls := [], calls := [] }]
        queue := s.queue.push (.create s.timers.length now interval) } := by
  have hnew (w : TimeoutListenerWrapper Nat) (hw : w ∈ s.queue.entries) :
      w.listener ≠ s.timers.length := (h.known w hw).ne
  refine ⟨fun t ht => ?_, fun w hw => ?_, ?_, fun k t ht => ?_⟩
  · cases List.mem_append.mp ht with
    | inl hold => exact h.intervals t hold
    | inr hlast =>
      obtain rfl := List.mem_singleton.mp hlast
      exact hpos
  · rw [PriorityQueue.entries_push] at hw
    rw [List.length_append, List.length_singleton]
    cases Multiset.mem_cons.mp hw with
    | inl hcreated => exact hcreated ▸ Nat.lt_succ_self _
    | inr hold => exact Nat.lt_succ_of_lt (h.known w hold)
  · rw [PriorityQueue.entries_push, Multiset.map_cons, Multiset.nodup_cons]
    refine ⟨fun hmem => ?_, h.single⟩
    obtain ⟨w, hw, heq⟩ := Multiset.mem_map.mp hmem
    exact hnew w hw heq
  · obtain hold | ⟨rfl, rfl⟩ := Trace.getElem?_concat_iff.mp ht
    · obtain ⟨next, halarm, harmed⟩ := h.alarms k t hold
      refine ⟨next, halarm, fun w => ?_⟩
      rw [← harmed w, PriorityQueue.entries_push, Multiset.mem_cons, or_and_right, or_iff_right]
      intro hw
      obtain ⟨rfl, hk⟩ := hw
      exact (List.getElem?_eq_some_iff.mp hold).1.ne hk.symm
    · refine ⟨some (now + interval), ?_, fun w => ?_⟩
      · rw [Option.map_some, toInt_create hpos hfits]
        exact .armed
      · rw [PriorityQueue.entries_push, Multiset.mem_cons]
        constructor
        · intro hw
          obtain ⟨hw | hw, hk⟩ := hw
          · exact ⟨_, rfl, hw⟩
          · exact absurd hk (hnew w hw)
        · intro hw
          obtain ⟨d, hd, rfl⟩ := hw
          cases hd
          exact ⟨.inl rfl, rfl⟩

theorem Timers.Inv.sane (h : s.Inv)
    (hfits : ∀ w ∈ s.queue.entries, Due now w → now.toInt + w.interval.toInt < 2 ^ 63) :
    Sane now s.queue := by
  intro w hw hdue
  obtain ⟨t, ht⟩ : ∃ t, s.timers[w.listener]? = some t :=
    ⟨_, List.getElem?_eq_getElem (h.known w hw)⟩
  obtain ⟨next, -, harmed⟩ := h.alarms _ t ht
  obtain ⟨d, -, heq⟩ := (harmed w).mp ⟨hw, rfl⟩
  refine ⟨?_, hfits w hw hdue⟩
  rw [heq]
  exact h.intervals t (List.mem_of_getElem? ht)

variable {r : Dispatch Nat} {k : Nat} {t : Timer} {next : Option Int64}

theorem Served.nodup_calls (h : Served now s.queue r)
    (hsingle : (s.queue.entries.map (·.listener)).Nodup) :
    (r.calls.map (·.1.listener)).Nodup := by
  have hmap : ((r.calls.map (·.1.listener) : List Nat) : Multiset Nat) =
      (s.queue.entries.filter (Due now)).map (·.listener) := by
    rw [← h.called, Multiset.map_coe, List.map_map]
    rfl
  rw [← Multiset.coe_nodup, hmap]
  exact Multiset.nodup_of_le (Multiset.map_le_map (Multiset.filter_le _ _)) hsingle

theorem Served.mem_calls (h : Served now s.queue r) {w : TimeoutListenerWrapper Nat} :
    (∃ c ∈ r.calls, c.1 = w) ↔ w ∈ s.queue.entries ∧ Due now w := by
  rw [← Multiset.mem_filter, ← h.called, Multiset.mem_coe, List.mem_map]

theorem Served.turn (h : Served now s.queue r)
    (hsingle : (s.queue.entries.map (·.listener)).Nodup) (harmed : Timers.Armed s.queue k t next) :
    Turn now r.calls k t next := by
  by_cases hdue : ∃ d, next = some d ∧ d ≤ now
  · obtain ⟨d, rfl, hdue⟩ := hdue
    obtain ⟨hw, -⟩ := (harmed ⟨k, d, t.interval⟩).mpr ⟨d, rfl, rfl⟩
    obtain ⟨c, hc, hcw⟩ := h.mem_calls.mpr ⟨hw, hdue⟩
    obtain ⟨w, again⟩ := c
    have hkey := filter_key (h.nodup_calls hsingle) hc
    dsimp only at hcw
    subst hcw
    exact .rings hdue hkey
  · refine .early ?_ ?_
    · refine List.filter_eq_nil_iff.mpr fun c hc hk => hdue ?_
      obtain ⟨hw, hcdue⟩ := h.mem_calls.mp ⟨c, hc, rfl⟩
      obtain ⟨d, hd, hcw⟩ := (harmed c.1).mp ⟨hw, beq_iff_eq.mp hk⟩
      rw [hcw] at hcdue
      exact ⟨d, hd, hcdue⟩
    · intro d hd
      exact Int64.not_le.mp fun hle => hdue ⟨d, hd, hle⟩

theorem Served.mem_queue (h : Served now s.queue r) {w : TimeoutListenerWrapper Nat} :
    w ∈ r.timeoutListeners.entries ↔ w ∈ s.queue.entries ∧ ¬ Due now w ∨
      ∃ c ∈ r.calls, c.2 = true ∧ w = .create c.1.listener now c.1.interval := by
  rw [h.queue, Multiset.mem_add, Multiset.mem_filter, Multiset.mem_coe, rearmed, List.mem_map]
  simp only [List.mem_filter, and_assoc, eq_comm]

theorem mem_filter_listener {calls : List (TimeoutListenerWrapper Nat × Bool)}
    {c : TimeoutListenerWrapper Nat × Bool} :
    c ∈ calls.filter (·.1.listener == k) ↔ c ∈ calls ∧ c.1.listener = k := by
  rw [List.mem_filter, beq_iff_eq]

theorem Served.alarm (h : Served now s.queue r) (hturn : Turn now r.calls k t next)
    (hpos : 0 < t.interval.toInt)
    (hfits : ∀ w ∈ s.queue.entries, Due now w → now.toInt + w.interval.toInt < 2 ^ 63)
    (harmed : Timers.Armed s.queue k t next)
    (halarm : Alarm.Polled t.interval.toInt t.registered.toInt (t.polls.map Int64.toInt) t.callTimes
      (next.map Int64.toInt)) :
    ∃ next' : Option Int64, Alarm.Polled t.interval.toInt t.registered.toInt
      ((t.poll now r.calls k).polls.map Int64.toInt) (t.poll now r.calls k).callTimes
        (next'.map Int64.toInt) ∧
      Timers.Armed r.timeoutListeners k (t.poll now r.calls k) next' := by
  cases hturn with
  | early hcalls hlater =>
    refine ⟨next, ?_, fun w => ?_⟩
    · have hearly : ∀ d ∈ next.map Int64.toInt, now.toInt < d := by
        intro d hd
        obtain ⟨d, hnext, rfl⟩ := Option.map_eq_some_iff.mp hd
        exact Int64.lt_iff_toInt_lt.mp (hlater d hnext)
      simpa [Timer.poll, Timer.callTimes, hcalls] using halarm.early hearly
    · rw [h.mem_queue]
      constructor
      · intro hw
        obtain ⟨hkept | ⟨c, hc, -, rfl⟩, hk⟩ := hw
        · exact (harmed w).mp ⟨hkept.1, hk⟩
        · have hnone := mem_filter_listener.mpr ⟨hc, hk⟩
          rw [hcalls] at hnone
          cases hnone
      · intro hw
        obtain ⟨hin, hk⟩ := (harmed w).mpr hw
        obtain ⟨d, hd, rfl⟩ := hw
        exact ⟨.inl ⟨hin, Int64.not_le.mpr (hlater d hd)⟩, rfl⟩
  | @rings d again hdue hcalls =>
    obtain ⟨hin, -⟩ := (harmed ⟨k, d, t.interval⟩).mpr ⟨d, rfl, rfl⟩
    have hsum := toInt_create hpos (hfits ⟨k, d, t.interval⟩ hin hdue)
    have hnext : ((if again then some (now + t.interval) else none : Option Int64).map
        Int64.toInt) = if again then some (now.toInt + t.interval.toInt) else none := by
      rw [← hsum]
      cases again <;> simp
    refine ⟨if again then some (now + t.interval) else none, ?_, fun w => ?_⟩
    · rw [hnext]
      have hrings := Alarm.Polled.rings again halarm (Int64.le_iff_toInt_le.mp hdue)
      simpa [Timer.poll, Timer.callTimes, hcalls] using hrings
    · have hcall (c : TimeoutListenerWrapper Nat × Bool) : c ∈ r.calls ∧ c.1.listener = k ↔
          c = (⟨k, d, t.interval⟩, again) := by
        rw [← mem_filter_listener, hcalls, List.mem_singleton]
      rw [h.mem_queue]
      constructor
      · intro hw
        obtain ⟨⟨hkept, hlater⟩ | ⟨c, hc, hagain, rfl⟩, hk⟩ := hw
        · obtain ⟨d', hd', rfl⟩ := (harmed w).mp ⟨hkept, hk⟩
          cases hd'
          exact absurd hdue hlater
        · obtain rfl := (hcall c).mp ⟨hc, hk⟩
          exact ⟨now + t.interval, if_pos hagain, rfl⟩
      · intro hw
        obtain ⟨d', hd', rfl⟩ := hw
        obtain ⟨hagain, heq⟩ := Option.ite_none_right_eq_some.mp hd'
        obtain ⟨hc, -⟩ := (hcall _).mpr rfl
        cases heq
        exact ⟨.inr ⟨_, hc, hagain, rfl⟩, rfl⟩

theorem onTimeout_inv (h : s.Inv)
    (hfits : ∀ w ∈ s.queue.entries, Due now w → now.toInt + w.interval.toInt < 2 ^ 63)
    (hserved : Served now s.queue r) :
    Timers.Inv { clock := now, timers := s.timers.mapIdx (Timer.poll now r.calls)
                 queue := r.timeoutListeners } := by
  have hkeys : r.timeoutListeners.entries.map (·.listener) ≤ s.queue.entries.map (·.listener) := by
    have hrearmed : ((rearmed now r.calls : Multiset (TimeoutListenerWrapper Nat))).map
        (·.listener) ≤ (s.queue.entries.filter (Due now)).map (·.listener) := by
      rw [← hserved.called, Multiset.map_coe, Multiset.map_coe, rearmed, List.map_map, List.map_map]
      exact (List.filter_sublist.map _).subperm
    rw [hserved.queue, Multiset.map_add]
    refine (Multiset.add_le_add_left hrearmed).trans ?_
    rw [← Multiset.map_add, Multiset.add_comm, Multiset.filter_add_not]
  refine ⟨fun t ht => ?_, fun w hw => ?_, Multiset.nodup_of_le hkeys h.single, fun k t ht => ?_⟩
  · obtain ⟨k, hk, rfl⟩ := List.mem_mapIdx.mp ht
    exact h.intervals s.timers[k] (List.getElem_mem hk)
  · rw [List.length_mapIdx]
    have hmem : w.listener ∈ s.queue.entries.map (·.listener) :=
      Multiset.mem_of_le hkeys (Multiset.mem_map_of_mem _ hw)
    obtain ⟨v, hv, heq⟩ := Multiset.mem_map.mp hmem
    exact heq ▸ h.known v hv
  · rw [List.getElem?_mapIdx] at ht
    obtain ⟨t, hold, rfl⟩ := Option.map_eq_some_iff.mp ht
    obtain ⟨next, halarm, harmed⟩ := h.alarms k t hold
    have hpos := h.intervals t (List.mem_of_getElem? hold)
    exact hserved.alarm (hserved.turn h.single harmed) hpos hfits harmed halarm

end

theorem step_inv {s s' : Timers} (hstep : s.Step s') (h : s.Inv) : s'.Inv := by
  cases hstep with
  | registerTimeoutListener _ hpos hfits => exact register_inv h hpos hfits
  | onTimeout _ hfits hreturns =>
    obtain ⟨r, hr, hserved⟩ := (h.sane hfits).settles.served _
    rw [hreturns.unique hr]
    exact onTimeout_inv h hfits hserved

theorem start_inv : Timers.start.Inv where
  intervals := by simp [Timers.start]
  known := by simp [Timers.start]
  single := by simp [Timers.start]
  alarms := by simp [Timers.start]

/-- A timer that has been armed at these times: it is called no sooner than its interval after it
was armed, and late by less than the time between two calls of `on_timeout`. It is armed until it
declines, and while it is armed `on_timeout` has not left it due. -/
structure Timers.Periodic (q : TimeoutListenerQueue Nat) (k : Nat) (t : Timer) : Prop where
  spaced : t.armings.IsChain fun a b => a + t.interval.toInt ≤ b
  prompt : ∀ gap, t.pollTimes.IsChain (fun a b => b ≤ a + gap) →
    t.armings.IsChain fun a b => b < a + t.interval.toInt + gap
  goesOn : (∀ call ∈ t.callTimes, call.2 = true) → ∃ d, Timers.Armed q k t (some d) ∧
    ∃ a, t.armings.getLast? = some a ∧ d.toInt = a + t.interval.toInt ∧
      ∀ p, t.pollTimes.getLast? = some p → p < d.toInt
  stopped : (∃ call ∈ t.callTimes, call.2 = false) → Timers.Armed q k t none ∧
    ∃ before now, t.callTimes = before ++ [(now, false)] ∧ ∀ call ∈ before, call.2 = true

theorem Timers.Inv.periodic {s : Timers} (h : s.Inv) {k : Nat} {t : Timer}
    (ht : s.timers[k]? = some t) : Timers.Periodic s.queue k t := by
  obtain ⟨next, halarm, harmed⟩ := h.alarms k t ht
  have hpos := h.intervals t (List.mem_of_getElem? ht)
  refine ⟨halarm.spaced, fun gap hgap => halarm.prompt hpos hgap, fun hall => ?_, fun hsome => ?_⟩
  · cases next with
    | none =>
      obtain ⟨before, now, hcalls, -⟩ := halarm.stopped rfl
      have hmem : (now, false) ∈ t.callTimes := hcalls ▸ List.mem_append_right before (by simp)
      cases hall _ hmem
    | some d =>
      obtain ⟨a, ha, hd⟩ := halarm.due rfl
      exact ⟨d, harmed, a, ha, hd, fun p hp => halarm.ahead hpos rfl hp⟩
  · obtain ⟨call, hcall, hfalse⟩ := hsome
    cases next with
    | none => exact ⟨harmed, halarm.stopped rfl⟩
    | some d =>
      rw [halarm.goesOn rfl call hcall] at hfalse
      cases hfalse

/-- Whatever timers there are, whenever `on_timeout` is called, and whatever the listeners return. -/
theorem timers_periodic {s : Timers} (h : ReflTransGen Timers.Step .start s) {k : Nat} {t : Timer}
    (ht : s.timers[k]? = some t) : Timers.Periodic s.queue k t := by
  have hinv : s.Inv := by
    clear ht
    induction h with
    | refl => exact start_inv
    | tail _ hstep ih => exact step_inv hstep ih
  exact hinv.periodic ht

def twoPeriods : TimeoutListenerQueue Nat :=
  (PriorityQueue.empty.push (.create 0 0 10)).push (.create 1 0 3)

theorem twoPeriods_periodic : ∃ s t, ReflTransGen Timers.Step .start s ∧ s.timers[1]? = some t ∧
    t.armings = [0, 4] ∧ Timers.Periodic s.queue 1 t := by
  have hentries : PriorityQueue.entries twoPeriods = {⟨1, 3, 3⟩, ⟨0, 10, 10⟩} := by
    simp only [twoPeriods, PriorityQueue.entries_push, PriorityQueue.entries_empty]
    rfl
  have hfirst : Timers.Step .start
      ⟨0, [⟨0, 10, [], []⟩], PriorityQueue.empty.push (.create 0 0 10)⟩ :=
    .registerTimeoutListener (by decide) (by decide) (by decide)
  have hsecond : Timers.Step ⟨0, [⟨0, 10, [], []⟩], PriorityQueue.empty.push (.create 0 0 10)⟩
      ⟨0, [⟨0, 10, [], []⟩, ⟨0, 3, [], []⟩], twoPeriods⟩ :=
    .registerTimeoutListener (by decide) (by decide) (by decide)
  have hrun := (ReflTransGen.single hfirst).tail hsecond
  have hsane : Sane 4 twoPeriods := by
    rw [Sane, hentries]
    decide
  obtain ⟨r, hr, hserved⟩ := hsane.settles.served fun _ _ => true
  have hcalled : r.calls.map (·.1) = [⟨1, 3, 3⟩] := by
    rw [← Multiset.coe_eq_singleton, hserved.called, hentries]
    rfl
  obtain ⟨c, hcalls, hc⟩ := List.map_eq_singleton_iff.mp hcalled
  have hthird : Timers.Step ⟨0, [⟨0, 10, [], []⟩, ⟨0, 3, [], []⟩], twoPeriods⟩ _ :=
    .onTimeout (by decide) (fun w hw hdue => (hsane w hw hdue).2) hr
  refine ⟨_, ⟨0, 3, [4], [(4, c.2)]⟩, hrun.tail hthird, ?_, rfl,
    timers_periodic (hrun.tail hthird) ?_⟩
  · simp [hcalls, hc, Timer.poll]
  · simp [hcalls, hc, Timer.poll]

end Flyzero.EventDispatch
