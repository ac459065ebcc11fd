import Flyzero.EventDispatch.Dispatcher
import Flyzero.LruCache.Expiry

/-! Deadlines of entries and timers, which are signed sums of 64 bits: nothing goes before its time
unless the sum has left them. -/
namespace Flyzero

theorem not_le_of_fits {now timeout t : Int64} (htimeout : 0 ≤ timeout.toInt)
    (hfits : now.toInt + timeout.toInt < 2 ^ 63) (ht : t.toInt < now.toInt + timeout.toInt) :
    ¬ now + timeout ≤ t := by
  have hlow := now.le_toInt
  rw [Int64.le_iff_toInt_le, Int64.toInt_add, Int.bmod_eq_of_le (by omega) (by omega)]
  omega

/-- At the end of the clock everything is due, which is before a sum that does not fit. -/
theorem maxValue_early {now timeout : Int64} (hout : ¬ now.toInt + timeout.toInt < 2 ^ 63) :
    now.toInt ≤ Int64.maxValue.toInt ∧ Int64.maxValue.toInt < now.toInt + timeout.toInt := by
  have hhigh := now.toInt_lt
  rw [Int64.toInt_maxValue]
  omega

namespace LruCache
variable {K V U : Type*}

def History.record (fs : Functors K U) (s : History K V) (op : Op K V U) : Option (History K V) :=
  (call fs s.cache op).map fun (out, cache) =>
    { cache, clock := op.clock s.clock, uses := s.uses ++ op.used out }

/-- No entry used last at `now` is removed before `now + timeout`. -/
def KeepsEntries (V : Type*) (fs : Functors K U) (timeout now : Int64) : Prop :=
  ∀ buckets s, Runs.Reachable (History.record fs) (.start timeout buckets : History K V) s →
    ∀ e ∈ s.cache.entries, (e.it, now) ∈ lastUses s.uses →
      ∀ t throws, now.toInt ≤ t.toInt → t.toInt < now.toInt + timeout.toInt →
        ∃ out c, call fs s.cache (.clearExpired t throws) = some (out, c) ∧ e ∈ c.entries

def Stamped (timeout : Int64) (uses : List (Ptr × Int64)) (es : List (Entry K V)) : Prop :=
  ∀ e ∈ es, ∀ u ∈ lastUses uses, u.1 = e.it → e.deadline = u.2 + timeout

section
variable {timeout now t : Int64} {uses : List (Ptr × Int64)} {es es' : List (Entry K V)}
  {fs : Functors K U}

theorem Stamped.sublist (h : Stamped timeout uses es) (hes : es'.Sublist es) :
    Stamped timeout uses es' := fun e he => h e (hes.subset he)

theorem Stamped.use (h : Stamped timeout uses es) {e : Entry K V}
    (hother : ∀ d ∈ es, d.it ≠ e.it) (he : e.deadline = now + timeout) :
    Stamped timeout (uses ++ [(e.it, now)]) (es ++ [e]) := by
  intro d hd u hu hit
  rw [lastUses_concat, List.mem_append, List.mem_singleton, List.mem_filter] at hu
  rcases List.mem_append.mp hd with hd | hd
  · cases hu with
    | inl hold => exact h d hd u hold.1 hit
    | inr hnew => exact absurd (hit.symm.trans (congrArg Prod.fst hnew)) (hother d hd)
  · obtain rfl := List.mem_singleton.mp hd
    cases hu with
    | inl hold => exact absurd hit (by simpa using hold.2)
    | inr hnew => rw [hnew, he]

theorem call_stamped {op : Op K V U} {out : Out K V}
    (hcall : Recency.call fs timeout es op = some (out, es')) (h : Stamped timeout uses es) :
    Stamped timeout (uses ++ op.used out) es' := by
  rcases call_cases 0 hcall with
    ⟨hused, hsub⟩ | ⟨now, e, kept, hused, -, hsub, rfl, hother, he⟩
  · rw [hused, List.append_nil]
    exact h.sublist hsub
  · rw [hused]
    exact (h.sublist hsub).use hother he

theorem mem_expire {throws : List (K × V) → K × V → Bool} {e : Entry K V} (he : e ∈ es)
    (hlater : ¬ e.Due t) (calls : List (K × V)) (count : Nat) :
    e ∈ (Recency.expire t throws calls count es).2 := by
  induction es generalizing calls count with
  | nil => cases he
  | cons d es ih =>
    rw [expire_cons]
    split
    · exact he
    · rename_i hdue
      split
      · exact he
      · cases List.mem_cons.mp he with
        | inl heq => exact absurd (gt_of_not_due (heq ▸ hlater)) hdue
        | inr hrest => exact ih hrest _ _

structure History.Marked (fs : Functors K U) (timeout : Int64) (s : History K V) : Prop where
  cache : s.cache.Inv fs
  timeout_eq : s.cache.timeout = timeout
  stamped : Stamped timeout s.uses s.cache.entries

theorem History.record_marked (hfs : fs.Consistent) (s : History K V) (op : Op K V U)
    (s' : History K V) (hstep : s.record fs op = some s') (h : s.Marked fs timeout) :
    s'.Marked fs timeout := by
  obtain ⟨⟨out, c⟩, hcall, rfl⟩ := Option.map_eq_some_iff.mp hstep
  obtain ⟨hmap, hnext⟩ := call_mirrors hfs h.cache op
  rw [hcall, Option.map_some, h.timeout_eq] at hmap
  rw [h.timeout_eq] at hnext
  obtain ⟨hcache, htime_eq⟩ := hnext _ hcall
  exact ⟨hcache, htime_eq, call_stamped hmap.symm h.stamped⟩

theorem insert_first (hfs : fs.Consistent) (timeout now : Int64) (key : K) (value : V) :
    ∃ c : Cache K V, c.Inv fs ∧ c.entries = [⟨1, key, value, now + timeout⟩] ∧
      Runs.Reachable (History.record fs) (.start timeout 0)
        { cache := c, clock := now, uses := [(1, now)] } := by
  have hinv : (create timeout 0 : Cache K V).Inv fs := Cache.create_inv fs timeout 0
  obtain ⟨hmap, hnext⟩ := call_mirrors hfs hinv (.insert now key value 1 2)
  have hcall : Recency.call fs timeout ([] : List (Entry K V)) (.insert now key value 1 2) =
      some (.inserted 1 true, [⟨1, key, value, now + timeout⟩]) := by
    simp [Recency.call]
  obtain ⟨⟨out, c⟩, hc, heq⟩ := Option.map_eq_some_iff.mp (hmap.trans hcall)
  obtain ⟨rfl, hentries⟩ := Prod.mk.inj heq
  refine ⟨c, (hnext _ hc).1, hentries, [.insert now key value 1 2], ?_⟩
  exact Runs.exec_cons.mpr ⟨_, Option.map_eq_some_iff.mpr ⟨_, hc, rfl⟩, rfl⟩

theorem keepsEntries_iff [Inhabited K] [Inhabited V] (hfs : fs.Consistent)
    (htimeout : 0 ≤ timeout.toInt) :
    KeepsEntries V fs timeout now ↔ now.toInt + timeout.toInt < 2 ^ 63 := by
  constructor
  · intro hkeeps
    by_contra hout
    obtain ⟨hpast, hearly⟩ := maxValue_early hout
    let e : Entry K V := ⟨1, default, default, now + timeout⟩
    obtain ⟨c, hinv, hentries, hreach⟩ := insert_first hfs timeout now e.key e.value
    have he : e ∈ c.entries := hentries ▸ List.mem_singleton_self e
    obtain ⟨out, c', hcall, he'⟩ := hkeeps 0 _ hreach e he (List.mem_singleton_self _)
      Int64.maxValue (fun _ _ => false) hpast hearly
    obtain ⟨hmap, -⟩ := call_mirrors hfs hinv (.clearExpired Int64.maxValue fun _ _ => false)
    rw [hcall, hentries] at hmap
    have hdue : ¬ e.deadline > Int64.maxValue := not_gt_of_due (e.deadline.le_maxValue)
    have hgone : c'.entries = [] := by
      rw [show c'.entries = (Recency.expire Int64.maxValue (fun _ _ => false) [] 0 [e]).2 from
        congrArg Prod.snd (Option.some.inj hmap), expire_cons, if_neg hdue]
      rfl
    rw [hgone] at he'
    cases he'
  · intro hfits buckets s hreach e he hused t throws _ hlater
    have h : s.Marked fs timeout := by
      refine hreach.invariant ⟨Cache.create_inv .., rfl, nofun⟩ (History.record_marked hfs)
    have hdeadline := h.stamped e he _ hused rfl
    have hnot : ¬ e.Due t := by
      rw [Entry.Due, hdeadline]
      exact not_le_of_fits htimeout hfits hlater
    obtain ⟨hmap, -⟩ := call_mirrors hfs h.cache (.clearExpired t throws)
    obtain ⟨⟨out, c⟩, hcall, heq⟩ := Option.map_eq_some_iff.mp hmap
    have hentries : c.entries = (Recency.expire t throws [] 0 s.cache.entries).2 :=
      congrArg Prod.snd heq
    exact ⟨out, c, hcall, hentries ▸ mem_expire he hnot [] 0⟩

end

end LruCache

namespace EventDispatch
variable {ι κ τ : Type*}

def Phase.fired : Phase ι τ → List (TimeoutListenerWrapper τ × Int64)
  | .onTimeout call t _ => call.fired.map fun w => (w, t)
  | _ => []

/-- No timer registered or armed again at `now` is fired before `now + interval`. -/
def KeepsTimers (κ : Type*) [DecidableEq ι] [DecidableEq κ] (τ : Type*) (fd : ι → Int)
    (grow : Nat → Nat) (interval now : Int64) : Prop :=
  ∀ d : Dispatcher ι κ τ, Runs.Reachable (step fd grow) .start d →
    ∀ listener t, (TimeoutListenerWrapper.create listener now interval, t) ∈ d.phase.fired →
      now.toInt ≤ t.toInt → ¬ t.toInt < now.toInt + interval.toInt

def Dispatcher.Punctual (d : Dispatcher ι κ τ) : Prop := ∀ f ∈ d.phase.fired, Due f.2 f.1

section
variable {d d' : Dispatcher ι κ τ} {call : Call τ} {t : Int64}

theorem punctual_of_fired (h : d'.phase.fired = []) : d'.Punctual := by
  intro f hf
  rw [h] at hf
  cases hf

theorem timeoutStop_punctual (hstop : d.TimeoutStop call t d') (h : ∀ w ∈ call.fired, Due t w) :
    d'.Punctual := by
  cases hstop with
  | returned => exact punctual_of_fired rfl
  | onTimeout _ hdue =>
    intro f hf
    obtain ⟨w, hw, rfl⟩ := List.mem_map.mp hf
    cases List.mem_append.mp hw with
    | inl hw => exact h w hw
    | inr hw => exact List.mem_singleton.mp hw ▸ hdue

theorem resumes_punctual (hresumes : d.Resumes call t d') (h : ∀ w ∈ call.fired, Due t w) :
    d'.Punctual := by
  cases hresumes with
  | undefined => exact punctual_of_fired rfl
  | popped | rearmed => exact timeoutStop_punctual (Dispatcher.onTimeout_stop _ call t) h

theorem batchStop_punctual (hstop : d.BatchStop call d') : d'.Punctual := by
  cases hstop with
  | returned | onRead | onWrite => exact punctual_of_fired rfl

theorem loopStop_punctual (hstop : d.LoopStop d') : d'.Punctual := by
  cases hstop with
  | epollWait | onLoop | undefined => exact punctual_of_fired rfl

variable [DecidableEq κ] {fd : ι → Int} {grow : Nat → Nat}

variable [DecidableEq ι]

theorem step_punctual (d : Dispatcher ι κ τ) (op : Op ι κ τ) (d' : Dispatcher ι κ τ)
    (hstep : step fd grow d op = some d') (h : d.Punctual) : d'.Punctual := by
  cases step_cases hstep with
  | control hcontrol =>
    intro f hf
    rw [control_phase hcontrol] at hf
    exact h f hf
  | closed => exact h
  | runOnce => exact loopStop_punctual (d.onLoop_stop _ _ 0)
  | epollWait =>
    unfold Dispatcher.afterWait
    dsimp only
    split
    · exact timeoutStop_punctual (Dispatcher.onTimeout_stop _ _ _) nofun
    · exact batchStop_punctual (Dispatcher.onEvents_stop _ _ _)
  | interrupted | throws => exact punctual_of_fired rfl
  | onLoop => exact loopStop_punctual (d.onLoop_stop _ _ _)
  | onRead => exact batchStop_punctual (d.afterRead_stop _ _ _)
  | onWrite => exact batchStop_punctual (d.onEvents_stop _ _)
  | onTimeout hphase =>
    refine resumes_punctual (d.afterTimeout_resumes grow _ _ _ _) fun w hw => h (w, _) ?_
    rw [hphase]
    exact List.mem_map_of_mem hw

theorem fires_at_maxValue (fd : ι → Int) (grow : Nat → Nat) (listener : τ) (now interval : Int64) :
    ∃ d : Dispatcher ι κ τ, Runs.Reachable (step fd grow) .start d ∧
      (TimeoutListenerWrapper.create listener now interval, Int64.maxValue) ∈ d.phase.fired := by
  let w := TimeoutListenerWrapper.create listener now interval
  let registered : Dispatcher ι κ τ :=
    { Dispatcher.start.emplace grow listener now interval with
      clock := now, log := [.control (.registerTimeout listener now interval)] }
  let waiting : Dispatcher ι κ τ := { registered with phase := .epollWait }
  have hregister : step fd grow .start (.control (.registerTimeout listener now interval)) =
      some registered := by
    have hclock : (Dispatcher.start : Dispatcher ι κ τ).clock ≤ now := now.minValue_le
    change Option.map _ (ite _ _ _) = _
    rw [if_pos hclock]
    rfl
  have hwait : step fd grow waiting (.epollWait Int64.maxValue Int64.maxValue []) =
      some (waiting.afterWait Int64.maxValue Int64.maxValue []) :=
    if_pos ⟨now.le_maxValue, Int64.le_maxValue _, Nat.zero_le _, nofun⟩
  have htop : registered.timeoutListeners.top? = some w :=
    PriorityQueue.top?_of_entries_eq (PriorityQueue.entries_push _ w)
  refine ⟨waiting.afterWait Int64.maxValue Int64.maxValue [], ?_, ?_⟩
  · refine ⟨[.control (.registerTimeout listener now interval), .runOnce,
      .epollWait Int64.maxValue Int64.maxValue []], ?_⟩
    exact Runs.exec_cons.mpr ⟨_, hregister, Runs.exec_cons.mpr ⟨waiting, rfl,
      Runs.exec_cons.mpr ⟨_, hwait, rfl⟩⟩⟩
  · have hdue : ¬ w.deadline > Int64.maxValue := Int64.not_lt.mpr w.deadline.le_maxValue
    unfold Dispatcher.afterWait Dispatcher.onTimeout
    simp only [List.length_nil, if_true, waiting, htop, if_neg hdue]
    exact List.mem_singleton_self _

theorem keepsTimers_iff [Inhabited τ] {now interval : Int64} (hinterval : 0 ≤ interval.toInt) :
    KeepsTimers κ τ fd grow interval now ↔ now.toInt + interval.toInt < 2 ^ 63 := by
  constructor
  · intro hkeeps
    by_contra hout
    obtain ⟨hpast, hearly⟩ := maxValue_early hout
    obtain ⟨d, hreach, hfired⟩ : ∃ d : Dispatcher ι κ τ,
        Runs.Reachable (step fd grow) .start d ∧
          (TimeoutListenerWrapper.create default now interval, Int64.maxValue) ∈ d.phase.fired :=
      fires_at_maxValue fd grow default now interval
    exact hkeeps d hreach default Int64.maxValue hfired hpast hearly
  · intro hfits d hreach listener t hfired _ hearly
    have h : d.Punctual := hreach.invariant (punctual_of_fired rfl) step_punctual
    exact not_le_of_fits hinterval hfits hearly (h _ hfired)

end

end EventDispatch

/-- Nothing expires before the exact sum of the time and the timeout or interval, as long as this
sum is a time. -/
theorem never_early_iff {K V U ι κ τ : Type*} [Inhabited K] [Inhabited V] [Inhabited τ]
    [DecidableEq ι] [DecidableEq κ] {fs : LruCache.Functors K U} (hfs : fs.Consistent)
    (fd : ι → Int) (grow : Nat → Nat) (now : Int64) {timeout : Int64}
    (htimeout : 0 ≤ timeout.toInt) :
    (LruCache.KeepsEntries V fs timeout now ↔ now.toInt + timeout.toInt < 2 ^ 63) ∧
      (EventDispatch.KeepsTimers κ τ fd grow timeout now ↔ now.toInt + timeout.toInt < 2 ^ 63) :=
  ⟨LruCache.keepsEntries_iff hfs htimeout, EventDispatch.keepsTimers_iff htimeout⟩

theorem tenTicks_kept :
    LruCache.KeepsEntries Nat LruCache.natFunctors 10 5 ∧
      EventDispatch.KeepsTimers Nat Nat (fun l : Nat => (l : Int)) (2 * ·) 10 5 := by
  have hiff : (LruCache.KeepsEntries Nat LruCache.natFunctors 10 5 ↔ _) ∧
      (EventDispatch.KeepsTimers Nat Nat (fun l : Nat => (l : Int)) (2 * ·) 10 5 ↔ _) :=
    never_early_iff LruCache.natFunctors_consistent _ _ 5 (by decide)
  exact ⟨hiff.1.mpr (by decide), hiff.2.mpr (by decide)⟩

theorem longestTimeout_early : ∃ (s : LruCache.History Nat Nat) (c : LruCache.Cache Nat Nat),
    Runs.exec (LruCache.History.record LruCache.natFunctors) (.start Int64.maxValue 99)
      [.insert 1 7 70 1 100] = some s ∧ s.uses = [(1, 1)] ∧
    LruCache.call LruCache.natFunctors s.cache (.clearExpired 2 fun _ _ => false) =
      some (.cleared [(7, 70)] 1, c) ∧ c.entries = [] ∧
    ¬ LruCache.KeepsEntries Nat LruCache.natFunctors Int64.maxValue 1 ∧
    ¬ EventDispatch.KeepsTimers Nat Nat (fun l : Nat => (l : Int)) (2 * ·) Int64.maxValue 1 := by
  have hout : ¬ (1 : Int64).toInt + Int64.maxValue.toInt < 2 ^ 63 := by decide
  have hnonneg : 0 ≤ Int64.maxValue.toInt := by decide
  refine ⟨_, _, rfl, rfl, rfl, rfl, ?_, ?_⟩
  · exact mt (LruCache.keepsEntries_iff LruCache.natFunctors_consistent hnonneg).mp hout
  · exact mt (EventDispatch.keepsTimers_iff hnonneg).mp hout

end Flyzero
