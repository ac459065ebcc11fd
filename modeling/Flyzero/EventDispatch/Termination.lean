import Flyzero.EventDispatch.Timeout

/-! When `on_timeout` ends, whatever its callbacks return. -/
namespace Flyzero.EventDispatch
variable {ι : Type*}

/-- The call returns, after a callback for an entry of the queue at most. -/
def Ends (now : Int64) (q : TimeoutListenerQueue ι) : Prop :=
  ∀ onTimeout, ∃ s, Loop.Returns (timeoutRound onTimeout now)
      { timeoutListeners := q, calls := [] } s ∧
    (s.calls.map (·.1) : Multiset _) ≤ q.entries

def Relapses (now : Int64) (w : TimeoutListenerWrapper ι) : Prop :=
  Due now w ∧ Due now (.create w.listener now w.interval)

section
variable {now : Int64} {q : TimeoutListenerQueue ι} {w : TimeoutListenerWrapper ι}

theorem settles_iff : Settles now q ↔ ¬ ∃ w ∈ q.entries, Relapses now w := by
  simp [Settles, Relapses]

theorem Relapses.create (h : Relapses now w) :
    Relapses now (.create w.listener now w.interval) :=
  ⟨h.2, h.2⟩

theorem pop_push_relapses {t : TimeoutListenerWrapper ι} (htop : q.top? = some t)
    (hw : w ∈ q.entries) (hrelapses : Relapses now w) :
    ∃ v ∈ (q.push (.create t.listener now t.interval)).pop.entries, Relapses now v := by
  obtain ⟨x, hx⟩ : ∃ x, TimeoutListenerWrapper.create t.listener now t.interval = x := ⟨_, rfl⟩
  rw [hx]
  have hpush := PriorityQueue.entries_push q x
  have hpop := PriorityQueue.entries_pop htop
  cases PriorityQueue.top?_push_or htop x with
  | inl hold =>
    rw [PriorityQueue.entries_pop hold, hpop, Multiset.cons_swap] at hpush
    rw [(Multiset.cons_inj_right t).mp hpush]
    rw [hpop] at hw
    cases Multiset.mem_cons.mp hw with
    | inl hsame => exact ⟨x, Multiset.mem_cons_self _ _, hx ▸ hsame ▸ hrelapses.create⟩
    | inr hrest => exact ⟨w, Multiset.mem_cons_of_mem hrest, hrelapses⟩
  | inr hnew =>
    rw [PriorityQueue.entries_pop hnew] at hpush
    rw [(Multiset.cons_inj_right x).mp hpush]
    exact ⟨w, hw, hrelapses⟩

/-- A callback that always asks to be called again is called again and again. -/
theorem timeoutRound_relapses (s : Dispatch ι)
    (h : ∃ w ∈ s.timeoutListeners.entries, Relapses now w) :
    ∃ t, timeoutRound (fun _ _ => true) now s = .inl t ∧
      ∃ w ∈ t.timeoutListeners.entries, Relapses now w := by
  obtain ⟨w, hw, hrelapses⟩ := h
  cases htop : s.timeoutListeners.top? with
  | none =>
    rw [PriorityQueue.top?_eq_none.mp htop] at hw
    exact absurd hw (Multiset.notMem_zero w)
  | some t =>
    have hdue : ¬ t.deadline > now := fun hlater => not_due_of_later htop hlater w hw hrelapses.1
    have hround : timeoutRound (fun _ _ => true) now s =
        .inl { timeoutListeners := (s.timeoutListeners.push (.create t.listener now t.interval)).pop
               calls := s.calls ++ [(t, true)] } := by
      rw [timeoutRound, htop]
      exact if_neg hdue
    exact ⟨_, hround, pop_push_relapses htop hw hrelapses⟩

theorem ends_iff_settles : Ends now q ↔ Settles now q := by
  constructor
  · intro hends
    rw [settles_iff]
    intro hrelapses
    obtain ⟨s, hreturns, -⟩ := hends fun _ _ => true
    exact Loop.diverges timeoutRound_relapses hrelapses s hreturns
  · intro hsettles onTimeout
    obtain ⟨s, hreturns, hserved⟩ := hsettles.served onTimeout
    exact ⟨s, hreturns, hserved.called ▸ Multiset.filter_le _ _⟩

theorem create_not_due_iff {interval : Int64} (listener : ι) (hnonneg : 0 ≤ interval.toInt) :
    ¬ Due now (TimeoutListenerWrapper.create listener now interval) ↔
      0 < interval.toInt ∧ now.toInt + interval.toInt < 2 ^ 63 := by
  constructor
  · intro hlater
    have hlow := now.le_toInt
    have hhigh := now.toInt_lt
    have hlong := interval.toInt_lt
    rw [Due, TimeoutListenerWrapper.create, Int64.le_iff_toInt_le, Int64.toInt_add] at hlater
    by_cases hfits : now.toInt + interval.toInt < 2 ^ 63
    · rw [Int.bmod_eq_of_le (by omega) (by omega)] at hlater
      omega
    · rw [← Int.sub_bmod_right, Int.bmod_eq_of_le (by omega) (by omega)] at hlater
      omega
  · exact fun h => create_not_due listener h.1 h.2

end

/-- An interval of zero, or one that takes the clock past its end, is due again at once. -/
theorem onTimeout_ends_iff {now : Int64} {q : TimeoutListenerQueue ι}
    (hnonneg : ∀ w ∈ q.entries, 0 ≤ w.interval.toInt) :
    Ends now q ↔ ∀ w ∈ q.entries, w.deadline ≤ now →
      0 < w.interval.toInt ∧ now.toInt + w.interval.toInt < 2 ^ 63 := by
  rw [ends_iff_settles]
  exact forall₂_congr fun w hw =>
    imp_congr_right fun _ => create_not_due_iff w.listener (hnonneg w hw)

theorem threeTimers_ends : Ends 6 threeTimers := by
  have hall : ∀ w ∈ threeTimers.entries, 0 < w.interval.toInt ∧ w.interval.toInt ≤ 10 := by
    intro w hw
    simp only [threeTimers, PriorityQueue.entries_push, PriorityQueue.entries_empty,
      Multiset.mem_cons, Multiset.notMem_zero, or_false] at hw
    rcases hw with rfl | rfl | rfl <;> decide
  have hnow : (6 : Int64).toInt = 6 := by decide
  refine (onTimeout_ends_iff fun w hw => Int.le_of_lt (hall w hw).1).mpr fun w hw _ => ?_
  have hw := hall w hw
  exact ⟨hw.1, by omega⟩

def spinningTimer : TimeoutListenerQueue Nat := PriorityQueue.empty.push (.create 0 5 0)

theorem spinningTimer_spins : (∀ w ∈ spinningTimer.entries, 0 ≤ w.interval.toInt) ∧
    (∀ s, ¬ Loop.Returns (timeoutRound (fun _ _ => true) 5)
      { timeoutListeners := spinningTimer, calls := [] } s) ∧ ¬ Ends 5 spinningTimer := by
  have hentries : spinningTimer.entries = {.create 0 5 0} := PriorityQueue.entries_push _ _
  have hspins (s : Dispatch Nat) : ¬ Loop.Returns (timeoutRound (fun _ _ => true) 5)
      { timeoutListeners := spinningTimer, calls := [] } s := by
    refine Loop.diverges timeoutRound_relapses ⟨.create 0 5 0, ?_, by decide, by decide⟩ s
    rw [hentries]
    exact Multiset.mem_singleton_self _
  refine ⟨fun w hw => ?_, hspins, fun hends => ?_⟩
  · rw [hentries, Multiset.mem_singleton] at hw
    rw [hw]
    decide
  · obtain ⟨s, hreturns, -⟩ := hends fun _ _ => true
    exact hspins s hreturns

end Flyzero.EventDispatch
