import Flyzero.Lib.Runs

/-! Infinite runs in which a process that stays enabled takes a step. -/
namespace Fairness
open Runs (exec)
variable {σ ε π : Type*}

/-- Events and what they lead to, with times at which nothing happens. -/
structure Run (step : σ → ε → Option σ) (init : σ) where
  state : Nat → σ
  event : Nat → Option ε
  start : state 0 = init
  idle : ∀ n, event n = none → state (n + 1) = state n
  next : ∀ n e, event n = some e → step (state n) e = some (state (n + 1))

def Enabled (step : σ → ε → Option σ) (owner : ε → Option π) (p : π) (s : σ) : Prop :=
  ∃ e, owner e = some p ∧ (step s e).isSome

/-- A process that stays enabled takes a step. -/
def Fair {step : σ → ε → Option σ} {init : σ} (owner : ε → Option π) (run : Run step init) : Prop :=
  ∀ p n, (∀ m, n ≤ m → Enabled step owner p (run.state m)) →
    ∃ m, n ≤ m ∧ ∃ e, run.event m = some e ∧ owner e = some p

namespace Run
variable {step : σ → ε → Option σ} {init : σ} {run : Run step init} {owner : ε → Option π}

theorem invariant_from (Inv : σ → Prop) (hstep : ∀ s e t, step s e = some t → Inv s → Inv t)
    {n m : Nat} (hle : n ≤ m) (hn : Inv (run.state n)) : Inv (run.state m) := by
  induction m, hle using Nat.le_induction with
  | base => exact hn
  | succ m _ ih =>
    cases he : run.event m with
    | none => rwa [run.idle m he]
    | some e => exact hstep _ e _ (run.next m e he) ih

theorem invariant {Inv : σ → Prop} (hinit : Inv init)
    (hstep : ∀ s e t, step s e = some t → Inv s → Inv t) (n : Nat) : Inv (run.state n) :=
  invariant_from Inv hstep (Nat.zero_le n) (run.start.symm ▸ hinit)

/-- While a goal is away, every step either brings it nearer or leaves the process that can bring it
nearer as it is, and is not a step of that process. -/
structure Progress (step : σ → ε → Option σ) (owner : ε → Option π) (Inv P Q : σ → Prop)
    (rank : σ → Nat) (helper : σ → π) : Prop where
  enabled : ∀ s, Inv s → P s → Enabled step owner (helper s) s
  step : ∀ s e t, step s e = some t → Inv s → P s →
    Q t ∨ P t ∧ (rank t < rank s ∨ rank t = rank s ∧ helper t = helper s ∧
      owner e ≠ some (helper s))

/-- Under fairness, a goal that a process can always bring nearer is reached. -/
theorem leadsTo {Inv P Q : σ → Prop} {rank : σ → Nat} {helper : σ → π} (hfair : Fair owner run)
    (hinv : ∀ n, Inv (run.state n)) (hprogress : Progress step owner Inv P Q rank helper) {n : Nat}
    (hn : P (run.state n)) : ∃ m, n ≤ m ∧ Q (run.state m) := by
  induction hr : rank (run.state n) using Nat.strongRecOn generalizing n with
  | ind r ih =>
    by_contra hnever
    -- the rank does not change any more, so the helper never takes a step
    have hstays : ∀ m, n ≤ m → P (run.state m) ∧ rank (run.state m) = r ∧
        helper (run.state m) = helper (run.state n) := by
      intro m hle
      induction m, hle using Nat.le_induction with
      | base => exact ⟨hn, hr, rfl⟩
      | succ m hle ih' =>
        obtain ⟨hp, hrank, hhelper⟩ := ih'
        cases he : run.event m with
        | none => rw [run.idle m he]; exact ⟨hp, hrank, hhelper⟩
        | some e =>
          obtain hq | ⟨hp', hlt | ⟨heq, hsame, -⟩⟩ :=
            hprogress.step _ e _ (run.next m e he) (hinv m) hp
          · exact absurd ⟨m + 1, by omega, hq⟩ hnever
          · obtain ⟨m', hm', hq⟩ := ih _ (hrank ▸ hlt) hp' rfl
            exact absurd ⟨m', by omega, hq⟩ hnever
          · exact ⟨hp', heq.trans hrank, hsame.trans hhelper⟩
    have henabled : ∀ m, n ≤ m → Enabled step owner (helper (run.state n)) (run.state m) := by
      intro m hle
      obtain ⟨hp, -, hhelper⟩ := hstays m hle
      exact hhelper ▸ hprogress.enabled _ (hinv m) hp
    obtain ⟨m, hle, e, he, howner⟩ := hfair _ n henabled
    obtain ⟨hp, hrank, hhelper⟩ := hstays m hle
    obtain ⟨-, hrank', -⟩ := hstays (m + 1) (by omega)
    obtain hq | ⟨-, hlt | ⟨-, -, hother⟩⟩ := hprogress.step _ e _ (run.next m e he) (hinv m) hp
    · exact hnever ⟨m + 1, by omega, hq⟩
    · omega
    · exact hother (hhelper ▸ howner)

end Run

section
variable {step : σ → ε → Option σ} {init s : σ} {es : List ε}

theorem exec_take (h : exec step init es = some s) (n : Nat) :
    ∃ t, exec step init (es.take n) = some t := by
  induction es generalizing init n with
  | nil => exact ⟨init, by simp [exec]⟩
  | cons e es ih =>
    cases n with
    | zero => exact ⟨init, rfl⟩
    | succ n =>
      obtain ⟨u, hu, hs⟩ := Runs.exec_cons.mp h
      obtain ⟨t, ht⟩ := ih hs n
      exact ⟨t, Runs.exec_cons.mpr ⟨u, hu, ht⟩⟩

def Run.ofExec (h : exec step init es = some s) : Run step init where
  state n := (exec step init (es.take n)).getD init
  event n := es[n]?
  start := rfl
  idle := by
    intro n hn
    have hlen : es.length ≤ n := List.getElem?_eq_none_iff.mp hn
    rw [List.take_of_length_le hlen, List.take_of_length_le (by omega)]
  next := by
    intro n e he
    obtain ⟨u, hu⟩ := exec_take h n
    obtain ⟨t, ht⟩ := exec_take h (n + 1)
    rw [hu, ht]
    rw [List.take_add_one, he] at ht
    obtain ⟨v, hv, hstep⟩ := Runs.exec_concat.mp ht
    obtain rfl : u = v := Option.some.inj (hu.symm.trans hv)
    exact hstep

theorem Run.ofExec_last (h : exec step init es = some s) {n : Nat} (hn : es.length ≤ n) :
    (Run.ofExec h).state n = s := by
  simp [ofExec, List.take_of_length_le hn, h]

theorem Run.ofExec_fair (h : exec step init es = some s) {owner : ε → Option π}
    (hblocked : ∀ p, ¬ Enabled step owner p s) : Fair owner (Run.ofExec h) := by
  intro p n henabled
  have hlast := henabled (max n es.length) (Nat.le_max_left ..)
  rw [ofExec_last h (Nat.le_max_right ..)] at hlast
  exact absurd hlast (hblocked p)

end

end Fairness
