import Mathlib.Data.List.Induction
import Mathlib.Data.Option.Basic
import Mathlib.Order.Basic
import Mathlib.Order.Bounds.Defs
import Mathlib.Order.Nat

/-! Runs of a partial step function over a list of events. -/
namespace Runs
variable {σ ε : Type*}

def exec (step : σ → ε → Option σ) : σ → List ε → Option σ
  | s, [] => some s
  | s, e :: es => (step s e).bind fun t => exec step t es

def Reachable (step : σ → ε → Option σ) (init s : σ) : Prop :=
  ∃ es, exec step init es = some s

theorem exec_cons {step : σ → ε → Option σ} {s t : σ} {e : ε} {es : List ε} :
    exec step s (e :: es) = some t ↔ ∃ u, step s e = some u ∧ exec step u es = some t := by
  simp [exec, Option.bind_eq_some_iff]

theorem exec_invariant {step : σ → ε → Option σ} {Inv : σ → Prop}
    (hstep : ∀ s e t, step s e = some t → Inv s → Inv t)
    {s t : σ} {es : List ε} (hrun : exec step s es = some t) (hs : Inv s) : Inv t := by
  induction es generalizing s with
  | nil => cases hrun; exact hs
  | cons e es ih =>
    obtain ⟨u, hu, ht⟩ := exec_cons.mp hrun
    exact ih ht (hstep s e u hu hs)

theorem Reachable.invariant {step : σ → ε → Option σ} {Inv : σ → Prop} {init s : σ}
    (h : Reachable step init s) (hinit : Inv init)
    (hstep : ∀ s e t, step s e = some t → Inv s → Inv t) : Inv s := by
  obtain ⟨es, hrun⟩ := h
  exact exec_invariant hstep hrun hinit

theorem exec_concat {step : σ → ε → Option σ} {s t : σ} {es : List ε} {e : ε} :
    exec step s (es ++ [e]) = some t ↔ ∃ u, exec step s es = some u ∧ step u e = some t := by
  induction es generalizing s with
  | nil => simp [exec]
  | cons e' es ih =>
    simp only [List.cons_append, exec_cons, ih]
    constructor
    · rintro ⟨u, hu, v, hv, ht⟩
      exact ⟨v, ⟨u, hu, hv⟩, ht⟩
    · rintro ⟨v, ⟨u, hu, hv⟩, ht⟩
      exact ⟨u, hu, v, hv, ht⟩

theorem exec_append {step : σ → ε → Option σ} {s : σ} (es fs : List ε) :
    exec step s (es ++ fs) = (exec step s es).bind fun t => exec step t fs := by
  induction es generalizing s with
  | nil => rfl
  | cons e es ih => simp [exec, ih, Option.bind_assoc]

def Visits (step : σ → ε → Option σ) (init : σ) (es : List ε) (t : σ) : Prop :=
  ∃ pre, pre <+: es ∧ exec step init pre = some t

/-- A count that bounds `f`, and that a step changes only up to the new value of `f`, is the
greatest value `f` has had. -/
theorem isGreatest_of_steps {step : σ → ε → Option σ} {Inv : σ → Prop} {f g : σ → Nat} {init s : σ}
    (hinit : Inv init) (hstart : g init = f init)
    (hstep : ∀ s e t, step s e = some t → Inv s → Inv t)
    (hcount : ∀ s e t, step s e = some t → Inv s →
      f t ≤ g t ∧ (g t = g s ∨ g s ≤ g t ∧ g t = f t))
    {es : List ε} (hrun : exec step init es = some s) :
    IsGreatest {n | ∃ t, Visits step init es t ∧ f t = n} (g s) := by
  induction es using List.reverseRecOn generalizing s with
  | nil =>
    cases hrun
    refine ⟨⟨init, ⟨[], List.prefix_rfl, rfl⟩, hstart.symm⟩, ?_⟩
    rintro n ⟨t, ⟨pre, hpre, ht⟩, rfl⟩
    obtain rfl := List.prefix_nil.mp hpre
    cases ht
    exact Nat.le_of_eq hstart.symm
  | append_singleton es e ih =>
    obtain ⟨u, hu, hs⟩ := exec_concat.mp hrun
    obtain ⟨⟨t, ⟨pre, hpre, ht⟩, hft⟩, hupper⟩ := ih hu
    obtain ⟨hle, hnext⟩ := hcount u e s hs (exec_invariant hstep hu hinit)
    have hmono : g u ≤ g s := by
      rcases hnext with heq | ⟨hle, -⟩
      · exact Nat.le_of_eq heq.symm
      · exact hle
    constructor
    · rcases hnext with heq | ⟨-, heq⟩
      · exact ⟨t, ⟨pre, hpre.trans (List.prefix_append ..), ht⟩, hft.trans heq.symm⟩
      · exact ⟨s, ⟨es ++ [e], List.prefix_rfl, hrun⟩, heq.symm⟩
    · rintro n ⟨v, ⟨pre', hpre', hv⟩, rfl⟩
      rcases List.prefix_concat_iff.mp hpre' with rfl | hpre'
      · obtain rfl : s = v := Option.some.inj (hrun.symm.trans hv)
        exact hle
      · exact Nat.le_trans (hupper ⟨v, ⟨pre', hpre', hv⟩, rfl⟩) hmono

/-- Every step that a run takes satisfies `P` in the state it starts from. -/
def Along (step : σ → ε → Option σ) (P : σ → ε → Prop) : σ → List ε → Prop
  | _, [] => True
  | s, e :: es => P s e ∧ ∀ t, step s e = some t → Along step P t es

/-- As `Along`, with a view of the events that are still to come. -/
def Ahead (step : σ → ε → Option σ) (P : σ → ε → List ε → Prop) : σ → List ε → Prop
  | _, [] => True
  | s, e :: es => P s e es ∧ ∀ t, step s e = some t → Ahead step P t es

theorem along_cons {step : σ → ε → Option σ} {P : σ → ε → Prop} {s t : σ} {e : ε} {es : List ε}
    (h : step s e = some t) : Along step P s (e :: es) ↔ P s e ∧ Along step P t es := by
  rw [Along, h]
  simp

theorem Along.holds {step : σ → ε → Option σ} {P : σ → ε → Prop} {s t : σ} {e : ε} {es fs : List ε}
    (h : Along step P s (es ++ e :: fs)) (hrun : exec step s es = some t) : P t e := by
  induction es generalizing s with
  | nil => cases hrun; exact h.1
  | cons e' es ih =>
    obtain ⟨u, hu, ht⟩ := exec_cons.mp hrun
    exact ih (h.2 u hu) ht

theorem along_iff {step : σ → ε → Option σ} {Inv : σ → Prop} {P Q : σ → ε → Prop}
    (hagree : ∀ s e, Inv s → (P s e ↔ Q s e))
    (hstep : ∀ s e t, step s e = some t → P s e → Inv s → Inv t) {s : σ} (hs : Inv s)
    (es : List ε) : Along step P s es ↔ Along step Q s es := by
  induction es generalizing s with
  | nil => exact Iff.rfl
  | cons e es ih =>
    constructor
    · rintro ⟨hp, hrest⟩
      exact ⟨(hagree s e hs).mp hp, fun t ht => (ih (hstep s e t ht hp hs)).mp (hrest t ht)⟩
    · rintro ⟨hq, hrest⟩
      have hp := (hagree s e hs).mpr hq
      exact ⟨hp, fun t ht => (ih (hstep s e t ht hp hs)).mpr (hrest t ht)⟩

/-- What a step keeps exactly under a condition, a run keeps exactly when all its steps meet it. -/
theorem visits_iff_along {step : σ → ε → Option σ} {Inv Good : σ → Prop} {P : σ → ε → Prop}
    (hstep : ∀ s e t, step s e = some t → Inv s → Inv t)
    (hgood : ∀ s e t, step s e = some t → Inv s → Good s → (Good t ↔ P s e))
    {s t : σ} {es : List ε} (hrun : exec step s es = some t) (hs : Inv s) (hg : Good s) :
    (∀ u, Visits step s es u → Good u) ↔ Along step P s es := by
  induction es generalizing s with
  | nil =>
    refine iff_of_true ?_ trivial
    intro u hu
    obtain ⟨pre, hpre, hu⟩ := hu
    obtain rfl := List.prefix_nil.mp hpre
    cases hu
    exact hg
  | cons e es ih =>
    obtain ⟨v, hv, ht⟩ := exec_cons.mp hrun
    have hiff := hgood s e v hv hs hg
    rw [along_cons hv]
    constructor
    · intro h
      have hgv : Good v := h v ⟨[e], by simp, by simp [exec, hv]⟩
      refine ⟨hiff.mp hgv, (ih ht (hstep s e v hv hs) hgv).mp ?_⟩
      intro u hu
      obtain ⟨pre, hpre, hu⟩ := hu
      exact h u ⟨e :: pre, by simpa using hpre, exec_cons.mpr ⟨v, hv, hu⟩⟩
    · intro h u hu
      obtain ⟨hp, hrest⟩ := h
      have hgv := hiff.mpr hp
      obtain ⟨pre, hpre, hu⟩ := hu
      cases pre with
      | nil => cases hu; exact hg
      | cons e' pre =>
        obtain ⟨rfl, hrest'⟩ := List.cons_prefix_cons.mp hpre
        obtain ⟨v', hv', hu⟩ := exec_cons.mp hu
        obtain rfl : v = v' := Option.some.inj (hv.symm.trans hv')
        exact (ih ht (hstep s e' v hv hs) hgv).mpr hrest u ⟨pre, hrest', hu⟩

theorem exec_map {τ : Type*} {step : σ → ε → Option σ} {step' : τ → ε → Option τ} {abs : σ → τ}
    {Inv : σ → Prop} (hmap : ∀ s e, Inv s → (step s e).map abs = step' (abs s) e)
    (hstep : ∀ s e t, step s e = some t → Inv s → Inv t) {s : σ} (hs : Inv s) (es : List ε) :
    (exec step s es).map abs = exec step' (abs s) es := by
  induction es generalizing s with
  | nil => rfl
  | cons e es ih =>
    rw [exec, exec, ← hmap s e hs]
    cases ht : step s e with
    | none => rfl
    | some t => exact ih (hstep s e t ht hs)

end Runs
