import Mathlib.Data.Option.Basic

/-! Loops: a body either goes on with a state or leaves with a result. -/
namespace Loop
variable {σ ρ : Type*}

/-- At most `n` rounds of a loop; `none` when they do not suffice. -/
def run (body : σ → σ ⊕ ρ) : Nat → σ → Option ρ
  | 0, _ => none
  | n + 1, s =>
    match body s with
    | .inl t => run body n t
    | .inr r => some r

def Returns (body : σ → σ ⊕ ρ) (s : σ) (r : ρ) : Prop := ∃ n, run body n s = some r

theorem run_mono {body : σ → σ ⊕ ρ} {n m : Nat} {s : σ} {r : ρ} (h : run body n s = some r)
    (hle : n ≤ m) : run body m s = some r := by
  induction n generalizing m s with
  | zero => cases h
  | succ n ih =>
    obtain ⟨d, rfl⟩ := Nat.exists_eq_add_of_le hle
    rw [show n + 1 + d = n + d + 1 by omega]
    simp only [run] at h ⊢
    cases hb : body s with
    | inl t => exact ih (by simpa [hb] using h) (by omega)
    | inr r' => simpa [hb] using h

theorem Returns.unique {body : σ → σ ⊕ ρ} {s : σ} {r r' : ρ} (h : Returns body s r)
    (h' : Returns body s r') : r = r' := by
  obtain ⟨n, hn⟩ := h
  obtain ⟨m, hm⟩ := h'
  have hr := run_mono hn (Nat.le_max_left n m)
  have hr' := run_mono hm (Nat.le_max_right n m)
  exact Option.some.inj (hr.symm.trans hr')

theorem Returns.leave {body : σ → σ ⊕ ρ} {s : σ} {r : ρ} (h : body s = .inr r) :
    Returns body s r := ⟨1, by simp [run, h]⟩

theorem Returns.next {body : σ → σ ⊕ ρ} {s t : σ} {r : ρ} (h : body s = .inl t)
    (ht : Returns body t r) : Returns body s r := by
  obtain ⟨n, hn⟩ := ht
  exact ⟨n + 1, by simp [run, h, hn]⟩

/-- What a round must do: keep the invariant and shrink the measure, or leave as promised. -/
def Round (Inv : σ → Prop) (measure : σ → Nat) (Post : ρ → Prop) (s : σ) : σ ⊕ ρ → Prop
  | .inl t => Inv t ∧ measure t < measure s
  | .inr r => Post r

theorem total {body : σ → σ ⊕ ρ} {Inv : σ → Prop} {measure : σ → Nat} {Post : ρ → Prop}
    (hround : ∀ s, Inv s → Round Inv measure Post s (body s)) {s : σ} (hs : Inv s) :
    ∃ r, Returns body s r ∧ Post r := by
  induction hn : measure s using Nat.strongRecOn generalizing s with
  | ind n ih =>
    have h := hround s hs
    cases hb : body s with
    | inl t =>
      obtain ⟨ht, hlt⟩ : Inv t ∧ measure t < measure s := by rwa [hb] at h
      obtain ⟨r, hr, hpost⟩ := ih (measure t) (hn ▸ hlt) ht rfl
      exact ⟨r, hr.next hb, hpost⟩
    | inr r => exact ⟨r, .leave hb, by rwa [hb] at h⟩

theorem run_post {body : σ → σ ⊕ ρ} {Inv : σ → Prop} {Post : ρ → Prop}
    (hnext : ∀ s t, Inv s → body s = .inl t → Inv t)
    (hleave : ∀ s r, Inv s → body s = .inr r → Post r) {n : Nat} {s : σ} {r : ρ}
    (hrun : run body n s = some r) (hs : Inv s) : Post r := by
  induction n generalizing s with
  | zero => cases hrun
  | succ n ih =>
    rw [run] at hrun
    cases hb : body s with
    | inl t => exact ih (by simpa [hb] using hrun) (hnext s t hs hb)
    | inr r' =>
      obtain rfl : r' = r := by simpa [hb] using hrun
      exact hleave s r' hs hb

/-- A loop that every round keeps going does not leave. -/
theorem diverges {body : σ → σ ⊕ ρ} {Inv : σ → Prop}
    (hnext : ∀ s, Inv s → ∃ t, body s = .inl t ∧ Inv t) {s : σ} (hs : Inv s) (r : ρ) :
    ¬ Returns body s r := by
  rintro ⟨n, hrun⟩
  have hstep : ∀ s t, Inv s → body s = .inl t → Inv t := by
    intro s t hs hb
    obtain ⟨t', ht, hinv⟩ := hnext s hs
    rw [ht] at hb
    cases hb
    exact hinv
  have hleave : ∀ s r, Inv s → body s = .inr r → False := by
    intro s r hs hb
    obtain ⟨t, ht, -⟩ := hnext s hs
    rw [ht] at hb
    cases hb
  exact run_post hstep hleave hrun hs

inductive Visits (body : σ → σ ⊕ ρ) (s : σ) : σ → Prop
  | start : Visits body s s
  | next {t u : σ} : Visits body s t → body t = .inl u → Visits body s u

theorem Visits.invariant {body : σ → σ ⊕ ρ} {Inv : σ → Prop} {s t : σ} (h : Visits body s t)
    (hs : Inv s) (hnext : ∀ t u, Visits body s t → Inv t → body t = .inl u → Inv u) : Inv t := by
  induction h with
  | start => exact hs
  | next ht hb ih => exact hnext _ _ ht ih hb

theorem Visits.of_next {body : σ → σ ⊕ ρ} {s t u : σ} (hb : body s = .inl t)
    (h : Visits body t u) : Visits body s u := by
  induction h with
  | start => exact .next .start hb
  | next _ hb' ih => exact ih.next hb'

theorem visits_iff {body : σ → σ ⊕ ρ} {s t : σ} :
    Visits body s t ↔ t = s ∨ ∃ u, body s = .inl u ∧ Visits body u t := by
  constructor
  · intro h
    induction h with
    | start => exact .inl rfl
    | next _ hb ih =>
      cases ih with
      | inl heq => exact .inr ⟨_, heq ▸ hb, .start⟩
      | inr hlater =>
        obtain ⟨u, hu, hvisits⟩ := hlater
        exact .inr ⟨u, hu, hvisits.next hb⟩
  · rintro (rfl | ⟨u, hu, hvisits⟩)
    · exact .start
    · exact hvisits.of_next hu

theorem Returns.last {body : σ → σ ⊕ ρ} {s : σ} {r : ρ} (h : Returns body s r) :
    ∃ t, Visits body s t ∧ body t = .inr r := by
  obtain ⟨n, hrun⟩ := h
  induction n generalizing s with
  | zero => cases hrun
  | succ n ih =>
    rw [run] at hrun
    cases hb : body s with
    | inl t =>
      obtain ⟨u, hvisits, hu⟩ := ih (by simpa [hb] using hrun)
      exact ⟨u, hvisits.of_next hb, hu⟩
    | inr r' =>
      obtain rfl : r' = r := by simpa [hb] using hrun
      exact ⟨s, .start, hb⟩

end Loop
