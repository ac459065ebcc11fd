import Mathlib.Data.List.Induction

/-! Logs of what happened, the latest event last. -/
namespace Trace
variable {ε : Type*} {p q : ε → Prop} {P : List ε → ε → Prop} {log : List ε} {e : ε}

/-- An event of the log satisfies `p`, and none after it satisfies `q`. -/
def Since (p q : ε → Prop) (log : List ε) : Prop :=
  ∃ pre e post, log = pre ++ e :: post ∧ p e ∧ ∀ x ∈ post, ¬ q x

/-- Every event satisfies `P` with the log before it. -/
def Always (P : List ε → ε → Prop) (log : List ε) : Prop :=
  ∀ pre e post, log = pre ++ e :: post → P pre e

theorem split_concat {pre post : List ε} {x : ε} (h : log ++ [e] = pre ++ x :: post) :
    (log = pre ∧ e = x) ∨ ∃ post', post = post' ++ [e] ∧ log = pre ++ x :: post' := by
  rcases List.eq_nil_or_concat post with rfl | ⟨post, y, rfl⟩
  · exact .inl (List.append_singleton_inj.mp h)
  · rw [List.concat_eq_append, ← List.cons_append, ← List.append_assoc] at h
    obtain ⟨hlog, rfl⟩ := List.append_singleton_inj.mp h
    exact .inr ⟨post, List.concat_eq_append, hlog⟩

theorem getElem?_concat_iff {i : Nat} {x : ε} :
    (log ++ [e])[i]? = some x ↔ log[i]? = some x ∨ i = log.length ∧ x = e := by
  rw [List.getElem?_append]
  by_cases hlt : i < log.length
  · simp [hlt, Nat.ne_of_lt hlt]
  · rw [if_neg hlt, List.getElem?_eq_none (Nat.not_lt.mp hlt)]
    by_cases heq : i = log.length
    · simp [heq, eq_comm]
    · have hne : i - log.length ≠ 0 := by omega
      simp [heq, hne]

theorem not_since_nil : ¬ Since p q [] := by
  rintro ⟨pre, e, post, heq, -, -⟩
  exact List.cons_ne_nil e post (List.append_eq_nil_iff.mp heq.symm).2

theorem since_concat : Since p q (log ++ [e]) ↔ p e ∨ ¬ q e ∧ Since p q log := by
  constructor
  · rintro ⟨pre, x, post, heq, hx, hpost⟩
    rcases split_concat heq with ⟨-, rfl⟩ | ⟨post, rfl, rfl⟩
    · exact .inl hx
    · refine .inr ⟨hpost e (List.mem_append_right post (List.mem_singleton_self e)), ?_⟩
      exact ⟨pre, x, post, rfl, hx, fun y hy => hpost y (List.mem_append_left [e] hy)⟩
  · rintro (he | ⟨he, pre, x, post, rfl, hx, hpost⟩)
    · exact ⟨log, e, [], rfl, he, nofun⟩
    · refine ⟨pre, x, post ++ [e], by simp, hx, fun y hy => ?_⟩
      rcases List.mem_append.mp hy with hy | hy
      · exact hpost y hy
      · rwa [List.mem_singleton.mp hy]

theorem always_nil : Always P [] := by
  intro pre e post heq
  exact absurd (List.append_eq_nil_iff.mp heq.symm).2 (List.cons_ne_nil e post)

theorem always_concat : Always P (log ++ [e]) ↔ Always P log ∧ P log e := by
  constructor
  · intro h
    refine ⟨fun pre x post heq => h pre x (post ++ [e]) ?_, h log e [] rfl⟩
    rw [heq, List.append_assoc, List.cons_append]
  · rintro ⟨h, he⟩ pre x post heq
    rcases split_concat heq with ⟨rfl, rfl⟩ | ⟨post, -, rfl⟩
    · exact he
    · exact h pre x post rfl

end Trace
