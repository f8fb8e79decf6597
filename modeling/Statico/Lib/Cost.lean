/-
# What a run costs

Every step of a system has a cost, and a run costs the sum. Where a step's
cost is paid from a stored potential and from income, the cost of a run is at
most the initial potential and the income (`Spends.le`). The payment may
depend on what the run comes to in the end, as long as that only gets easier
the earlier one looks.

Key definition: `Spends`.
Key theorems: `exists_spends`, `Spends.le`.
-/
import Mathlib

namespace Statico

section Cost

variable {σ : Type} (step : σ → σ → Prop) (cost : σ → σ → ℕ)

/-- A run from `s` that costs `n`. -/
inductive Spends (s : σ) : σ → ℕ → Prop
  | refl : Spends s s 0
  | tail {t u : σ} {n : ℕ} : Spends s t n → step t u → Spends s u (n + cost t u)

variable {step} {cost} {s t : σ} {n : ℕ}

theorem Spends.run (h : Spends step cost s t n) : Relation.ReflTransGen step s t := by
  induction h with
  | refl => exact .refl
  | tail _ hst ih => exact ih.tail hst

/-- Every run has a cost. -/
theorem exists_spends (cost : σ → σ → ℕ) (h : Relation.ReflTransGen step s t) :
    ∃ n, Spends step cost s t n := by
  induction h with
  | refl => exact ⟨0, .refl⟩
  | tail _ hst ih =>
    obtain ⟨n, hn⟩ := ih
    exact ⟨_, hn.tail hst⟩

/-- The potential method: `potential` is what is stored, `income` what came in
so far, and `good` holds of a state if it holds of a later one. -/
theorem Spends.le (weight : ℕ) (potential income : σ → ℕ) {good : σ → Prop}
    (back : ∀ t u, step t u → good u → good t)
    (pay : ∀ t u, Relation.ReflTransGen step s t → step t u → good u →
      weight * cost t u + potential u + income t ≤ potential t + income u)
    (h : Spends step cost s t n) (ht : good t) :
    weight * n + potential t + income s ≤ potential s + income t := by
  induction h with
  | refl => omega
  | @tail t u n hn hst ih =>
    have hpaid := ih (back t u hst ht)
    have hstep := pay t u hn.run hst ht
    rw [Nat.mul_add]
    omega

end Cost

end Statico
