/-
# Calls that return an option, panic, or loop

`Scan α` is what a call of a function returning an option of `α` ends in:
`ok` a value, `fail` (the `None` that `?` passes on), or `halt` without
returning at all, by a panic or by a loop that outran its bound. `loop` is a
loop whose body either goes on from a new state or leaves with a result.

`Scan.Rel P` relates two calls that end alike with values related by `P`. It
goes through `>>=` (`Scan.Rel.bind`) and through loops whose bodies keep a
relation between their states (`loop_rel`), so two programs that walk the
same input are compared one step at a time.

`Scan.Ensures H P` says that a call returns nothing but values with `P` and
halts for no reason but those of `H`. It goes through `>>=` and loops in the
same way (`loop_ensures`).

Key definitions: `Scan`, `Step`, `loop`, `Scan.Rel`, `Scan.Ensures`.
Key theorems: `Scan.Rel.bind`, `loop_rel`, `loop_ensures`.
-/
import Mathlib

namespace Statico

/-- Why a call does not return: an overflow panic, a slice taken out of range,
or a loop past its bound. -/
inductive Halt
  | addOverflow
  | subOverflow
  | sliceRange
  | budget
  deriving DecidableEq, Repr

/-- How a call of a function returning an option ends. -/
inductive Scan (α : Type)
  | ok (a : α)
  | fail
  | halt (h : Halt)
  deriving DecidableEq, Repr

/-- What the body of a loop does: go on, or leave with a result. -/
inductive Step (σ α : Type)
  | next (s : σ)
  | done (a : α)
  deriving DecidableEq, Repr

namespace Scan

variable {α β γ : Type}

/-- The rest of a function after `?`. -/
def bind : Scan α → (α → Scan β) → Scan β
  | ok a, f => f a
  | fail, _ => fail
  | halt h, _ => halt h

instance : Monad Scan where
  pure := ok
  bind := bind

@[simp] theorem pure_def (a : α) : (pure a : Scan α) = ok a := rfl
@[simp] theorem ok_bind (a : α) (f : α → Scan β) : (ok a >>= f) = f a := rfl
@[simp] theorem fail_bind (f : α → Scan β) : (fail >>= f) = fail := rfl
@[simp] theorem halt_bind (h : Halt) (f : α → Scan β) : (halt h >>= f) = halt h := rfl

instance : LawfulMonad Scan :=
  LawfulMonad.mk' Scan (fun x => by cases x <;> rfl) (fun _ _ => rfl) (fun x _ _ => by cases x <;> rfl)

@[simp] theorem map_ok (f : α → β) (a : α) : (f <$> ok a) = ok (f a) := rfl
@[simp] theorem map_fail (f : α → β) : (f <$> fail) = fail := rfl
@[simp] theorem map_halt (f : α → β) (h : Halt) : (f <$> halt h) = halt h := rfl

/-- An option, as the result of a call. -/
def ofOption : Option α → Scan α
  | some a => ok a
  | none => fail

@[simp] theorem ofOption_some (a : α) : ofOption (some a) = ok a := rfl
@[simp] theorem ofOption_none : ofOption (none : Option α) = fail := rfl

/-- The option itself, as a value. -/
def attempt : Scan α → Scan (Option α)
  | ok a => ok (some a)
  | fail => ok none
  | halt h => halt h

@[simp] theorem attempt_ok (a : α) : (ok a).attempt = ok (some a) := rfl
@[simp] theorem attempt_fail : (fail : Scan α).attempt = ok none := rfl
@[simp] theorem attempt_halt (h : Halt) : (halt h : Scan α).attempt = halt h := rfl

theorem bind_of_ok {x : Scan α} {a : α} (h : x = ok a) (f : α → Scan β) : (x >>= f) = f a := by
  rw [h, ok_bind]

theorem bind_eq_ok {x : Scan α} {f : α → Scan β} {b : β} :
    (x >>= f) = ok b ↔ ∃ a, x = ok a ∧ f a = ok b := by
  cases x <;> simp

/-- Two calls that end alike, their values related by `P`. -/
inductive Rel (P : α → β → Prop) : Scan α → Scan β → Prop
  | ok {a : α} {b : β} : P a b → Rel P (ok a) (ok b)
  | fail : Rel P fail fail
  | halt (h : Halt) : Rel P (halt h) (halt h)

theorem Rel.bind {α' β' : Type} {P : α → β → Prop} {Q : α' → β' → Prop} {x : Scan α} {y : Scan β}
    {f : α → Scan α'} {g : β → Scan β'} (h : Rel P x y) (hfg : ∀ a b, P a b → Rel Q (f a) (g b)) :
    Rel Q (x >>= f) (y >>= g) := by
  cases h with
  | ok h => exact hfg _ _ h
  | fail => exact .fail
  | halt h => exact .halt h

theorem Rel.refl (x : Scan α) : Rel Eq x x := by
  cases x with
  | ok a => exact .ok rfl
  | fail => exact .fail
  | halt h => exact .halt h

theorem Rel.eq {x y : Scan α} (h : Rel Eq x y) : x = y := by
  cases h with
  | ok h => rw [h]
  | fail => rfl
  | halt h => rfl

theorem Rel.mono {P Q : α → β → Prop} {x : Scan α} {y : Scan β} (h : Rel P x y)
    (hPQ : ∀ a b, P a b → Q a b) : Rel Q x y := by
  cases h with
  | ok h => exact .ok (hPQ _ _ h)
  | fail => exact .fail
  | halt h => exact .halt h

/-- What a call related to a value returns. -/
theorem Rel.exists_ok {P : α → β → Prop} {x : Scan α} {b : β} (h : Rel P x (.ok b)) :
    ∃ a, x = .ok a ∧ P a b := by
  cases h with
  | ok h => exact ⟨_, rfl, h⟩

theorem Rel.eq_halt {P : α → β → Prop} {x : Scan α} {w : Halt} (h : Rel P x (.halt w)) :
    x = .halt w := by
  cases h with
  | halt => rfl

theorem Rel.map_option {P : α → β → Prop} {Q : α → γ → Prop} {x : Scan α} {o : Option β} {g : β → γ}
    (h : Rel P x (ofOption o)) (hPQ : ∀ a b, P a b → Q a (g b)) : Rel Q x (ofOption (o.map g)) := by
  cases o with
  | none =>
    change Rel P x Scan.fail at h
    cases h
    exact .fail
  | some b =>
    change Rel P x (Scan.ok b) at h
    cases h with
    | ok h => exact .ok (hPQ _ _ h)

/-- The call returns values with `P` only, and halts only as `H` allows. -/
def Ensures (H : Halt → Prop) (P : α → Prop) : Scan α → Prop
  | ok a => P a
  | fail => True
  | halt h => H h

variable {H : Halt → Prop}

theorem Ensures.of_ok {P : α → Prop} {x : Scan α} {a : α} (h : Ensures H P x) (hx : x = ok a) : P a := by
  rw [hx] at h
  exact h

theorem Ensures.bind {P : α → Prop} {Q : β → Prop} {x : Scan α} {f : α → Scan β} (h : Ensures H P x)
    (hf : ∀ a, P a → Ensures H Q (f a)) : Ensures H Q (x >>= f) := by
  cases x with
  | ok a => exact hf a h
  | fail => trivial
  | halt w => exact h

theorem Ensures.mono {P Q : α → Prop} {x : Scan α} (h : Ensures H P x) (hPQ : ∀ a, P a → Q a) :
    Ensures H Q x := by
  cases x with
  | ok a => exact hPQ a h
  | fail => trivial
  | halt w => exact h

/-- What a call ensures, a call related to it ensures too. -/
theorem Rel.ensures {P : α → β → Prop} {Q : β → Prop} {R : α → Prop} {x : Scan α} {y : Scan β}
    (h : Rel P x y) (hy : Ensures H Q y) (hR : ∀ a b, P a b → Q b → R a) : Ensures H R x := by
  cases h with
  | ok h => exact hR _ _ h hy
  | fail => trivial
  | halt w => exact hy

theorem Ensures.ne_halt {P : α → Prop} {x : Scan α} {w : Halt} (h : Ensures H P x) (hw : ¬ H w) :
    x ≠ .halt w := by
  intro e
  rw [e] at h
  exact hw h

theorem Ensures.attempt {P : α → Prop} {x : Scan α} (h : Ensures H P x) :
    Ensures H (fun o => ∀ a ∈ o, P a) x.attempt := by
  cases x with
  | ok a =>
    rintro b ⟨⟩
    exact h
  | fail =>
    rintro b ⟨⟩
  | halt w => exact h

theorem ensures_option (o : Option α) : Ensures H (fun a => o = some a) (ofOption o) := by
  cases o with
  | none => trivial
  | some a => exact rfl

end Scan

/-- A loop body goes on from states with `I` only, and leaves with results
with `P` only. -/
def Step.Ensures {σ α : Type} (I : σ → Prop) (P : α → Prop) : Step σ α → Prop
  | .next s => I s
  | .done a => P a

/-- Two loop bodies that both go on, from related states, or both leave with
the same result. -/
inductive Step.Rel {σ τ α : Type} (R : σ → τ → Prop) : Step σ α → Step τ α → Prop
  | next {s : σ} {t : τ} : R s t → Step.Rel R (.next s) (.next t)
  | done (a : α) : Step.Rel R (.done a) (.done a)

/-- A loop that runs its body at most `n` times. -/
def loop {σ α : Type} (body : σ → Scan (Step σ α)) : ℕ → σ → Scan α
  | 0, _ => .halt .budget
  | n + 1, s => do
    match ← body s with
    | .next s' => loop body n s'
    | .done a => return a

section Loop

variable {σ τ α : Type}

theorem loop_succ (body : σ → Scan (Step σ α)) (n : ℕ) (s : σ) :
    loop body (n + 1) s = (body s >>= fun
      | .next s' => loop body n s'
      | .done a => .ok a) := rfl

/-- A turn of a loop whose result `k` goes on with. -/
def Step.finish {β : Type} (k : α → Scan β) : Step σ α → Scan (Step σ β)
  | .next s => .ok (.next s)
  | .done a => k a >>= fun b => .ok (.done b)

/-- What follows a loop can as well be done where the loop leaves. -/
theorem loop_bind {β : Type} (body : σ → Scan (Step σ α)) (k : α → Scan β) : ∀ (n : ℕ) (s : σ),
    (loop body n s >>= k) = loop (fun s => body s >>= Step.finish k) n s
  | 0, _ => rfl
  | n + 1, s => by
    rw [loop_succ, loop_succ]
    cases body s with
    | fail => rfl
    | halt w => rfl
    | ok x =>
      cases x with
      | next s' => exact loop_bind body k n s'
      | done a =>
        simp only [Scan.ok_bind, Step.finish]
        cases k a <;> rfl

/-- Loops whose bodies keep a relation between their states end alike. -/
theorem loop_rel {R : σ → τ → Prop} {f : σ → Scan (Step σ α)} {g : τ → Scan (Step τ α)}
    (h : ∀ s t, R s t → Scan.Rel (Step.Rel R) (f s) (g t)) :
    ∀ (n : ℕ) {s : σ} {t : τ}, R s t → loop f n s = loop g n t
  | 0, _, _, _ => rfl
  | n + 1, s, t, hst => by
    rw [loop_succ, loop_succ]
    refine Scan.Rel.eq ((h s t hst).bind fun a b hab => ?_)
    cases hab with
    | @next s' t' hR =>
      show Scan.Rel Eq (loop f n s') (loop g n t')
      rw [loop_rel h n hR]
      exact .refl _
    | done a => exact .refl _

/-- What the body keeps the loop keeps, and it ends if the body makes progress. -/
theorem loop_ensures {H : Halt → Prop} {I : σ → Prop} {P : α → Prop} {body : σ → Scan (Step σ α)}
    (μ : σ → ℕ)
    (h : ∀ s, I s → (body s).Ensures H (Step.Ensures (fun s' => I s' ∧ μ s' < μ s) P)) :
    ∀ (n : ℕ) {s : σ}, I s → μ s < n → (loop body n s).Ensures H P
  | 0, _, _, hn => absurd hn (Nat.not_lt_zero _)
  | n + 1, s, hs, hn => by
    rw [loop_succ]
    apply (h s hs).bind
    intro x hx
    cases x with
    | next s' => exact loop_ensures μ h n hx.1 (by have := hx.2; omega)
    | done a => exact hx

end Loop

end Statico
