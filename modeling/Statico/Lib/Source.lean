/-
# Sources that hand out a list

A source is polled: each poll gives an item or nothing, and changes the
source. It drains if, with a list left, a poll gives the head and leaves the
tail. Any number of polls then gives the items in order, and nothing ever
after (`Drains.results`).

A consumer polls until the source says it is at its end, or gives nothing.
Of a source that drains and knows its end it gets the list (`Drains.drive`).

Some sources may have to wait, and a consumer polls them again (`collect`).

Key definitions: `polls`, `Drains`, `drive`, `collect`.
Key theorems: `Drains.results`, `Drains.left`, `Drains.delivered`,
`Drains.drive`, `collect_ready`.
-/
import Mathlib

namespace Statico

section Source

variable {σ α : Type} (poll : σ → Option α × σ)

/-- The results of the first `n` polls, and the source after them. -/
def polls : ℕ → σ → List (Option α) × σ
  | 0, s => ([], s)
  | n + 1, s => ((poll s).1 :: (polls n (poll s).2).1, (polls n (poll s).2).2)

/-- `R s l`: the source `s` has the list `l` left. -/
structure Drains (R : σ → List α → Prop) : Prop where
  head : ∀ {s l}, R s l → (poll s).1 = l.head?
  tail : ∀ {s l}, R s l → R (poll s).2 l.tail

namespace Drains

variable {poll} {R : σ → List α → Prop} (h : Drains poll R)

include h

/-- The items in order, and then nothing. -/
theorem results : ∀ (n : ℕ) {s : σ} {l : List α}, R s l →
    (polls poll n s).1 = (l.map some ++ List.replicate n none).take n
  | 0, _, _, _ => rfl
  | n + 1, s, l, hs => by
    rw [polls, results n (h.tail hs), h.head hs]
    cases l with
    | nil => simp [List.replicate_succ]
    | cons a l =>
      have hlen : (l.map some ++ List.replicate n none).take n =
          (l.map some ++ List.replicate (n + 1) none).take n := by
        rw [List.replicate_succ', ← List.append_assoc]
        apply (List.take_append_of_le_length _).symm
        simp
      simp [hlen]

theorem left : ∀ (n : ℕ) {s : σ} {l : List α}, R s l → R (polls poll n s).2 (l.drop n)
  | 0, _, _, hs => hs
  | n + 1, s, l, hs => by
    have ih := left n (h.tail hs)
    rwa [List.drop_tail] at ih

/-- What `n` polls delivered is the first `n` items. -/
theorem delivered (n : ℕ) {s : σ} {l : List α} (hs : R s l) :
    (polls poll n s).1.reduceOption = l.take n := by
  have hsome : ∀ l : List α, (l.map some).reduceOption = l := fun l => by
    simp [List.reduceOption, List.filterMap_map]
  rw [h.results n hs]
  rcases Nat.le_total n l.length with hn | hn
  · rw [List.take_append_of_le_length (by simpa using hn), ← List.map_take, hsome]
  · rw [List.take_append, List.take_of_length_le (by simpa using hn), List.take_of_length_le hn]
    simp [List.reduceOption_append, hsome]

end Drains

/-! ### Consuming -/

variable (ended : σ → Bool)

/-- What a consumer gets within `n` polls; `none` where these do not suffice. -/
def drive : ℕ → σ → Option (List α)
  | 0, _ => none
  | n + 1, s =>
    if ended s then some []
    else match poll s with
      | (none, _) => some []
      | (some a, t) => (drive n t).map (a :: ·)

variable {poll} {ended} {R : σ → List α → Prop}

/-- The list, in as many polls as it has items and one. -/
theorem Drains.drive (h : Drains poll R) (hended : ∀ s l, R s l → (ended s = true ↔ l = [])) :
    ∀ {n : ℕ} {s : σ} {l : List α}, R s l → l.length < n → Statico.drive poll ended n s = some l
  | 0, _, _, _, hn => absurd hn (Nat.not_lt_zero _)
  | n + 1, s, [], hs, _ => by
    rw [Statico.drive, if_pos ((hended s [] hs).mpr rfl)]
  | n + 1, s, a :: l, hs, hn => by
    have hgoes : ¬ ended s = true := fun he => List.cons_ne_nil a l ((hended s _ hs).mp he)
    have ih := h.drive hended (h.tail hs) (Nat.lt_of_succ_lt_succ hn)
    have hhead : (poll s).1 = some a := h.head hs
    rw [Statico.drive, if_neg hgoes]
    generalize poll s = x at hhead ih
    obtain ⟨y, t⟩ := x
    obtain rfl : y = some a := hhead
    show Option.map (a :: ·) (Statico.drive poll ended n t) = some (a :: l)
    rw [show Statico.drive poll ended n t = some l from ih]
    rfl

end Source

/-! ### Waiting -/

section Poll

/-- What a poll gives of a source that may have to wait: nothing yet (`none`),
or a result. -/
abbrev Poll (β : Type) : Type := Option β

variable {σ α : Type} (poll : σ → Poll (Option α) × σ) (ended : σ → Bool)

/-- What a consumer that waits gets within `n` polls; `none` where these do not
suffice. -/
def collect : ℕ → σ → Option (List α)
  | 0, _ => none
  | n + 1, s =>
    if ended s then some []
    else match poll s with
      | (none, t) => collect n t
      | (some none, _) => some []
      | (some (some a), t) => (collect n t).map (a :: ·)

/-- Of a source that never has to wait it gets what a consumer that does not
wait gets. -/
theorem collect_ready (poll : σ → Option α × σ) : ∀ (n : ℕ) (s : σ),
    collect (fun s => (some (poll s).1, (poll s).2)) ended n s = drive poll ended n s
  | 0, _ => rfl
  | n + 1, s => by
    have ih := collect_ready poll n
    rw [collect, drive]
    split_ifs
    · rfl
    · obtain ⟨_ | a, t⟩ := poll s
      · rfl
      · exact congrArg (Option.map (a :: ·)) (ih t)

end Poll

end Statico
