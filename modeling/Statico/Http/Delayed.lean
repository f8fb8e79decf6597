/-
# A delayed body

With `--body-delay` the body of a response waits for a timer before it gives
its first frame. `DelayedBody` polls the timer until it has fired, and never
again, and then the body inside, which nobody touched before
(`polls_delayed`). Who reads the body gets the frames it has without the delay
(`delayed_delivers`).

Key definitions: `Body`, `DelayedBody`, `Fires`.
Key theorems: `polls_delayed`, `collect_delayed`, `delayed_delivers`.
-/
import Statico.Lib.Source

namespace Statico
namespace Http

/-- `http_body::Body`: a poll gives the next frame, the end, or nothing yet. -/
structure Body (B α : Type) where
  pollFrame : B → Poll (Option α) × B
  isEndStream : B → Bool
  sizeHint : B → ℕ × Option ℕ

structure DelayedBody (B T : Type) where
  inner : B
  delay : T
  delayFinished : Bool

namespace DelayedBody

variable {B T α : Type}

def new (inner : B) (duration : T) : DelayedBody B T where
  inner := inner
  delay := duration
  delayFinished := false

variable (body : Body B α) (timer : T → Bool × T)

/-- `poll_frame`; a poll of the timer says whether it has fired. -/
def pollFrame (this : DelayedBody B T) : Poll (Option α) × DelayedBody B T :=
  if !this.delayFinished then
    match timer this.delay with
    | (true, delay) =>
      let (frame, inner) := body.pollFrame this.inner
      (frame, ⟨inner, delay, true⟩)
    | (false, delay) => (none, { this with delay := delay })
  else
    let (frame, inner) := body.pollFrame this.inner
    (frame, { this with inner := inner })

def isEndStream (this : DelayedBody B T) : Bool := this.delayFinished && body.isEndStream this.inner

def sizeHint (this : DelayedBody B T) : ℕ × Option ℕ := body.sizeHint this.inner

/-! ### The timer -/

/-- The timer fires on the poll after the next `w`. -/
inductive Fires : ℕ → T → Prop
  | now {t : T} : (timer t).1 = true → Fires 0 t
  | later {w : ℕ} {t : T} : (timer t).1 = false → Fires w (timer t).2 → Fires (w + 1) t

/-- The timer after `n` polls. -/
def timerAfter (n : ℕ) (t : T) : T := (fun t => (timer t).2)^[n] t

/-! ### Polls -/

variable {body timer} {inner : B} {t : T}

theorem pollFrame_finished (inner : B) (t : T) : pollFrame body timer ⟨inner, t, true⟩ =
    ((body.pollFrame inner).1, ⟨(body.pollFrame inner).2, t, true⟩) := rfl

theorem pollFrame_fired (h : (timer t).1 = true) : pollFrame body timer (new inner t) =
    ((body.pollFrame inner).1, ⟨(body.pollFrame inner).2, (timer t).2, true⟩) := by
  simp only [pollFrame, new, Bool.not_false, if_true]
  generalize timer t = x at h ⊢
  obtain ⟨fired, t'⟩ := x
  obtain rfl : fired = true := h
  rfl

theorem pollFrame_waits (h : (timer t).1 = false) :
    pollFrame body timer (new inner t) = (none, new inner (timer t).2) := by
  simp only [pollFrame, new, Bool.not_false, if_true]
  generalize timer t = x at h ⊢
  obtain ⟨fired, t'⟩ := x
  obtain rfl : fired = false := h
  rfl

/-- Once the timer has fired, polls are those of the body inside. -/
theorem polls_finished : ∀ (n : ℕ) (inner : B), polls (pollFrame body timer) n ⟨inner, t, true⟩ =
    ((polls body.pollFrame n inner).1, ⟨(polls body.pollFrame n inner).2, t, true⟩)
  | 0, _ => rfl
  | n + 1, inner => by
    rw [polls, pollFrame_finished, polls_finished n]
    rfl

/-- The polls before the timer fires give nothing and poll it alone; all later
ones are those of the body inside. -/
theorem polls_delayed {w : ℕ} (hw : Fires timer w t) (n : ℕ) :
    polls (pollFrame body timer) n (new inner t) =
      (List.replicate (min w n) none ++ (polls body.pollFrame (n - w) inner).1,
        ⟨(polls body.pollFrame (n - w) inner).2, timerAfter timer (min n (w + 1)) t, decide (w < n)⟩) := by
  induction hw generalizing n with
  | now h =>
    cases n with
    | zero => rfl
    | succ n =>
      have hmin : min (n + 1) (0 + 1) = 1 := by omega
      rw [polls, pollFrame_fired h, polls_finished, hmin]
      simp only [Nat.zero_min, List.replicate_zero, List.nil_append, Nat.sub_zero, Nat.zero_lt_succ, decide_true]
      rfl
  | @later w t h _ ih =>
    cases n with
    | zero => simp [polls, new, timerAfter]
    | succ n =>
      have hmin : min (w + 1) (n + 1) = min w n + 1 ∧ min (n + 1) (w + 1 + 1) = min n (w + 1) + 1 := by omega
      rw [polls, pollFrame_waits h, ih, hmin.1, hmin.2, Nat.add_sub_add_right]
      simp only [List.replicate_succ, List.cons_append, Nat.add_lt_add_iff_right]
      rfl

/-! ### Reading -/

theorem collect_finished : ∀ (n : ℕ) (inner : B),
    collect (pollFrame body timer) (isEndStream body) n ⟨inner, t, true⟩ =
      collect body.pollFrame body.isEndStream n inner
  | 0, _ => rfl
  | n + 1, inner => by
    rw [collect, collect, pollFrame_finished]
    have ih := fun b => collect_finished n b
    show (if body.isEndStream inner then _ else _) = _
    split_ifs
    · rfl
    · obtain ⟨_ | _ | a, b⟩ := body.pollFrame inner
      · exact ih b
      · rfl
      · exact congrArg (Option.map (a :: ·)) (ih b)

/-- Who reads the body waits for the timer first. -/
theorem collect_delayed (hend : body.isEndStream inner = true → (body.pollFrame inner).1 = some none)
    {w : ℕ} (hw : Fires timer w t) (n : ℕ) :
    collect (pollFrame body timer) (isEndStream body) (w + (n + 1)) (new inner t) =
      collect body.pollFrame body.isEndStream (n + 1) inner := by
  induction hw with
  | @now t h =>
    rw [Nat.zero_add, collect, collect, pollFrame_fired h]
    show (if false = true then _ else _) = _
    rw [if_neg (by decide)]
    have hfin : ∀ b, collect (pollFrame body timer) (isEndStream body) n ⟨b, (timer t).2, true⟩ =
        collect body.pollFrame body.isEndStream n b := collect_finished n
    by_cases hi : body.isEndStream inner = true
    · -- the body inside is polled even at its end
      rw [if_pos hi]
      have hnone := hend hi
      generalize body.pollFrame inner = x at hnone ⊢
      obtain ⟨y, b⟩ := x
      obtain rfl : y = some none := hnone
      rfl
    · rw [if_neg hi]
      obtain ⟨_ | _ | a, b⟩ := body.pollFrame inner
      · exact hfin b
      · rfl
      · exact congrArg (Option.map (a :: ·)) (hfin b)
  | @later w t h _ ih =>
    rw [show w + 1 + (n + 1) = (w + (n + 1)) + 1 by omega, collect, pollFrame_waits h]
    show (if false = true then _ else _) = _
    rw [if_neg (by decide)]
    exact ih

/-- The body of a response is not touched before the timer has fired, which is
polled once more than it has to wait for; the stream is not at its end before,
and then as far as the body inside is. Of a body that never waits who reads it
gets all frames. -/
theorem delayed_delivers (body : Body B α) (timer : T → Bool × T) (inner : B) (t : T) (w : ℕ)
    (hw : Fires timer w t) :
    (∀ n, (polls (pollFrame body timer) n (new inner t)).1 =
        List.replicate (min w n) none ++ (polls body.pollFrame (n - w) inner).1 ∧
      (polls (pollFrame body timer) n (new inner t)).2.inner = (polls body.pollFrame (n - w) inner).2 ∧
      (polls (pollFrame body timer) n (new inner t)).2.delay = timerAfter timer (min n (w + 1)) t ∧
      (isEndStream body (polls (pollFrame body timer) n (new inner t)).2 = true ↔
        w < n ∧ body.isEndStream (polls body.pollFrame (n - w) inner).2 = true) ∧
      sizeHint body (polls (pollFrame body timer) n (new inner t)).2 =
        body.sizeHint (polls body.pollFrame (n - w) inner).2) ∧
    ∀ (poll : B → Option α × B) (R : B → List α → Prop) (l : List α),
      (∀ b, body.pollFrame b = (some (poll b).1, (poll b).2)) → Drains poll R →
      (∀ b l, R b l → (body.isEndStream b = true ↔ l = [])) → R inner l →
      ∀ n, l.length < n → collect (pollFrame body timer) (isEndStream body) (w + n) (new inner t) = some l := by
  constructor
  · intro n
    rw [polls_delayed hw n]
    refine ⟨rfl, rfl, rfl, ?_, rfl⟩
    rw [isEndStream, Bool.and_eq_true, decide_eq_true_eq]
  · intro poll R l hpoll hdrains hended hl n hn
    have hend : body.isEndStream inner = true → (body.pollFrame inner).1 = some none := fun h => by
      rw [hpoll]
      show some (poll inner).1 = some none
      rw [hdrains.head hl, (hended inner l hl).mp h]
      rfl
    obtain ⟨n, rfl⟩ := Nat.exists_eq_succ_of_ne_zero (Nat.ne_zero_of_lt hn)
    rw [collect_delayed hend hw, funext hpoll, collect_ready]
    exact hdrains.drive hended hl hn

/-- A body with at most one frame. -/
def sampleBody : Body (Option ℕ) ℕ where
  pollFrame f := (some f, none)
  isEndStream f := f.isNone
  sizeHint f := (f.toList.length, some f.toList.length)

/-- A timer that fires on the third poll. -/
theorem delayed_delivers_seven :
    collect (pollFrame sampleBody fun t : ℕ => (decide (2 ≤ t), t + 1)) (isEndStream sampleBody) (2 + 2)
      (new (some 7) 0) = some [7] :=
  (delayed_delivers sampleBody (fun t : ℕ => (decide (2 ≤ t), t + 1)) (some 7) 0 2
    (.later rfl (.later rfl (.now rfl)))).2 (fun f => (f, none)) (fun f l => l = f.toList) [7] (fun _ => rfl)
    ⟨by rintro f l rfl; cases f <;> rfl, by rintro f l rfl; cases f <;> rfl⟩
    (by rintro f l rfl; cases f <;> simp [sampleBody]) rfl 2 (by decide)

end DelayedBody

end Http
end Statico
