/-
# Decoders of a stream

A decoder takes one message off the front of a buffer, or fails. It is
stable under more input: what it decodes, it decodes whatever follows. Greedy
decoding takes messages off until the decoder fails, and by stability it does
not matter where the stream was cut into reads (`greedy_append`). Of a stream
cut out of whole messages it leaves less than one of them (`greedy_cut`).

Key definitions: `Decoder`, `greedy`, `Complete`, `Hopeless`.
Key theorems: `greedy_append`, `greedy_cut`.
-/
import Mathlib

namespace Statico

/-- A decoder of messages `R` from symbols `α`: it takes at least one symbol
and at most what there is, and more input does not change what it took. -/
structure Decoder (α ε R : Type) where
  decode : List α → Except ε (R × ℕ)
  progress : ∀ {b : List α} {r : R} {n : ℕ}, decode b = .ok (r, n) → 1 ≤ n ∧ n ≤ b.length
  stable : ∀ {b : List α} {r : R} {n : ℕ}, decode b = .ok (r, n) →
    ∀ e, decode (b ++ e) = .ok (r, n)

namespace Decoder

variable {α ε R : Type} (d : Decoder α ε R)

theorem length_drop {b : List α} {r : R} {n : ℕ} (h : d.decode b = .ok (r, n)) :
    (b.drop n).length < b.length := by
  have hn := d.progress h
  rw [List.length_drop]
  omega

/-- The messages at the front of a stream with their lengths, and what is left. -/
def greedy (b : List α) : List (R × ℕ) × List α :=
  match _h : d.decode b with
  | .error _ => ([], b)
  | .ok (r, n) => ((r, n) :: (greedy (b.drop n)).1, (greedy (b.drop n)).2)
termination_by b.length
decreasing_by all_goals exact d.length_drop _h

theorem greedy_error {b : List α} {e : ε} (h : d.decode b = .error e) : d.greedy b = ([], b) := by
  rw [greedy]
  split
  · rfl
  · rename_i h'
    rw [h] at h'
    cases h'

theorem greedy_ok {b : List α} {r : R} {n : ℕ} (h : d.decode b = .ok (r, n)) :
    d.greedy b = ((r, n) :: (d.greedy (b.drop n)).1, (d.greedy (b.drop n)).2) := by
  rw [greedy]
  split
  · rename_i h'
    rw [h] at h'
    cases h'
  · rename_i h'
    rw [h] at h'
    cases h'
    rfl

/-- No message is taken off nothing. -/
theorem decode_nil : ∃ e, d.decode [] = .error e := by
  cases h : d.decode [] with
  | error e => exact ⟨e, rfl⟩
  | ok x =>
    obtain ⟨r, n⟩ := x
    have hn := d.progress h
    rw [List.length_nil] at hn
    omega

/-- What holds of a buffer the decoder rejects, and passes from what is left
after a message to the buffer before it, holds of every buffer. -/
theorem greedy_induction {P : List α → Prop} (stop : ∀ b e, d.decode b = .error e → P b)
    (next : ∀ b r n, d.decode b = .ok (r, n) → P (b.drop n) → P b) (b : List α) : P b := by
  induction hlen : b.length using Nat.strong_induction_on generalizing b with
  | _ m ih =>
    cases h : d.decode b with
    | error e => exact stop b e h
    | ok x =>
      obtain ⟨r, n⟩ := x
      have hlt := d.length_drop h
      rw [hlen] at hlt
      exact next b r n h (ih _ hlt _ rfl)

/-- Where a stream is cut does not matter: what is decoded of the first part
is decoded of the whole, and decoding goes on with what was left of it. -/
theorem greedy_append (b e : List α) : d.greedy (b ++ e) =
    ((d.greedy b).1 ++ (d.greedy ((d.greedy b).2 ++ e)).1, (d.greedy ((d.greedy b).2 ++ e)).2) := by
  apply d.greedy_induction (P := fun b => d.greedy (b ++ e) =
    ((d.greedy b).1 ++ (d.greedy ((d.greedy b).2 ++ e)).1, (d.greedy ((d.greedy b).2 ++ e)).2))
  · intro b x h
    rw [d.greedy_error h]
    rfl
  · intro b r n h ih
    have hn := (d.progress h).2
    rw [d.greedy_ok (d.stable h e), d.greedy_ok h, List.drop_append_of_le_length hn, ih]
    rfl

/-! ### Streams of messages, and streams of none -/

/-- The bytes of one message, all of them and no more. -/
def Complete (b : List α) : Prop := ∃ r, d.decode b = .ok (r, b.length)

/-- The decoder rejects the bytes, whatever comes after them. -/
def Hopeless (b : List α) : Prop := ∀ x, ∃ e, d.decode (b ++ x) = .error e

variable {d}

/-- The decoder rejects a part of a message. -/
theorem Complete.decode_part {m b : List α} (h : d.Complete m) (hb : b <+: m)
    (hlt : b.length < m.length) : ∃ e, d.decode b = .error e := by
  obtain ⟨r, hr⟩ := h
  obtain ⟨t, rfl⟩ := hb
  cases hd : d.decode b with
  | error e => exact ⟨e, rfl⟩
  | ok x =>
    obtain ⟨r', n⟩ := x
    have hn := (d.progress hd).2
    have heq := (d.stable hd t).symm.trans hr
    cases heq
    omega

/-- Greedy decoding of the beginning of a stream of messages leaves nothing,
or less than one of the messages. -/
theorem greedy_cut : ∀ {ms : List (List α)}, (∀ m ∈ ms, d.Complete m) → ∀ {b : List α},
    b <+: ms.flatten → (d.greedy b).2 = [] ∨ ∃ m ∈ ms, (d.greedy b).2.length < m.length
  | [], _, b, hb => by
    obtain rfl : b = [] := List.prefix_nil.mp hb
    obtain ⟨e, he⟩ := d.decode_nil
    rw [d.greedy_error he]
    exact Or.inl rfl
  | m :: ms, h, b, hb => by
    have hm := h m List.mem_cons_self
    rw [List.flatten_cons] at hb
    rcases Nat.lt_or_ge b.length m.length with hlt | hge
    · -- the stream ends within the first message
      have hp : b <+: m := List.prefix_of_prefix_length_le hb (List.prefix_append _ _) hlt.le
      obtain ⟨e, he⟩ := hm.decode_part hp hlt
      rw [d.greedy_error he]
      exact Or.inr ⟨m, List.mem_cons_self, hlt⟩
    · have hp : m <+: b := List.prefix_of_prefix_length_le (List.prefix_append _ _) hb hge
      obtain ⟨c, rfl⟩ := hp
      obtain ⟨r, hr⟩ := hm
      have hc : c <+: ms.flatten := (List.prefix_append_right_inj m).mp hb
      rw [d.greedy_ok (d.stable hr c), List.drop_left]
      rcases greedy_cut (fun m' hm' => h m' (List.mem_cons_of_mem _ hm')) hc with hnil | ⟨m', hm', hl⟩
      · exact Or.inl hnil
      · exact Or.inr ⟨m', List.mem_cons_of_mem _ hm', hl⟩

theorem Hopeless.append {b : List α} (h : d.Hopeless b) (x : List α) : d.Hopeless (b ++ x) := by
  intro y
  rw [List.append_assoc]
  exact h (x ++ y)

end Decoder

end Statico
