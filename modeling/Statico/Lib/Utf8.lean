/-
# Text in UTF-8

A byte below 128 in an encoded text is an ASCII character of the text, so the
blanks and tabs at the ends of its encoding are those of the text: without
white space around it, a text is encoded without blanks around it
(`trim_utf8`). Bytes that are no encoding are decoded with a replacement for
each longest run that starts none (`fromUtf8Lossy`).

Key definitions: `utf8`, `trimBoth`, `fromUtf8Lossy`.
Key theorems: `encode_low`, `trim_utf8`, `calm_fromUtf8Lossy`.
-/
import Statico.Lib.Http1

namespace Statico

open Http1

/-! ### Trimming -/

section Trim

variable {α : Type} {p : α → Bool}

/-- The list without what satisfies `p` at its ends. -/
def trimBoth (p : α → Bool) (l : List α) : List α := (l.dropWhile p).rdropWhile p

theorem trimBoth_self {l : List α} (hh : ∀ a ∈ l.head?, p a = false) (hl : ∀ a ∈ l.getLast?, p a = false) :
    trimBoth p l = l := by
  have hdrop : l.dropWhile p = l := by
    cases l with
    | nil => rfl
    | cons a l => rw [List.dropWhile_cons, if_neg (by rw [hh a rfl]; decide)]
  rw [trimBoth, hdrop, List.rdropWhile_eq_self_iff]
  intro hne
  rw [hl _ (List.getLast?_eq_some_getLast hne)]
  decide

theorem head_trimBoth (l : List α) : ∀ a ∈ (trimBoth p l).head?, p a = false := by
  intro a ha
  obtain ⟨t, ht⟩ := List.head?_eq_some_iff.mp ha
  obtain ⟨u, hu⟩ : trimBoth p l <+: l.dropWhile p := List.rdropWhile_prefix p _
  rw [ht, List.cons_append] at hu
  have hnot := List.dropWhile_get_zero_not p l (by rw [← hu]; exact Nat.succ_pos _)
  simpa [← hu] using hnot

theorem last_trimBoth (l : List α) : ∀ a ∈ (trimBoth p l).getLast?, p a = false := by
  intro a ha
  have hne : trimBoth p l ≠ [] := by
    rintro h
    rw [h] at ha
    cases ha
  have hlast := List.rdropWhile_last_not p _ hne
  rw [List.getLast?_eq_some_getLast hne] at ha
  cases ha
  exact Bool.eq_false_iff.mpr hlast

end Trim

/-! ### Encoding -/

/-- The bytes of a text. -/
def utf8 (s : List Char) : Bytes := s.flatMap String.utf8EncodeChar

/-- A byte of a character beyond ASCII is not below 128. -/
theorem encode_low {c : Char} {b : UInt8} (hb : b ∈ String.utf8EncodeChar c) (hlow : b < 0x80) :
    String.utf8EncodeChar c = [b] ∧ c.toNat = b.toNat := by
  have hhigh : ∀ n : ℕ, 0x80 ≤ n → n < 256 → ¬ UInt8.ofNat n < 0x80 := by
    intro n h1 h2 h
    rw [UInt8.lt_iff_toNat_lt, UInt8.toNat_ofNat_of_lt' h2] at h
    exact absurd h (Nat.not_lt.mpr h1)
  unfold String.utf8EncodeChar at hb ⊢
  simp only at hb ⊢
  split_ifs at hb ⊢ with h1 h2 h3
  · have he := List.mem_singleton.mp hb
    refine ⟨by rw [he], ?_⟩
    rw [he, UInt8.toNat_ofNat_of_lt' (show c.val.toNat < 256 by omega)]
    rfl
  · simp only [List.mem_cons, List.not_mem_nil, or_false] at hb
    rcases hb with rfl | rfl
    · exact absurd hlow (hhigh _ (by omega) (by omega))
    · exact absurd hlow (hhigh _ (by omega) (by omega))
  · simp only [List.mem_cons, List.not_mem_nil, or_false] at hb
    rcases hb with rfl | rfl | rfl
    · exact absurd hlow (hhigh _ (by omega) (by omega))
    · exact absurd hlow (hhigh _ (by omega) (by omega))
    · exact absurd hlow (hhigh _ (by omega) (by omega))
  · simp only [List.mem_cons, List.not_mem_nil, or_false] at hb
    rcases hb with rfl | rfl | rfl | rfl
    · exact absurd hlow (hhigh _ (by omega) (by omega))
    · exact absurd hlow (hhigh _ (by omega) (by omega))
    · exact absurd hlow (hhigh _ (by omega) (by omega))
    · exact absurd hlow (hhigh _ (by omega) (by omega))

theorem isOws_low {b : UInt8} (h : isOws b = true) : b < 0x80 ∧ (b.toNat = 0x20 ∨ b.toNat = 0x09) := by
  have hall : ∀ b : UInt8, isOws b = true → b < 0x80 ∧ (b.toNat = 0x20 ∨ b.toNat = 0x09) := by decide +kernel
  exact hall b h

/-- A text that neither starts nor ends with a blank or a tab is encoded
without any around it. -/
theorem trim_utf8 {s : List Char} (hh : ∀ c ∈ s.head?, ¬ (c.toNat = 0x20 ∨ c.toNat = 0x09))
    (hl : ∀ c ∈ s.getLast?, ¬ (c.toNat = 0x20 ∨ c.toNat = 0x09)) : trim (utf8 s) = utf8 s := by
  have hows : ∀ {c : Char} {b : UInt8}, b ∈ String.utf8EncodeChar c → ¬ (c.toNat = 0x20 ∨ c.toNat = 0x09) →
      isOws b = false := by
    intro c b hb hc
    by_contra h
    obtain ⟨hlow, hcode⟩ := isOws_low (Bool.eq_true_of_not_eq_false h)
    rw [← (encode_low hb hlow).2] at hcode
    exact hc hcode
  apply trimBoth_self
  · intro b hb
    cases s with
    | nil => cases hb
    | cons c s =>
      refine hows (c := c) ?_ (hh c rfl)
      rw [utf8, List.flatMap_cons, List.head?_append_of_ne_nil _ String.utf8EncodeChar_ne_nil] at hb
      exact List.mem_of_mem_head? hb
  · intro b hb
    rcases List.eq_nil_or_concat s with rfl | ⟨s, c, rfl⟩
    · cases hb
    · refine hows (c := c) ?_ (hl c (by simp))
      rw [List.concat_eq_append, utf8, List.flatMap_append, List.flatMap_singleton,
        List.getLast?_append_of_ne_nil _ String.utf8EncodeChar_ne_nil] at hb
      exact List.mem_of_getLast? hb

/-! ### Decoding -/

/-- The ranges of the bytes that complete a character, by its first byte. -/
def completion (first : UInt8) : Option (List (UInt8 × UInt8)) :=
  if first < 0x80 then some []
  else if first < 0xC2 then none
  else if first < 0xE0 then some [(0x80, 0xBF)]
  else if first = 0xE0 then some [(0xA0, 0xBF), (0x80, 0xBF)]
  -- no surrogates
  else if first = 0xED then some [(0x80, 0x9F), (0x80, 0xBF)]
  else if first < 0xF0 then some [(0x80, 0xBF), (0x80, 0xBF)]
  else if first = 0xF0 then some [(0x90, 0xBF), (0x80, 0xBF), (0x80, 0xBF)]
  else if first < 0xF4 then some [(0x80, 0xBF), (0x80, 0xBF), (0x80, 0xBF)]
  -- up to U+10FFFF
  else if first = 0xF4 then some [(0x80, 0x8F), (0x80, 0xBF), (0x80, 0xBF)]
  else none

/-- U+FFFD -/
def replacement : Bytes := [0xEF, 0xBF, 0xBD]

/-- Between two bytes: what was read of a character, and what it lacks. -/
structure Decoding where
  taken : Bytes
  lacks : List (UInt8 × UInt8)

namespace Decoding

/-- A byte after a character: what is written, and the state after it. -/
def first (b : UInt8) : Bytes × Decoding :=
  match completion b with
  | none => (replacement, ⟨[], []⟩)
  | some [] => ([b], ⟨[], []⟩)
  | some ranges => ([], ⟨[b], ranges⟩)

def next (d : Decoding) (b : UInt8) : Bytes × Decoding :=
  match d.lacks with
  | [] => first b
  | (low, high) :: ranges =>
    if low ≤ b ∧ b ≤ high then
      if ranges = [] then (d.taken ++ [b], ⟨[], []⟩) else ([], ⟨d.taken ++ [b], ranges⟩)
    else (replacement ++ (first b).1, (first b).2)

def run : Decoding → Bytes → Bytes
  | d, [] => if d.lacks = [] then [] else replacement
  | d, b :: v => (d.next b).1 ++ run (d.next b).2 v

end Decoding

/-- `String::from_utf8_lossy`, as its bytes. -/
def fromUtf8Lossy (v : Bytes) : Bytes := Decoding.run ⟨[], []⟩ v

section Lossy

theorem calm_replacement : Calm replacement := calm_of_all (by decide)

theorem Decoding.calm_first {b : UInt8} (hb : Calm [b]) : Calm (first b).1 ∧ Calm (first b).2.taken := by
  unfold first
  cases completion b with
  | none => exact ⟨calm_replacement, calm_of_all rfl⟩
  | some ranges =>
    cases ranges with
    | nil => exact ⟨hb, calm_of_all rfl⟩
    | cons range ranges => exact ⟨calm_of_all rfl, hb⟩

theorem Decoding.calm_next {d : Decoding} (hd : Calm d.taken) {b : UInt8} (hb : Calm [b]) :
    Calm (d.next b).1 ∧ Calm (d.next b).2.taken := by
  obtain ⟨hwritten, htaken⟩ := calm_first hb
  unfold next
  cases d.lacks with
  | nil => exact ⟨hwritten, htaken⟩
  | cons range ranges =>
    obtain ⟨low, high⟩ := range
    simp only
    split_ifs
    · exact ⟨calm_append.mpr ⟨hd, hb⟩, calm_of_all rfl⟩
    · exact ⟨calm_of_all rfl, calm_append.mpr ⟨hd, hb⟩⟩
    · exact ⟨calm_append.mpr ⟨calm_replacement, hwritten⟩, htaken⟩

theorem Decoding.calm_run {v : Bytes} (hv : Calm v) {d : Decoding} (hd : Calm d.taken) : Calm (d.run v) := by
  induction v generalizing d with
  | nil =>
    unfold run
    split_ifs
    · exact calm_of_all rfl
    · exact calm_replacement
  | cons b v ih =>
    rw [← List.singleton_append, calm_append] at hv
    obtain ⟨hwritten, htaken⟩ := calm_next hd hv.1
    exact calm_append.mpr ⟨hwritten, ih hv.2 htaken⟩

/-- Decoding ends no line. -/
theorem calm_fromUtf8Lossy {v : Bytes} (hv : Calm v) : Calm (fromUtf8Lossy v) :=
  Decoding.calm_run hv (calm_of_all rfl)

/-- A character of three bytes, one that breaks off, and a byte that starts none. -/
example : fromUtf8Lossy [0x61, 0xE2, 0x82, 0xAC, 0xF0, 0x9F, 0x62, 0xFF] =
    [0x61, 0xE2, 0x82, 0xAC, 0xEF, 0xBF, 0xBD, 0x62, 0xEF, 0xBF, 0xBD] := by decide

end Lossy

end Statico
