/-
# The brackets of a text

The brackets of a text outside its strings, and how deep they nest. `level`
counts every opening bracket up and every closing one down, whatever their
kinds, so it is below zero where too many have closed.

After an opening bracket there are two ways for the text to go wrong by
kinds: the bracket is never closed by its own kind at its own level
(`ClosedAt`), or first another closing bracket comes when all are closed
already (`Overclosed`).

Key definitions: `brackets`, `level`, `StillOpen`, `ClosedAt`, `Overclosed`.
Key theorems: `closedAt_cons`, `overclosed_cons`, `brackets_append`.
-/
import Statico.Lib.Json.Text

namespace Statico
namespace Json

def isOpen (c : UInt8) : Bool := c = byte '{' || c = byte '['

def isClose (c : UInt8) : Bool := c = byte '}' || c = byte ']'

/-- The closing bracket of an opening one. -/
def closer (c : UInt8) : UInt8 := if c = byte '{' then byte '}' else byte ']'

/-- The brackets outside strings, each with the text after it. -/
def brackets (s : Bytes) : List (UInt8 × Bytes) :=
  match s with
  | [] => []
  | c :: s =>
    if c = byte '"' then
      match h : cutString s with
      | some (_, t) => have := length_cutString h; brackets t
      | none => []
    else if isOpen c || isClose c then (c, s) :: brackets s
    else brackets s
termination_by s.length
decreasing_by
  · simp only [List.length_cons]
    omega
  all_goals simp

section Equations

variable {c : UInt8}

theorem brackets_nil : brackets [] = [] := by rw [brackets]

theorem brackets_quote (s : Bytes) :
    brackets (byte '"' :: s) = match cutString s with
      | some (_, t) => brackets t
      | none => [] := by
  rw [brackets, if_pos rfl]
  split
  · next hs => simp [hs]
  · next hs => simp [hs]

theorem brackets_bracket (hc : (isOpen c || isClose c) = true) (s : Bytes) :
    brackets (c :: s) = (c, s) :: brackets s := by
  have hq : c ≠ byte '"' := by
    rintro rfl
    exact absurd hc (by decide)
  rw [brackets, if_neg hq, if_pos hc]

theorem brackets_other (hq : c ≠ byte '"') (hc : (isOpen c || isClose c) = false) (s : Bytes) :
    brackets (c :: s) = brackets s := by
  rw [brackets, if_neg hq, if_neg (by rw [hc]; exact Bool.false_ne_true)]

end Equations

/-- The brackets of a text go on as those of a longer one. -/
theorem brackets_append (u : Bytes) : ∀ (n : ℕ) (s : Bytes), s.length < n →
    ∃ more, brackets (s ++ u) = (brackets s).map (fun b => (b.1, b.2 ++ u)) ++ more
  | 0, _, h => absurd h (Nat.not_lt_zero _)
  | n + 1, [], _ => ⟨brackets u, by rw [brackets_nil]; rfl⟩
  | n + 1, c :: s, h => by
    have hs : s.length < n := by simpa using h
    rw [List.cons_append]
    by_cases hq : c = byte '"'
    · rw [hq, brackets_quote s]
      cases hc : cutString s with
      | none => exact ⟨_, rfl⟩
      | some x =>
        obtain ⟨hr, rfl⟩ := cutString_spec s x.1 x.2 hc
        have hx := length_cutString hc
        rw [List.append_assoc, List.cons_append, brackets_quote, cutString_closed hr]
        exact brackets_append u n x.2 (by omega)
    · cases hc : isOpen c || isClose c with
      | true =>
        obtain ⟨more, e⟩ := brackets_append u n s hs
        exact ⟨more, by rw [brackets_bracket hc, brackets_bracket hc, e]; rfl⟩
      | false =>
        rw [brackets_other hq hc, brackets_other hq hc]
        exact brackets_append u n s hs

/-! ### Levels -/

/-- What a bracket adds to the level. -/
def weight (c : UInt8) : ℤ := if isOpen c then 1 else -1

/-- How many more brackets have opened than closed. -/
def level (l : List (UInt8 × Bytes)) : ℤ := (l.map fun b => weight b.1).sum

theorem level_nil : level [] = 0 := rfl

theorem level_cons (b : UInt8 × Bytes) (l : List (UInt8 × Bytes)) :
    level (b :: l) = weight b.1 + level l := by
  rw [level, List.map_cons, List.sum_cons]
  rfl

theorem level_map (u : Bytes) (l : List (UInt8 × Bytes)) :
    level (l.map fun b => (b.1, b.2 ++ u)) = level l := by
  rw [level, List.map_map]
  rfl

/-- `e` levels deep in a bracket that closes with `close`, the bracket is not
closed by any of the brackets. -/
def StillOpen (close : UInt8) (e : ℤ) (l : List (UInt8 × Bytes)) : Prop :=
  ∀ k r k', l = k ++ (close, r) :: k' → e + level k ≠ 0

/-- The bracket is closed, and `rest` follows. -/
def ClosedAt (close : UInt8) (e : ℤ) (bs : List (UInt8 × Bytes)) (rest : Bytes) : Prop :=
  ∃ l l', bs = l ++ (close, rest) :: l' ∧ e + level l = 0 ∧ StillOpen close e l

/-- A closing bracket comes when all brackets are closed, this one not by its
kind. -/
def Overclosed (close : UInt8) (e : ℤ) (bs : List (UInt8 × Bytes)) : Prop :=
  ∃ l c r l', bs = l ++ (c, r) :: l' ∧ isClose c = true ∧ e + level l = -1 ∧ StillOpen close e l

section Cons

variable {close c : UInt8} {e : ℤ} {r rest : Bytes} {l bs : List (UInt8 × Bytes)}

theorem stillOpen_nil : StillOpen close e [] := fun k _ _ h => by cases k <;> cases h

theorem stillOpen_cons : StillOpen close e ((c, r) :: l) ↔
    ¬ (c = close ∧ e = 0) ∧ StillOpen close (e + weight c) l := by
  constructor
  · intro h
    refine ⟨fun ⟨hc, he⟩ => h [] r l (by rw [hc]; rfl) (by rw [he]; rfl), fun k r' k' hl he => ?_⟩
    apply h ((c, r) :: k) r' k' (by rw [hl]; rfl)
    rw [level_cons]
    simp only
    omega
  · rintro ⟨h1, h2⟩ k r' k' hl
    cases k with
    | nil =>
      cases hl
      exact fun he => h1 ⟨rfl, by simpa [level_nil] using he⟩
    | cons b k =>
      obtain ⟨hb, hk⟩ := List.cons.inj hl
      subst hb
      have := h2 k r' k' hk
      rw [level_cons]
      simp only
      omega

theorem closedAt_nil : ¬ ClosedAt close e [] rest := by
  rintro ⟨l, l', h, -⟩
  cases l <;> cases h

theorem closedAt_cons : ClosedAt close e ((c, r) :: bs) rest ↔
    (c = close ∧ e = 0 ∧ r = rest) ∨
      ¬ (c = close ∧ e = 0) ∧ ClosedAt close (e + weight c) bs rest := by
  constructor
  · rintro ⟨l, l', h, he, hl⟩
    cases l with
    | nil =>
      cases h
      exact Or.inl ⟨rfl, by simpa [level_nil] using he, rfl⟩
    | cons b l =>
      obtain ⟨hb, hbs⟩ := List.cons.inj h
      subst hb
      obtain ⟨h1, h2⟩ := stillOpen_cons.mp hl
      rw [level_cons] at he
      exact Or.inr ⟨h1, l, l', hbs, by simp only at he; omega, h2⟩
  · rintro (⟨rfl, rfl, rfl⟩ | ⟨h1, l, l', h, he, hl⟩)
    · exact ⟨[], bs, rfl, by rw [level_nil, add_zero], stillOpen_nil⟩
    · refine ⟨(c, r) :: l, l', by rw [h]; rfl, ?_, stillOpen_cons.mpr ⟨h1, hl⟩⟩
      rw [level_cons]
      simp only
      omega

theorem overclosed_nil : ¬ Overclosed close e [] := by
  rintro ⟨l, _, _, l', h, -⟩
  cases l <;> cases h

theorem overclosed_cons : Overclosed close e ((c, r) :: bs) ↔
    (isClose c = true ∧ e = -1) ∨ ¬ (c = close ∧ e = 0) ∧ Overclosed close (e + weight c) bs := by
  constructor
  · rintro ⟨l, c', r', l', h, hc, he, hl⟩
    cases l with
    | nil =>
      cases h
      exact Or.inl ⟨hc, by simpa [level_nil] using he⟩
    | cons b l =>
      obtain ⟨hb, hbs⟩ := List.cons.inj h
      subst hb
      obtain ⟨h1, h2⟩ := stillOpen_cons.mp hl
      rw [level_cons] at he
      exact Or.inr ⟨h1, l, c', r', l', hbs, hc, by simp only at he; omega, h2⟩
  · rintro (⟨hc, rfl⟩ | ⟨h1, l, c', r', l', h, hc, he, hl⟩)
    · exact ⟨[], c, r, bs, rfl, hc, by rw [level_nil]; rfl, stillOpen_nil⟩
    · refine ⟨(c, r) :: l, c', r', l', by rw [h]; rfl, hc, ?_, stillOpen_cons.mpr ⟨h1, hl⟩⟩
      rw [level_cons]
      simp only
      omega

end Cons

/-- What is overclosed stays so in a longer text. -/
theorem Overclosed.extend {close : UInt8} {e : ℤ} {bs : List (UInt8 × Bytes)}
    (h : Overclosed close e bs) (u : Bytes) (more : List (UInt8 × Bytes)) :
    Overclosed close e (bs.map (fun b => (b.1, b.2 ++ u)) ++ more) := by
  obtain ⟨l, c, r, l', rfl, hc, he, hl⟩ := h
  refine ⟨l.map (fun b => (b.1, b.2 ++ u)), c, r ++ u, l'.map (fun b => (b.1, b.2 ++ u)) ++ more,
    by simp, hc, by rw [level_map]; exact he, ?_⟩
  intro k r' k' hk
  obtain ⟨k1, k2, hk12, hk1, hk2⟩ := List.map_eq_append_iff.mp hk
  obtain ⟨b, k3, rfl, hb, -⟩ := List.map_eq_cons_iff.mp hk2
  have hb1 : b.1 = close := congrArg Prod.fst hb
  rw [← hk1, level_map]
  apply hl k1 b.2 k3
  rw [hk12, ← hb1]

end Json
end Statico
