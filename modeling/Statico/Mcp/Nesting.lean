/-
# The bracket counter of `skip_value`

`skip_value` counts the brackets of both kinds with one counter and looks for
zero only at a closing bracket of the right kind. On the list of brackets
(`walk`) this is plain: the loop leaves at `ClosedAt`, and the first `depth -=
1` with `depth` 0 is where the bracket is `Overclosed`. Up to there the two
profiles run alike; there a checked build panics and a release build wraps.

Key definitions: `Counts`, `walk`.
Key theorems: `cutNested_walk`, `walk_release`, `walk_checked`, `cutValue_open`.
-/
import Statico.Mcp.Cut

namespace Statico
namespace Mcp

open Json

/-! ### The counter -/

/-- The counter `D` of a build stands for the depth `d`. -/
def Counts : Profile → ℕ → ℤ → Prop
  | .checked, D, d => (D : ℤ) = d
  | .release, D, d => (D : ℤ) = d % 2 ^ 64

section Counter

variable {p : Profile} {D : ℕ} {d : ℤ}

theorem counts_incr (h : Counts p D d) (hd : d.natAbs + 1 < 2 ^ 64) :
    ∃ D', p.incr D = .ok D' ∧ Counts p D' (d + 1) := by
  cases p with
  | checked =>
    have h' : (D : ℤ) = d := h
    refine ⟨D + 1, ?_, ?_⟩
    · rw [Profile.incr, if_pos (by omega)]
    · show ((D + 1 : ℕ) : ℤ) = d + 1
      omega
  | release =>
    have h' : (D : ℤ) = d % 2 ^ 64 := h
    refine ⟨(D + 1) % 2 ^ 64, rfl, ?_⟩
    show (((D + 1) % 2 ^ 64 : ℕ) : ℤ) = (d + 1) % 2 ^ 64
    omega

theorem counts_decr (h : Counts p D d) (hd : ¬ (p = .checked ∧ d = 0)) :
    ∃ D', p.decr D = .ok D' ∧ Counts p D' (d - 1) := by
  cases p with
  | checked =>
    have h' : (D : ℤ) = d := h
    have hD : D ≠ 0 := fun e => hd ⟨rfl, by omega⟩
    refine ⟨D - 1, ?_, ?_⟩
    · rw [Profile.decr, if_neg hD]
    · show ((D - 1 : ℕ) : ℤ) = d - 1
      omega
  | release =>
    have h' : (D : ℤ) = d % 2 ^ 64 := h
    refine ⟨(D + (2 ^ 64 - 1)) % 2 ^ 64, rfl, ?_⟩
    show (((D + (2 ^ 64 - 1)) % 2 ^ 64 : ℕ) : ℤ) = (d - 1) % 2 ^ 64
    omega

theorem counts_underflow (h : Counts .checked D 0) : Profile.checked.decr D = .halt .subOverflow := by
  have h' : (D : ℤ) = 0 := h
  rw [Profile.decr, if_pos (by omega)]

theorem counts_zero (h : Counts p D d) (hd : d.natAbs < 2 ^ 64) : D = 0 ↔ d = 0 := by
  cases p with
  | checked =>
    have h' : (D : ℤ) = d := h
    omega
  | release =>
    have h' : (D : ℤ) = d % 2 ^ 64 := h
    omega

end Counter

/-! ### The loop on the list of brackets -/

/-- The loop of `skip_value` on the brackets of the text, `e` levels below the
bracket it began with. -/
def walk (p : Profile) (close : UInt8) : ℤ → List (UInt8 × Bytes) → Scan Bytes
  | _, [] => .fail
  | e, (c, rest) :: bs =>
    if p = .checked ∧ isClose c = true ∧ e = -1 then .halt .subOverflow
    else if c = close ∧ e = 0 then .ok rest
    else walk p close (e + weight c) bs

theorem walk_release_cons (close : UInt8) (e : ℤ) (c : UInt8) (rest : Bytes) (bs : List (UInt8 × Bytes)) :
    walk .release close e ((c, rest) :: bs) =
      if c = close ∧ e = 0 then .ok rest else walk .release close (e + weight c) bs := by
  rw [walk, if_neg fun h => Profile.noConfusion h.1]

theorem isOpen_iff {c : UInt8} : isOpen c = true ↔ c = byte '{' ∨ c = byte '[' := by
  simp [isOpen]

theorem isClose_iff {c : UInt8} : isClose c = true ↔ c = byte '}' ∨ c = byte ']' := by
  simp [isClose]

theorem isOpen_close {c : UInt8} (h : isClose c = true) : isOpen c = false := by
  rcases isClose_iff.mp h with rfl | rfl <;> rfl

theorem isClose_closer (o : UInt8) : isClose (closer o) = true := by
  unfold closer
  split_ifs <;> rfl

theorem cutNested_walk {p : Profile} {close : UInt8} (hclose : isClose close = true) :
    ∀ (n : ℕ) (s : Bytes) (e : ℤ) (D : ℕ), s.length < n → Counts p D (e + 1) →
      e.natAbs + s.length + 1 < 2 ^ 64 → cutNested p close D s = walk p close e (brackets s)
  | 0, _, _, _, hn, _, _ => absurd hn (Nat.not_lt_zero _)
  | n + 1, [], e, D, _, _, _ => by rw [cutNested_nil, brackets_nil, walk]
  | n + 1, c :: s, e, D, hn, hD, hb => by
    have hs : s.length < n := by simpa using hn
    rw [List.length_cons] at hb
    by_cases hq : c = byte '"'
    · rw [hq, cutNested_quote, brackets_quote]
      cases hc : cutString s with
      | none => rfl
      | some x =>
        have hx := length_cutString hc
        exact cutNested_walk hclose n x.2 e D (by omega) hD (by omega)
    · cases ho : isOpen c with
      | true =>
        obtain ⟨D', hi, hD'⟩ := counts_incr hD (by omega)
        have hc : ¬ (c = close ∧ e = 0) := by
          rintro ⟨rfl, -⟩
          rw [isOpen_close hclose] at ho
          cases ho
        have hcl : isClose c = false := by
          rcases isOpen_iff.mp ho with rfl | rfl <;> rfl
        rw [cutNested_open (isOpen_iff.mp ho), hi, Scan.ok_bind,
          brackets_bracket (by rw [ho]; rfl), walk, if_neg (by rw [hcl]; simp), if_neg hc]
        refine cutNested_walk hclose n s _ D' hs ?_ ?_
        · rw [weight, ho]
          exact hD'
        · rw [weight, ho]
          simp only [if_true]
          omega
      | false =>
        cases hcl : isClose c with
        | true =>
          rw [cutNested_close (isClose_iff.mp hcl), brackets_bracket (by rw [hcl, Bool.or_true]), walk]
          by_cases hu : p = .checked ∧ e = -1
          · obtain ⟨rfl, rfl⟩ := hu
            rw [counts_underflow hD, Scan.halt_bind, if_pos ⟨rfl, hcl, rfl⟩]
          · obtain ⟨D', hd, hD'⟩ := counts_decr hD fun h => hu ⟨h.1, by omega⟩
            rw [show e + 1 - 1 = e by omega] at hD'
            have hz := counts_zero hD' (by omega)
            have hu' : ¬ (p = .checked ∧ isClose c = true ∧ e = -1) := fun h => hu ⟨h.1, h.2.2⟩
            rw [hd, Scan.ok_bind, if_neg hu']
            by_cases hstop : c = close ∧ e = 0
            · rw [if_pos ⟨hstop.1, hz.mpr hstop.2⟩, if_pos hstop]
            · rw [if_neg fun h => hstop ⟨h.1, hz.mp h.2⟩, if_neg hstop]
              refine cutNested_walk hclose n s _ D' hs ?_ ?_
              · rw [weight, ho]
                simp only [Bool.false_eq_true, if_false]
                rw [show e + -1 + 1 = e by omega]
                exact hD'
              · rw [weight, ho]
                simp only [Bool.false_eq_true, if_false]
                omega
        | false =>
          have h2 : ¬ (c = byte '{' ∨ c = byte '[') := fun h => by
            rw [isOpen_iff.mpr h] at ho
            cases ho
          have h3 : ¬ (c = byte '}' ∨ c = byte ']') := fun h => by
            rw [isClose_iff.mpr h] at hcl
            cases hcl
          rw [cutNested_other hq h2 h3, brackets_other hq (by rw [ho, hcl]; rfl)]
          exact cutNested_walk hclose n s e D hs hD (by omega)

/-- A release build leaves where the bracket is closed by its kind at its level. -/
theorem walk_release (close : UInt8) (rest : Bytes) : ∀ (bs : List (UInt8 × Bytes)) (e : ℤ),
    walk .release close e bs = .ok rest ↔ ClosedAt close e bs rest
  | [], e => by
    constructor
    · intro h
      cases h
    · intro h
      exact absurd h closedAt_nil
  | (c, r) :: bs, e => by
    rw [walk_release_cons, closedAt_cons]
    by_cases h : c = close ∧ e = 0
    · rw [if_pos h, Scan.ok.injEq]
      simp [h.1, h.2]
    · rw [if_neg h, walk_release close rest bs]
      exact ⟨fun hc => Or.inr ⟨h, hc⟩, fun hc => hc.elim (fun hc => absurd ⟨hc.1, hc.2.1⟩ h) And.right⟩

/-- A checked build panics where the bracket is overclosed. -/
theorem walk_checked (close : UInt8) : ∀ (bs : List (UInt8 × Bytes)) (e : ℤ),
    walk .checked close e bs = .halt .subOverflow ↔ Overclosed close e bs
  | [], e => by
    constructor
    · intro h
      cases h
    · intro h
      exact absurd h overclosed_nil
  | (c, r) :: bs, e => by
    rw [walk, overclosed_cons]
    by_cases h : isClose c = true ∧ e = -1
    · rw [if_pos ⟨rfl, h⟩]
      exact ⟨fun _ => Or.inl h, fun _ => rfl⟩
    · rw [if_neg fun hc => h hc.2]
      by_cases h' : c = close ∧ e = 0
      · rw [if_pos h']
        constructor
        · intro hc
          cases hc
        · rintro (hc | hc)
          · exact absurd hc h
          · exact absurd h' hc.1
      · rw [if_neg h', walk_checked close bs]
        exact ⟨fun hc => Or.inr ⟨h', hc⟩, fun hc => hc.elim (fun hc => absurd hc h) And.right⟩

/-- Until a subtraction underflows the profiles run alike. -/
theorem walk_profiles (close : UInt8) : ∀ (bs : List (UInt8 × Bytes)) (e : ℤ),
    ¬ Overclosed close e bs → walk .release close e bs = walk .checked close e bs
  | [], e, _ => rfl
  | (c, r) :: bs, e, h => by
    rw [overclosed_cons, not_or] at h
    have hu : ¬ (Profile.checked = .checked ∧ isClose c = true ∧ e = -1) := fun hc => h.1 hc.2
    rw [walk_release_cons, walk, if_neg hu]
    by_cases h' : c = close ∧ e = 0
    · rw [if_pos h', if_pos h']
    · rw [if_neg h', if_neg h']
      exact walk_profiles close bs _ fun hc => h.2 ⟨h', hc⟩

/-! ### One value -/

section Value

variable {p : Profile}

theorem cutValue_open {o : UInt8} (ho : isOpen o = true) {t : Bytes} (ht : t.length + 1 < 2 ^ 64) :
    cutValue p (o :: t) = walk p (closer o) 0 (brackets t) := by
  have hb : isBlank o = false := by rcases isOpen_iff.mp ho with rfl | rfl <;> rfl
  have hq : o ≠ byte '"' := by rcases isOpen_iff.mp ho with rfl | rfl <;> decide
  have hD : Counts p 1 (0 + 1) := by cases p <;> exact rfl
  rw [cutValue_cons p hb, if_neg hq, if_pos (isOpen_iff.mp ho)]
  exact cutNested_walk (isClose_closer o) _ t 0 1 (Nat.lt_succ_self _) hD (by simpa using ht)

/-- Only inside a bracket a value halts. -/
theorem cutValue_halt {s : Bytes} {w : Halt} (hs : s.length < 2 ^ 64) (h : cutValue p s = .halt w) :
    ∃ b o t, s = b ++ o :: t ∧ isOpen o = true ∧ walk p (closer o) 0 (brackets t) = .halt w := by
  obtain ⟨b, hb, e⟩ := dropBlank_split s
  have hl := congrArg List.length e
  rw [List.length_append] at hl
  have hv : cutValue p s = cutValue p (dropBlank s) := by
    have := cutValue_blank p hb (solid_dropBlank s)
    rwa [← e] at this
  rw [hv] at h
  cases hd : dropBlank s with
  | nil =>
    rw [hd] at h
    cases h
  | cons o t =>
    rw [hd] at h e hl
    cases ho : isOpen o with
    | true =>
      rw [List.length_cons] at hl
      rw [cutValue_open ho (by omega)] at h
      exact ⟨b, o, t, e, ho, h⟩
    | false =>
      have hn : ¬ (o = byte '{' ∨ o = byte '[') := fun hc => by
        rw [isOpen_iff.mpr hc] at ho
        cases ho
      have hblank : isBlank o = false := solid_dropBlank s o t hd
      rw [cutValue_cons p hblank, if_neg hn] at h
      by_cases hq : o = byte '"'
      · rw [if_pos hq] at h
        cases hc : cutString t with
        | none =>
          rw [hc] at h
          cases h
        | some x =>
          rw [hc] at h
          cases h
      · rw [if_neg hq] at h
        cases h

end Value

end Mcp
end Statico
