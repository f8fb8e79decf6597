/-
# Where the bracket counter underflows

No subtraction underflows, in `skip_value` from any position and in
`dispatch_rpc`, exactly if no bracket of the body is overclosed
(`no_underflow_iff`): from every opening bracket on, a bracket of its own
kind closes it at its own level before two closing brackets are left over.

Up to the first `depth -= 1` with `depth` 0 the two profiles run alike, and
there a checked build panics. So it is the checked profile in which an
underflow is seen; the release profile then agrees with it everywhere
(`skipValue_profiles`).

Key definitions: `Orderly`.
Key theorems: `skipping_orderly`, `skipValue_profiles`, `no_underflow_iff`.
-/
import Statico.Mcp.Nesting
import Statico.Mcp.Positions

namespace Statico
namespace Mcp

open Json

/-- No bracket of the text is overclosed. -/
def Orderly (s : Bytes) : Prop :=
  ∀ u o t, s = u ++ o :: t → isOpen o = true → ¬ Overclosed (closer o) 0 (brackets t)

/-- In no piece of an orderly text a subtraction underflows. -/
theorem skipping_orderly {body : Slice} (h : Orderly body.bytes) :
    Skipping .checked (· ≠ .subOverflow) body.bytes := by
  rintro s w ⟨u, v, e⟩ hw rfl
  have hl := congrArg List.length e
  have hfits := body.fits
  rw [List.length_append, List.length_append] at hl
  obtain ⟨b, o, t, rfl, ho, hwalk⟩ := cutValue_halt (by omega) hw
  obtain ⟨more, hmore⟩ := brackets_append v _ t (Nat.lt_succ_self _)
  refine h (u ++ b) o (t ++ v) (by rw [← e]; simp) ho ?_
  rw [hmore]
  exact ((walk_checked _ _ _).mp hwalk).extend v more

section Values

variable {body : Slice} {pos : ℕ}

theorem skipValue_safe (h : Orderly body.bytes) (pos : ℕ) :
    skipValue .checked body.bytes pos ≠ .halt .subOverflow :=
  (skipValue_bounds (skipping_orderly h) pos).ne_halt fun hne => hne rfl

theorem cutValue_profiles (h : Orderly body.bytes) {u s : Bytes} (e : body.bytes = u ++ s) :
    cutValue .release s = cutValue .checked s := by
  obtain ⟨b, hb, hs⟩ := dropBlank_split s
  have hfits := body.fits
  have hl := congrArg List.length (e.trans (congrArg (u ++ ·) hs))
  rw [List.length_append, List.length_append] at hl
  have hv : ∀ p, cutValue p s = cutValue p (dropBlank s) := by
    intro p
    have := cutValue_blank p hb (solid_dropBlank s)
    rwa [← hs] at this
  rw [hv, hv]
  cases hd : dropBlank s with
  | nil => rfl
  | cons o t =>
    rw [hd] at hs hl
    cases ho : isOpen o with
    | true =>
      rw [List.length_cons] at hl
      rw [cutValue_open ho (by omega), cutValue_open ho (by omega)]
      refine walk_profiles _ _ _ (h (u ++ b) o t ?_ ho)
      rw [e, hs, List.append_assoc]
    | false =>
      have hn : ¬ (o = byte '{' ∨ o = byte '[') := fun hc => by
        rw [isOpen_iff.mpr hc] at ho
        cases ho
      have hblank : isBlank o = false := solid_dropBlank s o t hd
      rw [cutValue_cons _ hblank, cutValue_cons _ hblank, if_neg hn, if_neg hn]

/-- The release build does not wrap either: it returns what the checked one
returns. -/
theorem skipValue_profiles (h : Orderly body.bytes) (pos : ℕ) :
    skipValue .release body.bytes pos = skipValue .checked body.bytes pos := by
  by_cases hp : pos ≤ body.bytes.length
  · have hat : At body.bytes pos (body.bytes.drop pos) := ⟨hp, rfl⟩
    have hr := skipValue_at (p := .release) hat
    have hc := skipValue_at (p := .checked) hat
    rw [cutValue_profiles h (List.take_append_drop pos body.bytes).symm] at hr
    generalize cutValue .checked (body.bytes.drop pos) = x at hr hc
    generalize skipValue .release body.bytes pos = y at hr ⊢
    generalize skipValue .checked body.bytes pos = z at hc ⊢
    cases hr with
    | ok h1 =>
      cases hc with
      | ok h2 => rw [h1.1.unique h2.1]
    | fail =>
      cases hc
      rfl
    | halt w =>
      cases hc
      rfl
  · rw [skipValue_beyond _ hp, skipValue_beyond _ hp]

end Values

theorem dispatch_safe {body : Slice} (h : Orderly body.bytes) (sse : Bool) :
    dispatchRpc .checked body.bytes sse ≠ .halt .subOverflow :=
  (dispatchRpc_ensures (skipping_orderly h) sse).ne_halt fun hne => hne rfl

/-- No subtraction underflows exactly if no bracket of the body is overclosed. -/
theorem no_underflow_iff (body : Slice) :
    ((∀ pos, skipValue .checked body.bytes pos ≠ .halt .subOverflow ∧
        skipValue .release body.bytes pos = skipValue .checked body.bytes pos) ∧
      ∀ sse, dispatchRpc .checked body.bytes sse ≠ .halt .subOverflow) ↔ Orderly body.bytes := by
  refine ⟨fun h u o t e ho hover => ?_, fun h => ⟨fun pos => ⟨skipValue_safe h pos,
    skipValue_profiles h pos⟩, dispatch_safe h⟩⟩
  have hat : At body.bytes u.length (o :: t) := by
    rw [e]
    exact At.split u (o :: t)
  have hl := hat.length
  have hfits := body.fits
  rw [List.length_cons] at hl
  have hrel := skipValue_at (p := .checked) hat
  rw [cutValue_open ho (by omega), (walk_checked _ _ _).mpr hover] at hrel
  exact (h.1 u.length).1 hrel.eq_halt

/-- Two closing brackets of the wrong kinds: the body `{"a":[}]`. -/
theorem no_underflow_bracket :
    ¬ ∀ sse, dispatchRpc .checked (ascii "\x7b\"a\":[\x7d]") sse ≠ .halt .subOverflow :=
  fun h => h false (by decide +kernel)

end Mcp
end Statico
