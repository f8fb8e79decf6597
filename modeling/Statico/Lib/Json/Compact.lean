/-
# Compact texts

A JSON string has no control character as it is written, and a number or a
literal name has none either. Without white space between its tokens a JSON
text therefore fits on one line (`calm_render`), whatever the layout its tree
was read from.

Key definitions: `Node.render`.
Key theorems: `Chars.calm`, `calm_render`.
-/
import Statico.Lib.Ascii
import Statico.Lib.Json.Grammar

namespace Statico
namespace Json

/-! ### Tokens -/

theorem isPlain_calm {b : UInt8} (h : isPlain b = true) : isBreak b = false := by
  have : ∀ b : UInt8, isPlain b = true → isBreak b = false := by decide +kernel
  exact this b h

theorem high_calm {b : UInt8} (h : 0x80 ≤ b) : isBreak b = false := by
  have : ∀ b : UInt8, 0x80 ≤ b → isBreak b = false := by decide +kernel
  exact this b h

theorem isWord_calm {b : UInt8} (h : isWord b = true) : isBreak b = false := by
  have : ∀ b : UInt8, isWord b = true → isBreak b = false := by decide +kernel
  exact this b h

theorem escape_calm {e : UInt8} {u : ℕ} (h : escapeUnit e = some u) : isBreak e = false := by
  have : ∀ e : UInt8, escapeUnit e ≠ none → isBreak e = false := by decide +kernel
  exact this e (by rw [h]; exact Option.some_ne_none u)

theorem hexVal_calm {b : UInt8} {x : ℕ} (h : hexVal b = some x) : isBreak b = false := by
  have : ∀ b : UInt8, hexVal b ≠ none → isBreak b = false := by decide +kernel
  exact this b (by rw [h]; exact Option.some_ne_none x)

theorem Chr.calm {c : Bytes} {u : List ℕ} (h : Chr c u) : Calm c := by
  have hslash : isBreak (byte '\\') = false ∧ isBreak (byte 'u') = false := by decide
  have hle : ∀ {a b : UInt8}, 0x80 ≤ a → a ≤ b → isBreak b = false := fun ha hb =>
    high_calm (UInt8.le_trans ha hb)
  have htail : ∀ {b : UInt8}, isTail b = true → isBreak b = false := fun hb => high_calm (isTail_le hb)
  have hnil : Calm [] := fun _ h => by cases h
  cases h with
  | plain hb => exact calm_cons.mpr ⟨isPlain_calm hb, hnil⟩
  | escape he => exact calm_cons.mpr ⟨hslash.1, calm_cons.mpr ⟨escape_calm he, hnil⟩⟩
  | unicode ha hb hc hd =>
    simp only [calm_cons]
    exact ⟨hslash.1, hslash.2, hexVal_calm ha, hexVal_calm hb, hexVal_calm hc, hexVal_calm hd, hnil⟩
  | two ha _ hb =>
    simp only [calm_cons]
    exact ⟨hle (by decide) ha, htail hb, hnil⟩
  | three ha _ hb hc _ _ _ =>
    simp only [calm_cons]
    exact ⟨hle (by decide) ha, htail hb, htail hc, hnil⟩
  | four ha _ hb hc hd _ _ _ =>
    simp only [calm_cons]
    exact ⟨hle (by decide) ha, htail hb, htail hc, htail hd, hnil⟩

theorem Chars.calm {r : Bytes} {us : List ℕ} (h : Chars r us) : Calm r := by
  induction h with
  | nil => exact fun _ h => by cases h
  | cons hc _ ih => exact calm_append.mpr ⟨hc.calm, ih⟩

theorem Literal.calm {s : Bytes} (h : Literal s) : Calm s := fun b hb =>
  isWord_calm (List.all_eq_true.mp h.word.2 b hb)

theorem calm_quoted {r : Bytes} (h : Calm r) : Calm (quoted r) := by
  have hq : isBreak (byte '"') = false := by decide
  simp only [quoted, calm_cons, calm_append]
  exact ⟨hq, h, hq, fun _ h => by cases h⟩

/-! ### Texts -/

/-- The text of a node without white space. -/
def Node.render : Node Bytes → Bytes
  | .value v => v.render
  | .elems vs => Value.renderElems vs
  | .members ms => Value.renderMembers ms

theorem calm_arrayText {s : Bytes} (h : Calm s) : Calm (arrayText s) := by
  have hb : isBreak (byte '[') = false ∧ isBreak (byte ']') = false := by decide
  simp only [arrayText, calm_cons, calm_append]
  exact ⟨hb.1, h, hb.2, fun _ h => by cases h⟩

theorem calm_objectText {s : Bytes} (h : Calm s) : Calm (objectText s) := by
  have hb : isBreak (byte '{') = false ∧ isBreak (byte '}') = false := by decide
  simp only [objectText, calm_cons, calm_append]
  exact ⟨hb.1, h, hb.2, fun _ h => by cases h⟩

theorem calm_memberText {k t tail : Bytes} (hk : Calm k) (ht : Calm t) (htail : Calm tail) :
    Calm (memberText .none k t tail) := by
  have hc : isBreak (byte ':') = false := by decide
  simp only [memberText, Gaps.none, List.nil_append, calm_append, calm_cons]
  exact ⟨calm_quoted hk, hc, ht, htail⟩

/-- The text without white space is one line, by induction on a text with any. -/
theorem calm_render {n : Node Bytes} {s : Bytes} (h : Spells rfc n s) : Calm n.render := by
  have hnil : Calm [] := fun _ h => by cases h
  have hcomma : isBreak (byte ',') = false := by decide
  have hkey : ∀ {k r : Bytes}, rfc.string k r → Calm k := by
    rintro k r ⟨rfl, us, h⟩
    exact h.calm
  induction h with
  | lit h => exact Literal.calm h
  | str h => exact calm_quoted (hkey h)
  | arrEmpty _ => exact calm_arrayText hnil
  | arr _ ih => exact calm_arrayText ih
  | objEmpty _ => exact calm_objectText hnil
  | obj _ ih => exact calm_objectText ih
  | elem _ _ _ ih => exact ih
  | @elems v vs a t b s _ _ _ _ ih1 ih2 =>
    cases vs with
    | nil => exact ih1
    | cons w vs => exact calm_append.mpr ⟨ih1, calm_cons.mpr ⟨hcomma, ih2⟩⟩
  | member _ hk _ ih => exact calm_memberText (hkey hk) ih hnil
  | @members k v ms r t s _ hk _ _ ih1 ih2 =>
    cases ms with
    | nil => exact calm_memberText (hkey hk) ih1 hnil
    | cons m ms => exact calm_memberText (hkey hk) ih1 (calm_cons.mpr ⟨hcomma, ih2⟩)

end Json
end Statico
