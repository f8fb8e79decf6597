/-
# The body at verbosity 3

`format_body` prints the visible characters and the white space of a body as
they are, and every other byte as two digits between the escape sequences
that switch reversed video on and off. The escape character itself is such a
byte, so whatever the body is, the only escape sequences printed are those two
(`formatBody_visible`), and a reader that knows them gets the body back
(`unformat_formatBody`).

Key definitions: `Reversed`, `formatByte`, `formatBody`, `unformat`.
Key theorems: `mem_formatBody`, `unformat_formatBody`, `count_formatBody`.
-/
import Statico.Pretty.Hexdump

namespace Statico
namespace Pretty

open Chunked Hex

/-! ### The printer -/

/-- The escape character. -/
def esc : UInt8 := 0x1B

/-- What `reversed` writes before and after a text: an escape sequence each,
an escape character and visible ones. -/
structure Reversed where
  on : Bytes
  off : Bytes
  starts : on.head? = some esc ∧ off.head? = some esc
  visible : ∀ c ∈ on.tail ++ off.tail, isAsciiGraphic c = true

def isAsciiWhitespace (b : UInt8) : Bool :=
  b = byte ' ' || b = byte '\t' || b = byte '\n' || b = 0x0C || b = byte '\r'

/-- `HEX_CHARS` -/
def hexChars : Bytes := ascii "0123456789abcdef"

/-- A byte that is printed as it is. -/
def isShown (b : UInt8) : Bool := isAsciiGraphic b || isAsciiWhitespace b

variable (style : Reversed)

/-- One turn of the loop of `format_body`. -/
def formatByte (b : UInt8) : Bytes :=
  if isShown b then [b]
  else
    let hexBuf := [hexChars.getD (b >>> 4).toNat 0, hexChars.getD (b &&& 0x0f).toNat 0]
    style.on ++ hexBuf ++ style.off

def formatBody (body : Bytes) : Bytes := body.flatMap (formatByte style) ++ [byte '\n']

/-- The two digits are those of the hexdump. -/
theorem hexBuf_eq (b : UInt8) :
    [hexChars.getD (b >>> 4).toNat 0, hexChars.getD (b &&& 0x0f).toNat 0] = padded 2 b.toNat := by
  have h : ∀ b : UInt8, [hexChars.getD (b >>> 4).toNat 0, hexChars.getD (b &&& 0x0f).toNat 0] =
      padded 2 b.toNat := by decide +kernel
  exact h b

theorem formatByte_hidden {b : UInt8} (h : isShown b = false) :
    formatByte style b = style.on ++ padded 2 b.toNat ++ style.off := by
  rw [formatByte, if_neg (by rw [h]; decide)]
  simp only [hexBuf_eq]

/-! ### The reader -/

/-- Reads bytes up to the end of the text, as many as `n - 1`. -/
def unformatBytes : ℕ → Bytes → Option Bytes
  | 0, _ => none
  | _ + 1, [] => some []
  | n + 1, c :: s =>
    if style.on <+: c :: s then do
      let t := (c :: s).drop style.on.length
      let byte ← parseHex (t.take 2)
      let bytes ← unformatBytes n (t.drop (2 + style.off.length))
      return byte.toUInt8 :: bytes
    else (unformatBytes n s).map (c :: ·)

/-- The body of a text, without the line feed at its end. -/
def unformat (text : Bytes) : Option Bytes := unformatBytes style (text.length + 1) text.dropLast

/-! ### Reading back -/

theorem isShown_ne_esc {b : UInt8} (h : isShown b = true) : b ≠ esc := by
  rintro rfl
  exact absurd h (by decide)

theorem not_on_shown {b : UInt8} (h : isShown b = true) (s : Bytes) : ¬ style.on <+: b :: s := by
  obtain ⟨t, ht⟩ : ∃ t, style.on = esc :: t := List.head?_eq_some_iff.mp style.starts.1
  rw [ht, List.cons_prefix_cons]
  exact fun hp => isShown_ne_esc h hp.1.symm

theorem formatByte_ne_nil (b : UInt8) : formatByte style b ≠ [] := by
  cases hb : isShown b with
  | true => simp [formatByte, hb]
  | false =>
    obtain ⟨t, ht⟩ : ∃ t, style.on = esc :: t := List.head?_eq_some_iff.mp style.starts.1
    simp [formatByte_hidden style hb, ht]

theorem unformatBytes_format : ∀ {n : ℕ} {body : Bytes}, body.length < n →
    unformatBytes style n (body.flatMap (formatByte style)) = some body
  | 0, _, h => absurd h (Nat.not_lt_zero _)
  | n + 1, [], _ => rfl
  | n + 1, b :: body, h => by
    have ih := unformatBytes_format (Nat.lt_of_succ_lt_succ h)
    rw [List.flatMap_cons]
    cases hb : isShown b with
    | true =>
      rw [formatByte, if_pos hb, List.singleton_append, unformatBytes, if_neg (not_on_shown style hb _), ih]
      rfl
    | false =>
      obtain ⟨x, y, hxy, hread⟩ := padded_byte b
      obtain ⟨t, ht⟩ : ∃ t, style.on = esc :: t := List.head?_eq_some_iff.mp style.starts.1
      have htext : formatByte style b ++ body.flatMap (formatByte style) =
          style.on ++ ([x, y] ++ (style.off ++ body.flatMap (formatByte style))) := by
        rw [formatByte_hidden style hb, hxy]
        simp only [List.append_assoc]
      have hdrop : ∀ r : Bytes, ([x, y] ++ (style.off ++ r)).drop (2 + style.off.length) = r := by
        intro r
        rw [← List.append_assoc]
        exact List.drop_left' (by rw [List.length_append]; rfl)
      have hcons : style.on ++ ([x, y] ++ (style.off ++ body.flatMap (formatByte style))) =
          esc :: (t ++ ([x, y] ++ (style.off ++ body.flatMap (formatByte style)))) := by
        rw [ht, List.cons_append]
      rw [htext, hcons, unformatBytes, if_pos (by rw [← hcons]; exact List.prefix_append _ _), ← hcons,
        List.drop_left]
      simp only [hdrop, ih, show ([x, y] ++ (style.off ++ body.flatMap (formatByte style))).take 2 = [x, y] from rfl,
        hread]
      simp

theorem unformat_formatBody (body : Bytes) : unformat style (formatBody style body) = some body := by
  have hlen : body.length ≤ (body.flatMap (formatByte style)).length := by
    induction body with
    | nil => exact Nat.le_refl 0
    | cons b body ih =>
      have hpos := List.length_pos_iff.mpr (formatByte_ne_nil style b)
      rw [List.flatMap_cons, List.length_append, List.length_cons]
      omega
  rw [unformat, formatBody, List.dropLast_concat]
  apply unformatBytes_format
  rw [List.length_append]
  omega

/-! ### What is printed -/

theorem count_style : style.on.count esc = 1 ∧ style.off.count esc = 1 := by
  have hone : ∀ {s : Bytes}, s.head? = some esc → (∀ c ∈ s.tail, isAsciiGraphic c = true) →
      s.count esc = 1 := by
    intro s hs hv
    obtain ⟨t, rfl⟩ := List.head?_eq_some_iff.mp hs
    have hnot : esc ∉ t := fun h => absurd (hv esc h) (by decide)
    rw [List.count_cons_self, List.count_eq_zero_of_not_mem hnot]
  exact ⟨hone style.starts.1 fun c hc => style.visible c (List.mem_append_left _ hc),
    hone style.starts.2 fun c hc => style.visible c (List.mem_append_right _ hc)⟩

theorem mem_style {c : UInt8} (h : c ∈ style.on ∨ c ∈ style.off) : c = esc ∨ isAsciiGraphic c = true := by
  have hone : ∀ {s : Bytes}, s.head? = some esc → (∀ c ∈ s.tail, isAsciiGraphic c = true) → c ∈ s →
      c = esc ∨ isAsciiGraphic c = true := by
    intro s hs hv hc
    obtain ⟨t, rfl⟩ := List.head?_eq_some_iff.mp hs
    exact (List.mem_cons.mp hc).imp id fun hc => hv c hc
  rcases h with h | h
  · exact hone style.starts.1 (fun c hc => style.visible c (List.mem_append_left _ hc)) h
  · exact hone style.starts.2 (fun c hc => style.visible c (List.mem_append_right _ hc)) h

theorem isHex_graphic {b : UInt8} (h : isHex b = true) : isAsciiGraphic b = true := by
  have hall : ∀ b : UInt8, isHex b = true → isAsciiGraphic b = true := by decide +kernel
  exact hall b h

/-- Nothing but visible characters, white space and escape characters. -/
theorem mem_formatBody {body : Bytes} {c : UInt8} (h : c ∈ formatBody style body) :
    c = esc ∨ isShown c = true := by
  have hgraphic : isAsciiGraphic c = true → isShown c = true := fun h => by rw [isShown, h, Bool.true_or]
  rcases List.mem_append.mp h with h | h
  · obtain ⟨b, -, hc⟩ := List.mem_flatMap.mp h
    cases hb : isShown b with
    | true =>
      rw [formatByte, if_pos hb] at hc
      rw [List.mem_singleton.mp hc]
      exact Or.inr hb
    | false =>
      rw [formatByte_hidden style hb, List.mem_append, List.mem_append] at hc
      rcases hc with (hc | hc) | hc
      · exact (mem_style style (Or.inl hc)).imp id hgraphic
      · exact Or.inr (hgraphic (isHex_graphic (mem_padded hc)))
      · exact (mem_style style (Or.inr hc)).imp id hgraphic
  · rw [List.mem_singleton.mp h]
    exact Or.inr (by decide)

/-- Two escape characters for each byte that is not shown. -/
theorem count_formatBody (body : Bytes) :
    (formatBody style body).count esc = 2 * body.countP fun b => !isShown b := by
  have hlf : [byte '\n'].count esc = 0 := by decide
  rw [formatBody, List.count_append, hlf, Nat.add_zero]
  induction body with
  | nil => rfl
  | cons b body ih =>
    rw [List.flatMap_cons, List.count_append, ih, List.countP_cons]
    cases hb : isShown b with
    | true =>
      have hzero : [b].count esc = 0 :=
        List.count_eq_zero_of_not_mem fun h => isShown_ne_esc hb (List.mem_singleton.mp h).symm
      rw [formatByte, if_pos hb, hzero]
      simp
    | false =>
      obtain ⟨hon, hoff⟩ := count_style style
      have hhex : (padded 2 b.toNat).count esc = 0 :=
        List.count_eq_zero_of_not_mem fun h => absurd (mem_padded h) (by decide)
      rw [formatByte_hidden style hb, List.count_append, List.count_append, hon, hoff, hhex]
      simp
      omega

/-- What is printed of a body at verbosity 3 shows it safely and without loss:
it has visible characters, white space and the printer's own escape sequences,
two for each byte that is not shown, and reads back, so that two bodies never
print the same. -/
theorem formatBody_lossless (style : Reversed) (body : Bytes) :
    (∀ c ∈ formatBody style body, c = esc ∨ isShown c = true) ∧
    (formatBody style body).count esc = 2 * body.countP (fun b => !isShown b) ∧
    unformat style (formatBody style body) = some body ∧
    ∀ body', prettyBody (formatBody style) 3 body' = prettyBody (formatBody style) 3 body → body' = body := by
  refine ⟨fun c => mem_formatBody style, count_formatBody style body, unformat_formatBody style body, ?_⟩
  intro body' h
  have hsection : ∀ b : Bytes, prettyBody (formatBody style) 3 b =
      if b = [] then [] else byte '\n' :: formatBody style b := by
    intro b
    by_cases hb : b = []
    · rw [prettyBody, if_neg fun h => h.2 hb, if_pos hb]
    · rw [prettyBody, if_pos ⟨by decide, hb⟩, if_neg hb]
      rfl
  rw [hsection, hsection] at h
  split_ifs at h with hb' hb hb
  · rw [hb', hb]
  · have hread := unformat_formatBody style body'
    rw [(List.cons.inj h).2, unformat_formatBody] at hread
    exact (Option.some.inj hread).symm

/-- Reversed video on a terminal. -/
def ansiReversed : Reversed :=
  ⟨esc :: ascii "[7m", esc :: ascii "[0m", ⟨rfl, rfl⟩, List.all_eq_true.mp (by decide)⟩

theorem formatBody_lossless_null :
    unformat ansiReversed (formatBody ansiReversed [0x41, 0x00, 0x42]) = some [0x41, 0x00, 0x42] :=
  (formatBody_lossless ansiReversed [0x41, 0x00, 0x42]).2.2.1

end Pretty
end Statico
