/-
# The tokens of a JSON text

The lexical part of RFC 8259 over octets: white space, string contents in
UTF-8 with what they denote, numbers and the three literal names.

`Closed` is what a scanner that only knows quotes and backslashes sees of a
string's content: every backslash has a character after it and no quote
stands bare. `cutString` is that scanner (`cutString_spec`), and what it
cuts off a string is the content, whatever follows (`cutString_closed`).

Key definitions: `Blank`, `quoted`, `Closed`, `cutString`, `Chars`, `Literal`.
Key theorems: `cutString_spec`, `Chars.closed`, `Literal.token`.
-/
import Statico.Lib.Ascii

namespace Statico
namespace Json

/-! ### White space -/

def isBlank (b : UInt8) : Bool :=
  b = byte ' ' || b = byte '\t' || b = byte '\n' || b = byte '\r'

/-- `ws = *( %x20 / %x09 / %x0A / %x0D )` -/
def Blank (w : Bytes) : Prop := ∀ b ∈ w, isBlank b = true

theorem blank_nil : Blank [] := fun _ h => by cases h

theorem blank_cons {b : UInt8} {w : Bytes} : Blank (b :: w) ↔ isBlank b = true ∧ Blank w := by
  simp [Blank]

/-- The text after its leading white space. -/
def dropBlank (s : Bytes) : Bytes := s.dropWhile isBlank

/-- A text that does not start with white space. -/
def Solid (s : Bytes) : Prop := ∀ c t, s = c :: t → isBlank c = false

theorem solid_cons {c : UInt8} {s : Bytes} : Solid (c :: s) ↔ isBlank c = false :=
  ⟨fun h => h c s rfl, fun h _ _ e => by cases e; exact h⟩

theorem dropBlank_solid {s : Bytes} (h : Solid s) : dropBlank s = s := by
  cases s with
  | nil => rfl
  | cons c t => simp [dropBlank, h c t rfl]

theorem dropBlank_append {w : Bytes} (hw : Blank w) (s : Bytes) : dropBlank (w ++ s) = dropBlank s := by
  induction w with
  | nil => rfl
  | cons b w ih =>
    obtain ⟨hb, hw⟩ := blank_cons.mp hw
    rw [List.cons_append, dropBlank, List.dropWhile_cons, if_pos hb]
    exact ih hw

/-- White space in front of a solid text is what `dropBlank` takes off. -/
theorem dropBlank_eq {w s : Bytes} (hw : Blank w) (hs : Solid s) : dropBlank (w ++ s) = s := by
  rw [dropBlank_append hw, dropBlank_solid hs]

theorem solid_dropBlank (s : Bytes) : Solid (dropBlank s) := by
  intro c t h
  have := List.head?_dropWhile_not isBlank s
  rw [show s.dropWhile isBlank = c :: t from h] at this
  simpa using this

/-- A text is its leading white space and the rest. -/
theorem dropBlank_split (s : Bytes) : ∃ w, Blank w ∧ s = w ++ dropBlank s :=
  ⟨s.takeWhile isBlank, fun _ hb => List.mem_takeWhile_imp hb, List.takeWhile_append_dropWhile.symm⟩

/-! ### Strings -/

/-- A string's content between its quotes. -/
def quoted (r : Bytes) : Bytes := byte '"' :: (r ++ [byte '"'])

/-- Content that ends at no quote of its own and leaves no backslash open. -/
inductive Closed : Bytes → Prop
  | nil : Closed []
  | escape {c : UInt8} {r : Bytes} : Closed r → Closed (byte '\\' :: c :: r)
  | char {c : UInt8} {r : Bytes} : c ≠ byte '\\' → c ≠ byte '"' → Closed r → Closed (c :: r)

/-- Reads on from inside a string: its content, and what follows the closing
quote. -/
def cutString : Bytes → Option (Bytes × Bytes)
  | [] => none
  | [c] => if c = byte '"' then some ([], []) else none
  | c :: d :: s =>
    if c = byte '\\' then (cutString s).map fun (r, t) => (c :: d :: r, t)
    else if c = byte '"' then some ([], d :: s)
    else (cutString (d :: s)).map fun (r, t) => (c :: r, t)

theorem cutString_quote (s : Bytes) : cutString (byte '"' :: s) = some ([], s) := by
  cases s with
  | nil => rfl
  | cons d s => rw [cutString, if_neg (by decide), if_pos rfl]

theorem cutString_escape (d : UInt8) (s : Bytes) :
    cutString (byte '\\' :: d :: s) = (cutString s).map fun (r, t) => (byte '\\' :: d :: r, t) := by
  rw [cutString, if_pos rfl]

theorem cutString_char {c : UInt8} (h1 : c ≠ byte '\\') (h2 : c ≠ byte '"') (s : Bytes) :
    cutString (c :: s) = (cutString s).map fun (r, t) => (c :: r, t) := by
  cases s with
  | nil => simp [cutString, h2]
  | cons d s => rw [cutString, if_neg h1, if_neg h2]

theorem cutString_closed {r : Bytes} (h : Closed r) (s : Bytes) :
    cutString (r ++ byte '"' :: s) = some (r, s) := by
  induction h with
  | nil => exact cutString_quote s
  | escape _ ih => rw [List.cons_append, List.cons_append, cutString_escape, ih]; rfl
  | char h1 h2 _ ih => rw [List.cons_append, cutString_char h1 h2, ih]; rfl

theorem cutString_spec : ∀ (s r t : Bytes), cutString s = some (r, t) →
    Closed r ∧ s = r ++ byte '"' :: t
  | [], _, _, h => by cases h
  | [c], r, t, h => by
    unfold cutString at h
    split_ifs at h with hc
    cases h
    exact ⟨.nil, by rw [hc]; rfl⟩
  | c :: d :: s, r, t, h => by
    unfold cutString at h
    split_ifs at h with h1 h2
    · obtain ⟨⟨r', t'⟩, hr, he⟩ := Option.map_eq_some_iff.mp h
      cases he
      obtain ⟨hc, hs⟩ := cutString_spec s r' t hr
      exact ⟨by rw [h1]; exact .escape hc, by rw [hs]; rfl⟩
    · cases h
      exact ⟨.nil, by rw [h2]; rfl⟩
    · obtain ⟨⟨r', t'⟩, hr, he⟩ := Option.map_eq_some_iff.mp h
      cases he
      obtain ⟨hc, hs⟩ := cutString_spec (d :: s) r' t hr
      exact ⟨.char h1 h2 hc, by rw [hs]; rfl⟩

theorem length_cutString {s r t : Bytes} (h : cutString s = some (r, t)) : t.length < s.length := by
  obtain ⟨-, rfl⟩ := cutString_spec s r t h
  simp only [List.length_append, List.length_cons]
  omega

theorem Closed.append {r s : Bytes} (hr : Closed r) (hs : Closed s) : Closed (r ++ s) := by
  induction hr with
  | nil => exact hs
  | escape _ ih => exact .escape ih
  | char h1 h2 _ ih => exact .char h1 h2 ih

/-! ### What a string denotes

A string denotes a sequence of UTF-16 code units: an escape `\uXXXX` is one
unit, a character in UTF-8 is one or two. -/

def hexVal (b : UInt8) : Option ℕ :=
  if isDecimal b then some (b.toNat - 48)
  else if byte 'a' ≤ b && b ≤ byte 'f' then some (b.toNat - 87)
  else if byte 'A' ≤ b && b ≤ byte 'F' then some (b.toNat - 55)
  else none

/-- The unit a two-character escape stands for. -/
def escapeUnit (e : UInt8) : Option ℕ :=
  if e = byte '"' then some 0x22
  else if e = byte '\\' then some 0x5C
  else if e = byte '/' then some 0x2F
  else if e = byte 'b' then some 0x08
  else if e = byte 'f' then some 0x0C
  else if e = byte 'n' then some 0x0A
  else if e = byte 'r' then some 0x0D
  else if e = byte 't' then some 0x09
  else none

/-- An ASCII character that stands for itself. -/
def isPlain (b : UInt8) : Bool := 0x20 ≤ b && b < 0x80 && b ≠ byte '"' && b ≠ byte '\\'

/-- A continuation octet of UTF-8. -/
def isTail (b : UInt8) : Bool := 0x80 ≤ b && b < 0xC0

/-- The six bits a continuation octet carries. -/
def tailBits (b : UInt8) : ℕ := b.toNat - 0x80

/-- `char`: one character of a string, and the units it denotes. -/
inductive Chr : Bytes → List ℕ → Prop
  | plain {b : UInt8} : isPlain b = true → Chr [b] [b.toNat]
  | escape {e : UInt8} {u : ℕ} : escapeUnit e = some u → Chr [byte '\\', e] [u]
  | unicode {a b c d : UInt8} {x y z w : ℕ} : hexVal a = some x → hexVal b = some y →
      hexVal c = some z → hexVal d = some w →
      Chr [byte '\\', byte 'u', a, b, c, d] [x * 4096 + y * 256 + z * 16 + w]
  | two {a b : UInt8} : 0xC2 ≤ a → a < 0xE0 → isTail b = true →
      Chr [a, b] [(a.toNat - 0xC0) * 64 + tailBits b]
  | three {a b c : UInt8} {n : ℕ} : 0xE0 ≤ a → a < 0xF0 → isTail b = true → isTail c = true →
      n = (a.toNat - 0xE0) * 4096 + tailBits b * 64 + tailBits c →
      0x800 ≤ n → n < 0xD800 ∨ 0xE000 ≤ n → Chr [a, b, c] [n]
  | four {a b c d : UInt8} {n : ℕ} : 0xF0 ≤ a → a < 0xF5 → isTail b = true → isTail c = true →
      isTail d = true →
      n = (a.toNat - 0xF0) * 262144 + tailBits b * 4096 + tailBits c * 64 + tailBits d →
      0x10000 ≤ n → n < 0x110000 →
      Chr [a, b, c, d] [0xD800 + (n - 0x10000) / 1024, 0xDC00 + (n - 0x10000) % 1024]

/-- The content of a string, and the units it denotes. -/
inductive Chars : Bytes → List ℕ → Prop
  | nil : Chars [] []
  | cons {c r : Bytes} {u us : List ℕ} : Chr c u → Chars r us → Chars (c ++ r) (u ++ us)

theorem Chars.append {r s : Bytes} {us vs : List ℕ} (hr : Chars r us) (hs : Chars s vs) :
    Chars (r ++ s) (us ++ vs) := by
  induction hr with
  | nil => exact hs
  | cons hc _ ih => rw [List.append_assoc, List.append_assoc]; exact .cons hc ih

/-- Plain characters denote themselves. -/
theorem chars_plain : ∀ {r : Bytes}, r.all isPlain = true → Chars r (r.map UInt8.toNat)
  | [], _ => .nil
  | b :: r, h => by
    rw [List.all_cons, Bool.and_eq_true] at h
    exact .cons (.plain h.1) (chars_plain h.2)

theorem isPlain_not_high {b : UInt8} (h : isPlain b = true) : b ≠ byte '\\' ∧ b < 0x80 := by
  simp only [isPlain, Bool.and_eq_true, decide_eq_true_eq] at h
  exact ⟨h.2, h.1.1.2⟩

/-- A plain character starts no other one. -/
theorem Chr.plain_head {b : UInt8} {c : Bytes} {u : List ℕ} (h : Chr (b :: c) u)
    (hb : isPlain b = true) : c = [] ∧ u = [b.toNat] := by
  obtain ⟨hne, hlt⟩ := isPlain_not_high hb
  have high : ∀ {n : UInt8}, 0x80 ≤ n → ¬ n ≤ b := fun hn hle =>
    absurd hlt (UInt8.not_lt.mpr (UInt8.le_trans hn hle))
  cases h with
  | plain _ => exact ⟨rfl, rfl⟩
  | escape _ => exact absurd rfl hne
  | unicode _ _ _ _ => exact absurd rfl hne
  | two ha _ _ => exact absurd ha (high (by decide))
  | three ha _ _ _ _ _ _ => exact absurd ha (high (by decide))
  | four ha _ _ _ _ _ _ _ => exact absurd ha (high (by decide))

theorem Chr.ne_nil {c : Bytes} {u : List ℕ} (h : Chr c u) : c ≠ [] ∧ u ≠ [] := by
  cases h <;> exact ⟨List.cons_ne_nil _ _, List.cons_ne_nil _ _⟩

theorem Chars.nil_iff {r : Bytes} {us : List ℕ} (h : Chars r us) : us = [] ↔ r = [] := by
  cases h with
  | nil => exact ⟨fun _ => rfl, fun _ => rfl⟩
  | cons hc _ =>
    obtain ⟨h1, h2⟩ := hc.ne_nil
    exact ⟨fun e => absurd (List.append_eq_nil_iff.mp e).1 h2,
      fun e => absurd (List.append_eq_nil_iff.mp e).1 h1⟩

theorem Chars.plain_cons {b : UInt8} {r : Bytes} {us : List ℕ} (h : Chars (b :: r) us)
    (hb : isPlain b = true) : ∃ vs, us = b.toNat :: vs ∧ Chars r vs := by
  generalize hs : b :: r = s at h
  cases h with
  | nil => cases hs
  | @cons c r' u vs hc hr =>
    obtain ⟨b', c', rfl⟩ := List.exists_cons_of_ne_nil hc.ne_nil.1
    obtain ⟨rfl, e⟩ := List.cons.inj hs
    obtain ⟨rfl, rfl⟩ := hc.plain_head hb
    exact ⟨vs, rfl, by rw [e]; exact hr⟩

/-- Plain characters denote nothing but themselves, whatever follows them. -/
theorem Chars.plain_append : ∀ {w r : Bytes} {us : List ℕ}, Chars (w ++ r) us →
    w.all isPlain = true → ∃ vs, us = w.map UInt8.toNat ++ vs ∧ Chars r vs
  | [], _, us, h, _ => ⟨us, rfl, h⟩
  | b :: w, r, us, h, hw => by
    rw [List.all_cons, Bool.and_eq_true] at hw
    obtain ⟨us, rfl, ht⟩ := Chars.plain_cons h hw.1
    obtain ⟨vs, rfl, hr⟩ := Chars.plain_append ht hw.2
    exact ⟨vs, rfl, hr⟩

theorem Closed.char_high {c : UInt8} {r : Bytes} (hc : 0x80 ≤ c) (hr : Closed r) : Closed (c :: r) := by
  refine .char ?_ ?_ hr
  · rintro rfl; exact absurd hc (by decide)
  · rintro rfl; exact absurd hc (by decide)

theorem hexVal_ne {b : UInt8} {x : ℕ} (h : hexVal b = some x) : b ≠ byte '\\' ∧ b ≠ byte '"' := by
  constructor
  · rintro rfl; rw [show hexVal (byte '\\') = none by decide] at h; cases h
  · rintro rfl; rw [show hexVal (byte '"') = none by decide] at h; cases h

theorem isTail_le {b : UInt8} (h : isTail b = true) : 0x80 ≤ b := by
  simp only [isTail, Bool.and_eq_true, decide_eq_true_eq] at h
  exact h.1

theorem Chr.closed {c : Bytes} {u : List ℕ} (h : Chr c u) : Closed c := by
  cases h with
  | plain hb =>
    simp only [isPlain, Bool.and_eq_true, decide_eq_true_eq] at hb
    exact .char hb.2 hb.1.2 .nil
  | escape _ => exact .escape .nil
  | unicode ha hb hc hd =>
    exact .escape (.char (hexVal_ne ha).1 (hexVal_ne ha).2 (.char (hexVal_ne hb).1 (hexVal_ne hb).2
      (.char (hexVal_ne hc).1 (hexVal_ne hc).2 (.char (hexVal_ne hd).1 (hexVal_ne hd).2 .nil))))
  | two ha _ hb =>
    exact .char_high (UInt8.le_trans (by decide) ha) (.char_high (isTail_le hb) .nil)
  | three ha _ hb hc _ _ _ =>
    exact .char_high (UInt8.le_trans (by decide) ha)
      (.char_high (isTail_le hb) (.char_high (isTail_le hc) .nil))
  | four ha _ hb hc hd _ _ _ =>
    exact .char_high (UInt8.le_trans (by decide) ha)
      (.char_high (isTail_le hb) (.char_high (isTail_le hc) (.char_high (isTail_le hd) .nil)))

theorem Chars.closed {r : Bytes} {us : List ℕ} (h : Chars r us) : Closed r := by
  induction h with
  | nil => exact .nil
  | cons hc _ ih => exact hc.closed.append ih

/-! ### Numbers and literal names -/

def Digits (s : Bytes) : Prop := s ≠ [] ∧ ∀ b ∈ s, isDecimal b = true

/-- `int = zero / ( digit1-9 *DIGIT )` -/
def IntPart (s : Bytes) : Prop := s = ascii "0" ∨ Digits s ∧ s.head? ≠ some (byte '0')

/-- `[ decimal-point 1*DIGIT ]` -/
def FracPart (s : Bytes) : Prop := s = [] ∨ ∃ ds, Digits ds ∧ s = byte '.' :: ds

/-- `[ e [ minus / plus ] 1*DIGIT ]` -/
def ExpPart (s : Bytes) : Prop :=
  s = [] ∨ ∃ e sign ds, (e = byte 'e' ∨ e = byte 'E') ∧
    (sign = [] ∨ sign = ascii "+" ∨ sign = ascii "-") ∧ Digits ds ∧ s = e :: (sign ++ ds)

/-- `number = [ minus ] int [ frac ] [ exp ]` -/
def Number (s : Bytes) : Prop :=
  ∃ minus int frac exp, (minus = [] ∨ minus = ascii "-") ∧ IntPart int ∧ FracPart frac ∧ ExpPart exp ∧
    s = minus ++ int ++ frac ++ exp

def Literal (s : Bytes) : Prop :=
  s = ascii "null" ∨ s = ascii "true" ∨ s = ascii "false" ∨ Number s

/-- The bytes after which a number or a literal name has ended. -/
def isDelim (b : UInt8) : Bool :=
  b = byte ',' || b = byte '}' || b = byte ']' || isBlank b

/-- A byte that neither ends a token nor opens a string, an object or an array. -/
def Bare (b : UInt8) : Prop := isDelim b = false ∧ b ≠ byte '"' ∧ b ≠ byte '{' ∧ b ≠ byte '['

/-- A bare token. -/
def Token (s : Bytes) : Prop := s ≠ [] ∧ ∀ b ∈ s, Bare b

/-- The characters of numbers and literal names. -/
def isWord (b : UInt8) : Bool :=
  isDecimal b || b = byte '-' || b = byte '+' || b = byte '.' || (byte 'a' ≤ b && b ≤ byte 'z') ||
    b = byte 'E'

theorem isWord_bare {b : UInt8} (h : isWord b = true) : Bare b := by
  have : ∀ b : UInt8, isWord b = true → isDelim b = false ∧ b ≠ byte '"' ∧
      b ≠ byte '{' ∧ b ≠ byte '[' := by decide +kernel
  exact this b h

theorem isDecimal_word {b : UInt8} (h : isDecimal b = true) : isWord b = true := by simp [isWord, h]

/-- A non-empty run of such characters. -/
def Word (s : Bytes) : Prop := s ≠ [] ∧ s.all isWord = true

theorem Digits.word {s : Bytes} (h : Digits s) : s.all isWord = true :=
  List.all_eq_true.mpr fun b hb => isDecimal_word (h.2 b hb)

theorem Number.word {s : Bytes} (h : Number s) : Word s := by
  obtain ⟨minus, int, frac, exp, hm, hi, hf, he, rfl⟩ := h
  have h1 : minus.all isWord = true := by
    rcases hm with rfl | rfl <;> decide
  have h2 : Word int := by
    rcases hi with rfl | ⟨hd, -⟩
    · exact ⟨by decide, by decide⟩
    · exact ⟨hd.1, hd.word⟩
  have h3 : frac.all isWord = true := by
    rcases hf with rfl | ⟨ds, hd, rfl⟩
    · rfl
    · rw [List.all_cons, hd.word]; decide
  have h4 : exp.all isWord = true := by
    rcases he with rfl | ⟨e, sign, ds, he, hs, hd, rfl⟩
    · rfl
    · have h5 : isWord e = true := by rcases he with rfl | rfl <;> decide
      have h6 : sign.all isWord = true := by rcases hs with rfl | rfl | rfl <;> decide
      rw [List.all_cons, List.all_append, h5, h6, hd.word]; rfl
  refine ⟨fun h => h2.1 ?_, ?_⟩
  · simp only [List.append_eq_nil_iff] at h
    exact h.1.1.2
  · rw [List.all_append, List.all_append, List.all_append, h1, h2.2, h3, h4]; rfl

theorem Literal.word {s : Bytes} (h : Literal s) : Word s := by
  rcases h with rfl | rfl | rfl | h
  · exact ⟨by decide, by decide⟩
  · exact ⟨by decide, by decide⟩
  · exact ⟨by decide, by decide⟩
  · exact h.word

/-- Numbers and literal names are bare tokens. -/
theorem Literal.token {s : Bytes} (h : Literal s) : Token s :=
  ⟨h.word.1, fun b hb => isWord_bare (List.all_eq_true.mp h.word.2 b hb)⟩

/-- An integer without leading zeros is a number. -/
theorem literal_integer {minus ds : Bytes} (hm : minus = [] ∨ minus = ascii "-") (hne : ds ≠ [])
    (hd : ds.all isDecimal = true) (h0 : ds.head? ≠ some (byte '0')) : Literal (minus ++ ds) := by
  refine Or.inr (Or.inr (Or.inr ⟨minus, ds, [], [], hm, Or.inr ⟨⟨hne, ?_⟩, h0⟩, Or.inl rfl, Or.inl rfl, ?_⟩))
  · exact List.all_eq_true.mp hd
  · rw [List.append_nil, List.append_nil]

theorem literal_negative {ds : Bytes} (hne : ds ≠ []) (hd : ds.all isDecimal = true)
    (h0 : ds.head? ≠ some (byte '0')) : Literal (ascii "-" ++ ds) :=
  literal_integer (Or.inr rfl) hne hd h0

/-! ### First and last of a key -/

section Lookup

variable {κ β : Type} [DecidableEq κ]

/-- The value of the first member with the key `k`. -/
def firstOf (k : κ) : List (κ × β) → Option β
  | [] => none
  | (k', v) :: ms => if k' = k then some v else firstOf k ms

/-- The value of the last member with the key `k`. -/
def lastOf (k : κ) : List (κ × β) → Option β
  | [] => none
  | (k', v) :: ms => (lastOf k ms).or (if k' = k then some v else none)

theorem lastOf_mem {k : κ} : ∀ {ms : List (κ × β)} {v : β}, lastOf k ms = some v → (k, v) ∈ ms
  | [], _, h => by cases h
  | (k', v') :: ms, v, h => by
    rw [lastOf] at h
    cases hl : lastOf k ms with
    | some w =>
      rw [hl, Option.some_or] at h
      cases h
      exact List.mem_cons_of_mem _ (lastOf_mem hl)
    | none =>
      rw [hl, Option.none_or] at h
      split_ifs at h with hk
      cases h
      rw [hk]
      exact List.mem_cons_self

theorem firstOf_mem {k : κ} : ∀ {ms : List (κ × β)} {v : β}, firstOf k ms = some v → (k, v) ∈ ms
  | [], _, h => by cases h
  | (k', v') :: ms, v, h => by
    rw [firstOf] at h
    split_ifs at h with hk
    · cases h
      rw [hk]
      exact List.mem_cons_self
    · exact List.mem_cons_of_mem _ (firstOf_mem h)

/-- Where no key is repeated, the first value is the last one. -/
theorem firstOf_eq_lastOf (k : κ) : ∀ {ms : List (κ × β)}, (ms.map Prod.fst).Nodup →
    firstOf k ms = lastOf k ms
  | [], _ => rfl
  | (k', v) :: ms, h => by
    obtain ⟨hk', hms⟩ := List.nodup_cons.mp h
    rw [firstOf, lastOf]
    by_cases hk : k' = k
    · have hnone : lastOf k ms = none := by
        apply Option.eq_none_iff_forall_ne_some.mpr
        intro w hw
        apply hk'
        rw [hk]
        exact List.mem_map.mpr ⟨(k, w), lastOf_mem hw, rfl⟩
      rw [if_pos hk, if_pos hk, hnone, Option.none_or]
    · rw [if_neg hk, if_neg hk, Option.or_none]
      exact firstOf_eq_lastOf k hms

end Lookup

end Json
end Statico
