/-
# The hexdump of `pretty.rs`

At verbosity 4 and above the body of a message is printed sixteen bytes a
line: the offset, the bytes as two digits each, the bytes as characters
between two bars. Three paddings keep the bars in their column: a space
before the ninth byte, three spaces for a byte that is missing, and one more
space if the line has no ninth byte.

A reader of the dump takes the digits between the offset and the first bar of
each line, and nothing else (`undump`); it gets the body back
(`hexdump_aligned`).

Key definitions: `formatBodyHexdump`, `prettyBody`, `undump`.
Key theorems: `length_hexColumns`, `hexdumpText_bar`, `hexdump_aligned`.
-/
import Statico.Lib.EventStream
import Statico.Lib.Hex
import Statico.Lib.Pieces

namespace Statico
namespace Pretty

open Chunked Hex EventStream

/-! ### The printer -/

def isAsciiGraphic (b : UInt8) : Bool := byte '!' ≤ b && b ≤ byte '~'

/-- A byte as a character of the last column. -/
def asciiChar (b : UInt8) : UInt8 := if isAsciiGraphic b || b = byte ' ' then b else byte '.'

/-- The `i`-th byte of a line. -/
def hexColumn (i : ℕ) (b : UInt8) : Bytes :=
  (if i = 8 then ascii " " else []) ++ padded 2 b.toNat ++ ascii " "

def hexColumns (chunk : Bytes) : Bytes := (chunk.zipIdx.map fun (b, i) => hexColumn i b).flatten

/-- What stands for the bytes missing of a line. -/
def hexPadding (len : ℕ) : Bytes :=
  if len < 16 then
    (List.replicate (16 - len) (ascii "   ")).flatten ++ (if len ≤ 8 then ascii " " else [])
  else []

/-- A line without its line break. -/
def hexdumpText (chunkIdx : ℕ) (chunk : Bytes) : Bytes :=
  padded 8 (chunkIdx * 16) ++ ascii "  " ++ hexColumns chunk ++ hexPadding chunk.length ++ ascii " |" ++
    chunk.map asciiChar ++ ascii "|"

def formatBodyHexdump (body : Bytes) : Bytes :=
  ((chunks 16 body).zipIdx.map fun (chunk, chunkIdx) => hexdumpText chunkIdx chunk ++ [byte '\n']).flatten

/-- What a message prints of its body: nothing below verbosity 3, and at 3 the
text of `format_body`. -/
def prettyBody (formatBody : Bytes → Bytes) (verb : ℕ) (body : Bytes) : Bytes :=
  if 2 < verb ∧ body ≠ [] then
    byte '\n' :: (if verb = 3 then formatBody body else formatBodyHexdump body)
  else []

/-! ### The reader -/

/-- The digits of a line, between its offset and its first bar. -/
def digits (line : Bytes) : Bytes := ((line.takeWhile (· ≠ byte '|')).drop 10).filter (· ≠ byte ' ')

/-- The bytes the hex columns of all lines spell. -/
def undump (text : Bytes) : Option Bytes := do
  let chunks ← (lines text).dropLast.mapM fun line => readPairs (digits line)
  return chunks.flatten

/-! ### One line -/

/-- A character from the space to the tilde. -/
def isPrintable (b : UInt8) : Bool := 0x20 ≤ b && b ≤ 0x7E

theorem isPrintable_asciiChar (b : UInt8) : isPrintable (asciiChar b) = true := by
  have h : ∀ b : UInt8, isPrintable (asciiChar b) = true := by decide +kernel
  exact h b

theorem isHex_spec : ∀ b : UInt8, isHex b = true →
    isPrintable b = true ∧ b ≠ byte '|' ∧ b ≠ byte ' ' := by
  decide +kernel

/-- The columns from position `k` of the line on: three characters a byte, and
a space where the ninth byte is among them. -/
theorem length_columns : ∀ (chunk : Bytes) (k : ℕ),
    ((chunk.zipIdx k).map fun (b, i) => hexColumn i b).flatten.length =
      3 * chunk.length + if k ≤ 8 ∧ 8 < k + chunk.length then 1 else 0
  | [], k => by
    rw [if_neg (by simp)]
    rfl
  | b :: chunk, k => by
    have hb : (padded 2 b.toNat).length = 2 := length_padded (by decide) b.toNat_lt
    have ih := length_columns chunk (k + 1)
    rw [List.zipIdx_cons, List.map_cons, List.flatten_cons, List.length_append, ih]
    simp only [hexColumn, List.length_append, List.length_cons, hb]
    split_ifs <;> simp [ascii] <;> omega

/-- With the paddings every line has the columns of sixteen bytes. -/
theorem length_hexColumns {chunk : Bytes} (h : chunk.length ≤ 16) :
    (hexColumns chunk).length + (hexPadding chunk.length).length = 49 := by
  have hspace : (ascii " ").length = 1 := by decide
  have hpad : ∀ n : ℕ, (List.replicate n (ascii "   ")).flatten.length = 3 * n := by
    intro n
    rw [List.length_flatten, List.map_replicate, List.sum_replicate]
    exact Nat.mul_comm n 3
  rw [hexColumns, length_columns]
  by_cases h16 : chunk.length < 16
  · rw [hexPadding, if_pos h16, List.length_append, hpad]
    split_ifs <;> simp only [hspace, List.length_nil] <;> omega
  · rw [hexPadding, if_neg h16, if_pos (by omega), List.length_nil]
    omega

/-- Without the spaces the columns are two digits a byte. -/
theorem filter_columns : ∀ (chunk : Bytes) (k : ℕ),
    ((chunk.zipIdx k).map fun (b, i) => hexColumn i b).flatten.filter (· ≠ byte ' ') =
      chunk.flatMap fun b => padded 2 b.toNat
  | [], _ => rfl
  | b :: chunk, k => by
    have hb : (padded 2 b.toNat).filter (· ≠ byte ' ') = padded 2 b.toNat := by
      apply List.filter_eq_self.mpr
      intro c hc
      exact decide_eq_true (isHex_spec c (mem_padded hc)).2.2
    have hsp : (ascii " ").filter (· ≠ byte ' ') = [] := by decide
    have hgap : (if k = 8 then ascii " " else []).filter (· ≠ byte ' ') = [] := by
      split_ifs
      · exact hsp
      · rfl
    have hcol : (hexColumn k b).filter (· ≠ byte ' ') = padded 2 b.toNat := by
      rw [hexColumn, List.filter_append, List.filter_append, hgap, hb, hsp, List.nil_append,
        List.append_nil]
    rw [List.zipIdx_cons, List.map_cons, List.flatten_cons, List.filter_append, filter_columns chunk,
      List.flatMap_cons]
    exact congrArg (· ++ _) hcol

/-- What stands before the first bar of a line. -/
def lead (chunkIdx : ℕ) (chunk : Bytes) : Bytes :=
  padded 8 (chunkIdx * 16) ++ ascii "  " ++ (hexColumns chunk ++ hexPadding chunk.length ++ ascii " ")

theorem hexdumpText_bar (chunkIdx : ℕ) (chunk : Bytes) : hexdumpText chunkIdx chunk =
    lead chunkIdx chunk ++ byte '|' :: (chunk.map asciiChar ++ [byte '|']) := by
  have hbar : ascii " |" = ascii " " ++ [byte '|'] := by decide
  have hend : ascii "|" = [byte '|'] := by decide
  rw [hexdumpText, lead, hbar, hend]
  simp only [List.append_assoc, List.cons_append, List.nil_append]

theorem mem_spaces {n : ℕ} {c : UInt8} (h : c ∈ List.replicate n (byte ' ')) : c = byte ' ' :=
  List.eq_of_mem_replicate h

theorem mem_hexPadding {len : ℕ} {c : UInt8} (h : c ∈ hexPadding len) : c = byte ' ' := by
  rw [hexPadding] at h
  by_cases h16 : len < 16
  · rw [if_pos h16, List.mem_append] at h
    rcases h with h | h
    · obtain ⟨l, hl, hc⟩ := List.mem_flatten.mp h
      rw [List.eq_of_mem_replicate hl] at hc
      exact mem_spaces (n := 3) hc
    · by_cases h8 : len ≤ 8
      · rw [if_pos h8] at h
        exact mem_spaces (n := 1) h
      · rw [if_neg h8] at h
        cases h
  · rw [if_neg h16] at h
    cases h

/-- There are digits and spaces before the first bar, and nothing else. -/
theorem mem_lead {chunkIdx : ℕ} {chunk : Bytes} {c : UInt8} (h : c ∈ lead chunkIdx chunk) :
    isPrintable c = true ∧ c ≠ byte '|' := by
  by_cases hc : c = byte ' '
  · rw [hc]
    decide
  · have hex : isHex c = true := by
      simp only [lead, List.mem_append] at h
      rcases h with (h | h) | (h | h) | h
      · exact mem_padded h
      · exact absurd (mem_spaces (n := 2) h) hc
      · have hf : c ∈ (hexColumns chunk).filter (· ≠ byte ' ') :=
          List.mem_filter.mpr ⟨h, decide_eq_true hc⟩
        rw [hexColumns, filter_columns] at hf
        obtain ⟨b, -, hb⟩ := List.mem_flatMap.mp hf
        exact mem_padded hb
      · exact absurd (mem_hexPadding h) hc
      · exact absurd (mem_spaces (n := 1) h) hc
    exact ⟨(isHex_spec c hex).1, (isHex_spec c hex).2.1⟩

section Line

variable {chunkIdx : ℕ} {chunk : Bytes}

theorem length_offset (hk : chunkIdx * 16 < 2 ^ 32) : (padded 8 (chunkIdx * 16)).length = 8 :=
  length_padded (by decide) (lt_of_lt_of_eq hk (by decide))

theorem length_lead (hk : chunkIdx * 16 < 2 ^ 32) (hl : chunk.length ≤ 16) :
    (lead chunkIdx chunk).length = 60 := by
  have hsp2 : (ascii "  ").length = 2 := by decide
  have hsp : (ascii " ").length = 1 := by decide
  have hcols := length_hexColumns hl
  simp only [lead, List.length_append, length_offset hk, hsp2, hsp]
  omega

/-- No line breaks inside a line. -/
theorem calm_hexdumpText (chunkIdx : ℕ) (chunk : Bytes) : Calm (hexdumpText chunkIdx chunk) := by
  have hcalm : ∀ b : UInt8, isPrintable b = true → isBreak b = false := by decide +kernel
  intro c hc
  apply hcalm
  rw [hexdumpText_bar, List.mem_append, List.mem_cons, List.mem_append, List.mem_singleton] at hc
  rcases hc with hc | rfl | hc | rfl
  · exact (mem_lead hc).1
  · decide
  · obtain ⟨b, -, rfl⟩ := List.mem_map.mp hc
    exact isPrintable_asciiChar b
  · decide

/-- The digits of a line are its bytes, two digits each. -/
theorem digits_hexdumpText (hk : chunkIdx * 16 < 2 ^ 32) :
    digits (hexdumpText chunkIdx chunk) = chunk.flatMap fun b => padded 2 b.toNat := by
  have hlead : (hexdumpText chunkIdx chunk).takeWhile (· ≠ byte '|') = lead chunkIdx chunk := by
    rw [hexdumpText_bar, List.takeWhile_append_of_pos]
    · rw [List.takeWhile_cons, if_neg (by simp), List.append_nil]
    · intro c hc
      exact decide_eq_true (mem_lead hc).2
  have hoff : (padded 8 (chunkIdx * 16) ++ ascii "  ").length = 10 := by
    rw [List.length_append, length_offset hk]
    decide
  have hpad : (hexPadding chunk.length).filter (· ≠ byte ' ') = [] := by
    apply List.filter_eq_nil_iff.mpr
    intro c hc
    rw [mem_hexPadding hc]
    decide
  have hsp : (ascii " ").filter (· ≠ byte ' ') = [] := by decide
  rw [digits, hlead, lead, List.drop_left' hoff, List.filter_append, List.filter_append, hexColumns,
    filter_columns, hpad, hsp, List.append_nil, List.append_nil]

/-- The offset has eight digits, the first bar is in its column, and behind it
is one printable character for each byte. -/
theorem hexdumpText_columns (hk : chunkIdx * 16 < 2 ^ 32) (hl : chunk.length ≤ 16) :
    ((hexdumpText chunkIdx chunk).take 8).length = 8 ∧
    parseHex ((hexdumpText chunkIdx chunk).take 8) = some (16 * chunkIdx) ∧
    (hexdumpText chunkIdx chunk).idxOf (byte '|') = 60 ∧
    (hexdumpText chunkIdx chunk).drop 60 = byte '|' :: (chunk.map asciiChar ++ [byte '|']) := by
  have htake : (hexdumpText chunkIdx chunk).take 8 = padded 8 (chunkIdx * 16) := by
    rw [hexdumpText]
    simp only [List.append_assoc]
    exact List.take_left' (length_offset hk)
  refine ⟨?_, ?_, ?_, ?_⟩
  · rw [htake, length_offset hk]
  · rw [htake, parseHex_padded, Nat.mul_comm]
  · have hno : byte '|' ∉ lead chunkIdx chunk := fun h => (mem_lead h).2 rfl
    rw [hexdumpText_bar, List.idxOf_append_of_notMem hno, List.idxOf_cons_self, length_lead hk hl]
  · rw [hexdumpText_bar, List.drop_left' (length_lead hk hl)]

end Line

/-! ### All lines -/

section Dump

variable {body : Bytes}

/-- The lines of a dump. -/
def hexdumpLines (body : Bytes) : List Bytes :=
  (chunks 16 body).zipIdx.map fun (chunk, chunkIdx) => hexdumpText chunkIdx chunk

theorem lines_hexdump (body : Bytes) : lines (formatBodyHexdump body) = hexdumpLines body ++ [[]] := by
  have hcalm : ∀ l ∈ hexdumpLines body, Calm l := by
    intro l hl
    obtain ⟨x, -, rfl⟩ := List.mem_map.mp hl
    exact calm_hexdumpText x.2 x.1
  rw [← lines_ended hcalm, hexdumpLines, List.map_map]
  rfl

/-- The `k`-th line prints the `k`-th sixteen bytes. -/
theorem getElem?_hexdumpLines {k : ℕ} {line : Bytes} (h : (hexdumpLines body)[k]? = some line) :
    k * 16 < body.length ∧ line = hexdumpText k ((body.drop (k * 16)).take 16) := by
  rw [hexdumpLines, List.getElem?_map, List.getElem?_zipIdx] at h
  obtain ⟨x, hx, rfl⟩ := Option.map_eq_some_iff.mp h
  obtain ⟨chunk, hchunk, rfl⟩ := Option.map_eq_some_iff.mp hx
  obtain ⟨hlt, rfl⟩ := getElem?_chunks body (by decide) hchunk
  exact ⟨hlt, by simp⟩

theorem mapM_zipIdx {α β : Type} (f : β → Option α) (g : α × ℕ → β) : ∀ (l : List α) (k : ℕ),
    (∀ x ∈ l.zipIdx k, f (g x) = some x.1) → ((l.zipIdx k).map g).mapM f = some l
  | [], _, _ => rfl
  | a :: l, k, h => by
    rw [List.zipIdx_cons] at h ⊢
    have ha : f (g (a, k)) = some a := h _ List.mem_cons_self
    have ih := mapM_zipIdx f g l (k + 1) fun x hx => h x (List.mem_cons_of_mem _ hx)
    rw [List.map_cons, List.mapM_cons, ha, ih]
    rfl

/-- The dump reads back as the body. -/
theorem undump_hexdump (h : body.length < 2 ^ 32) : undump (formatBodyHexdump body) = some body := by
  have hread : (hexdumpLines body).mapM (fun line => readPairs (digits line)) = some (chunks 16 body) := by
    apply mapM_zipIdx
    intro x hx
    obtain ⟨hlt, -⟩ := getElem?_chunks body (by decide) (List.mk_mem_zipIdx_iff_getElem?.mp hx)
    rw [digits_hexdumpText (by omega), readPairs_padded]
  rw [undump, lines_hexdump, List.dropLast_concat, hread]
  exact congrArg some (flatten_chunks body (by decide))

/-- Two different bodies never print the same dump. -/
theorem hexdump_injective {body' : Bytes} (h : body.length < 2 ^ 32) (h' : body'.length < 2 ^ 32)
    (e : formatBodyHexdump body' = formatBodyHexdump body) : body' = body := by
  have hread := undump_hexdump h'
  rw [e, undump_hexdump h] at hread
  exact (Option.some.inj hread).symm

/-- The dump of a body below 4 GiB: its lines are those of sixteen bytes each,
every line has its offset and its bars in the same columns, and the digits of
all lines spell the body. -/
theorem hexdump_aligned (body : Bytes) (h : body.length < 2 ^ 32) :
    (∃ ls, lines (formatBodyHexdump body) = ls ++ [[]] ∧ ls.length = (body.length + 15) / 16 ∧
      ∀ k line, ls[k]? = some line →
        (line.take 8).length = 8 ∧ parseHex (line.take 8) = some (16 * k) ∧
        line.idxOf (byte '|') = 60 ∧
        ∃ column, line.drop 60 = byte '|' :: (column ++ [byte '|']) ∧
          column.length = min 16 (body.length - 16 * k) ∧ ∀ c ∈ column, isPrintable c = true) ∧
    undump (formatBodyHexdump body) = some body ∧
    ∀ body', body'.length < 2 ^ 32 → formatBodyHexdump body' = formatBodyHexdump body → body' = body := by
  refine ⟨⟨hexdumpLines body, lines_hexdump body, ?_, ?_⟩, undump_hexdump h,
    fun body' h' => hexdump_injective h h'⟩
  · rw [hexdumpLines, List.length_map, List.length_zipIdx, length_chunks]
  · intro k line hline
    obtain ⟨hlt, rfl⟩ := getElem?_hexdumpLines hline
    have hl : ((body.drop (k * 16)).take 16).length ≤ 16 := List.length_take_le 16 _
    have hk : k * 16 < 2 ^ 32 := by omega
    obtain ⟨h1, h2, h3, h4⟩ := hexdumpText_columns hk hl
    refine ⟨h1, h2, h3, _, h4, ?_, ?_⟩
    · rw [List.length_map, List.length_take, List.length_drop, Nat.mul_comm]
    · intro c hc
      obtain ⟨b, -, rfl⟩ := List.mem_map.mp hc
      exact isPrintable_asciiChar b

theorem hexdump_aligned_three : undump (formatBodyHexdump [0x41, 0x00, 0x42]) = some [0x41, 0x00, 0x42] :=
  (hexdump_aligned [0x41, 0x00, 0x42] (by decide)).2.1

end Dump

end Pretty
end Statico
