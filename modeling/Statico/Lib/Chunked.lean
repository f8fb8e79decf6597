/-
# The chunked transfer coding

A body sent in chunks, each with its size in hexadecimal digits on a line of
its own, and a chunk of size 0 at the end. A sender may write the digits as
small or as capital letters (`Coded`). A decoder that knows the grammar and
nothing else reads the chunks back as they were written, and stops where they
end (`Coded.decode`).

Key definitions: `hexadecimal`, `chunk`, `encode`, `Coded`, `decode`.
Key theorems: `parseHex_size`, `length_hexadecimal_add`,
`length_encode_flatten`, `Coded.length`, `Coded.decode`.
-/
import Statico.Lib.Http1

namespace Statico
namespace Chunked

open Http1

/-! ### Hexadecimal numerals -/

/-- A natural number as `{:x}` formats it. -/
def hexadecimal (n : ℕ) : Bytes := (Nat.toDigits 16 n).map byte

def isHex (b : UInt8) : Bool :=
  isDecimal b || (byte 'a' ≤ lower b && lower b ≤ byte 'f')

/-- The value of a hexadecimal digit. -/
def hexValue (b : UInt8) : ℕ := if isDecimal b then b.toNat - 48 else (lower b).toNat - 87

def parseHex (s : Bytes) : Option ℕ :=
  if s ≠ [] ∧ s.all isHex = true then some (s.foldl (fun n b => 16 * n + hexValue b) 0) else none

theorem digitChar_hex : ∀ d < 16, isHex (byte (Nat.digitChar d)) = true ∧
    hexValue (byte (Nat.digitChar d)) = d := by
  decide +kernel

/-- The last digit of a numeral, and the numeral before it. -/
theorem hexadecimal_step {n : ℕ} (h : 16 ≤ n) :
    hexadecimal n = hexadecimal (n / 16) ++ [byte (Nat.digitChar (n % 16))] := by
  rw [hexadecimal, Nat.toDigits_of_base_le (by decide) h, List.map_append]
  rfl

theorem hexadecimal_digit {n : ℕ} (h : n < 16) : hexadecimal n = [byte (Nat.digitChar n)] := by
  rw [hexadecimal, Nat.toDigits_of_lt_base h]
  rfl

theorem hexadecimal_ne_nil (n : ℕ) : hexadecimal n ≠ [] := by simp [hexadecimal, Nat.toDigits_ne_nil]

theorem mem_hexadecimal : ∀ (n : ℕ) {b : UInt8}, b ∈ hexadecimal n → isHex b = true := by
  intro n
  induction n using Nat.strong_induction_on with
  | _ n ih =>
    intro b hb
    rcases Nat.lt_or_ge n 16 with h | h
    · rw [hexadecimal_digit h, List.mem_singleton] at hb
      rw [hb]
      exact (digitChar_hex n h).1
    · rw [hexadecimal_step h, List.mem_append, List.mem_singleton] at hb
      rcases hb with hb | rfl
      · exact ih (n / 16) (by omega) hb
      · exact (digitChar_hex _ (Nat.mod_lt _ (by decide))).1

theorem foldl_hexadecimal (n : ℕ) : (hexadecimal n).foldl (fun n b => 16 * n + hexValue b) 0 = n := by
  induction n using Nat.strong_induction_on with
  | _ n ih =>
    rcases Nat.lt_or_ge n 16 with h | h
    · simp [hexadecimal_digit h, (digitChar_hex n h).2]
    · have hd := (digitChar_hex (n % 16) (Nat.mod_lt _ (by decide))).2
      rw [hexadecimal_step h, List.foldl_append, ih (n / 16) (by omega)]
      simp only [List.foldl_cons, List.foldl_nil, hd]
      omega

/-- Letter case does not matter in a digit. -/
theorem isHex_lower : ∀ b : UInt8, isHex (lower b) = isHex b ∧ hexValue (lower b) = hexValue b := by decide +kernel

theorem mem_size {n : ℕ} {size : Bytes} (h : size.map lower = hexadecimal n) {b : UInt8} (hb : b ∈ size) :
    isHex b = true := by
  have hmem := mem_hexadecimal n (h ▸ List.mem_map_of_mem hb)
  rwa [(isHex_lower b).1] at hmem

/-- A size reads back as it was, with letters of either case. -/
theorem parseHex_size {n : ℕ} {size : Bytes} (h : size.map lower = hexadecimal n) : parseHex size = some n := by
  have hne : size ≠ [] := fun e => hexadecimal_ne_nil n (by rw [← h, e]; rfl)
  have hall : size.all isHex = true := List.all_eq_true.mpr fun b hb => mem_size h hb
  have hfold := foldl_hexadecimal n
  rw [← h, List.foldl_map] at hfold
  simp only [fun b => (isHex_lower b).2] at hfold
  rw [parseHex, if_pos ⟨hne, hall⟩, hfold]

theorem lower_hexadecimal (n : ℕ) : (hexadecimal n).map lower = hexadecimal n := by
  have hdigit : ∀ d < 16, lower (byte (Nat.digitChar d)) = byte (Nat.digitChar d) := by decide +kernel
  induction n using Nat.strong_induction_on with
  | _ n ih =>
    rcases Nat.lt_or_ge n 16 with h | h
    · rw [hexadecimal_digit h, List.map_singleton, hdigit n h]
    · rw [hexadecimal_step h, List.map_append, ih (n / 16) (by omega), List.map_singleton,
        hdigit _ (Nat.mod_lt _ (by decide))]

/-- A formatted size reads back as it was. -/
theorem parseHex_hexadecimal (n : ℕ) : parseHex (hexadecimal n) = some n := parseHex_size (lower_hexadecimal n)

/-- How long a numeral is. -/
theorem length_hexadecimal_le {n k : ℕ} (hk : 0 < k) : (hexadecimal n).length ≤ k ↔ n < 16 ^ k := by
  rw [hexadecimal, List.length_map]
  exact Nat.length_toDigits_le_iff (by decide) hk

theorem length_hexadecimal_pos (n : ℕ) : 0 < (hexadecimal n).length :=
  List.length_pos_iff.mpr (hexadecimal_ne_nil n)

theorem lt_pow_hexadecimal (n : ℕ) : n < 16 ^ (hexadecimal n).length :=
  (length_hexadecimal_le (length_hexadecimal_pos n)).mp le_rfl

/-- A sum has no more digits than its parts have together. -/
theorem length_hexadecimal_add (m n : ℕ) :
    (hexadecimal (m + n)).length ≤ (hexadecimal m).length + (hexadecimal n).length := by
  have hm := lt_pow_hexadecimal m
  have hn := lt_pow_hexadecimal n
  have hpm := length_hexadecimal_pos m
  have hpn := length_hexadecimal_pos n
  generalize (hexadecimal m).length = x at hm hpm ⊢
  generalize (hexadecimal n).length = y at hn hpn ⊢
  have hx : 16 ≤ 16 ^ x := Nat.le_self_pow (by omega) 16
  have hy : 16 ≤ 16 ^ y := Nat.le_self_pow (by omega) 16
  rw [length_hexadecimal_le (by omega)]
  calc m + n < 16 ^ x + 16 ^ y := by omega
    _ ≤ 16 ^ x * 16 ^ y := by nlinarith
    _ = 16 ^ (x + y) := (Nat.pow_add 16 x y).symm

/-! ### The coding -/

/-- `chunk = chunk-size CRLF chunk-data CRLF` -/
def chunk (data : Bytes) : Bytes := hexadecimal data.length ++ (crlf ++ (data ++ crlf))

/-- `last-chunk` and no trailers. -/
def lastChunk : Bytes := ascii "0\r\n\r\n"

def encode : List Bytes → Bytes
  | [] => lastChunk
  | c :: cs => chunk c ++ encode cs

/-- What is sent for chunks, the letters of the sizes in either case. -/
inductive Coded : List Bytes → Bytes → Prop
  | last : Coded [] lastChunk
  | chunk {size data wire : Bytes} {cs : List Bytes} : size.map lower = hexadecimal data.length → Coded cs wire →
      Coded (data :: cs) (size ++ (crlf ++ (data ++ (crlf ++ wire))))

/-- The size on the first line, its extensions ignored, and what follows the line. -/
def cutSize (s : Bytes) : Option (ℕ × Bytes) := do
  let (l, t) ← cutLine s
  let n ← parseHex (l.takeWhile isHex)
  match l.dropWhile isHex with
  | [] => return (n, t)
  | c :: _ => if c = byte ';' then return (n, t) else none

/-- The data of the chunks up to the last, the trailers ignored, and what follows. -/
def cutChunks : ℕ → Bytes → Option (List Bytes × Bytes)
  | 0, _ => none
  | fuel + 1, s => do
    let (n, t) ← cutSize s
    if n = 0 then
      let (_, u) ← cutFields (t.length + 1) t
      return ([], u)
    else if t.length < n then none
    else
      let (l, u) ← cutLine (t.drop n)
      if l ≠ [] then none
      else
        let (cs, v) ← cutChunks fuel u
        return (t.take n :: cs, v)

def decode (s : Bytes) : Option (List Bytes × Bytes) := cutChunks (s.length + 1) s

theorem length_chunk (data : Bytes) :
    (chunk data).length = (hexadecimal data.length).length + data.length + 4 := by
  simp only [chunk, List.length_append, show crlf.length = 2 by decide]
  omega

theorem isHex_calm : ∀ b : UInt8, isHex b = true → isBreak b = false := by decide +kernel

theorem cutSize_size {n : ℕ} {size : Bytes} (h : size.map lower = hexadecimal n) (s : Bytes) :
    cutSize (size ++ (crlf ++ s)) = some (n, s) := by
  have hhex : ∀ b ∈ size, isHex b = true := fun b hb => mem_size h hb
  have hcalm : Calm size := fun b hb => isHex_calm b (hhex b hb)
  have htake : size.takeWhile isHex = size := List.takeWhile_eq_self_iff.mpr hhex
  have hdrop : size.dropWhile isHex = [] := List.dropWhile_eq_nil_iff.mpr hhex
  simp [cutSize, cutLine_calm hcalm, htake, hdrop, parseHex_size h]

/-- The chunks read back as they were sent, whatever follows them. -/
theorem Coded.cutChunks {cs : List Bytes} {wire : Bytes} (h : Coded cs wire) (hne : ∀ c ∈ cs, c ≠ [])
    (rest : Bytes) (fuel : ℕ) (hf : cs.length < fuel) :
    Chunked.cutChunks fuel (wire ++ rest) = some (cs, rest) := by
  induction h generalizing fuel with
  | last =>
    obtain ⟨fuel, rfl⟩ := Nat.exists_eq_succ_of_ne_zero (Nat.ne_of_gt hf)
    have hsize : cutSize (lastChunk ++ rest) = some (0, crlf ++ rest) :=
      cutSize_size (show (ascii "0").map lower = hexadecimal 0 by decide) (crlf ++ rest)
    have hnone : ∀ f ∈ ([] : List (Bytes × Bytes)), IsField f := fun f hf => absurd hf List.not_mem_nil
    have hfields : ∀ n, cutFields (n + 1) (crlf ++ rest) = some ([], rest) := fun n =>
      cutFields_lines hnone (n + 1) rest (Nat.succ_pos n)
    rw [Chunked.cutChunks, hsize]
    simp [hfields]
  | @chunk size c wire cs hsize _ ih =>
    obtain ⟨fuel, rfl⟩ := Nat.exists_eq_succ_of_ne_zero (Nat.ne_of_gt (Nat.zero_lt_of_lt hf))
    have hpos : c.length ≠ 0 := fun h0 => hne c List.mem_cons_self (List.length_eq_zero_iff.mp h0)
    have ih := ih (fun d hd => hne d (List.mem_cons_of_mem _ hd)) fuel (Nat.lt_of_succ_lt_succ hf)
    have hsplit : size ++ (crlf ++ (c ++ (crlf ++ wire))) ++ rest =
        size ++ (crlf ++ (c ++ (crlf ++ (wire ++ rest)))) := by
      simp
    have hline : cutLine (crlf ++ (wire ++ rest)) = some ([], wire ++ rest) :=
      cutLine_calm (l := []) (fun b hb => absurd hb List.not_mem_nil) _
    rw [hsplit, Chunked.cutChunks, cutSize_size hsize]
    simp [hpos, hline, ih]

/-- Decoding what was sent gives the chunks, and what follows them. -/
theorem Coded.decode {cs : List Bytes} {wire : Bytes} (h : Coded cs wire) (hne : ∀ c ∈ cs, c ≠ []) (rest : Bytes) :
    Chunked.decode (wire ++ rest) = some (cs, rest) := by
  have hlong : ∀ {cs : List Bytes} {wire : Bytes}, Coded cs wire → cs.length < wire.length := by
    intro cs wire h
    induction h with
    | last => decide
    | chunk _ _ ih =>
      simp only [List.length_append, List.length_cons, show crlf.length = 2 by decide]
      omega
  apply h.cutChunks hne
  rw [List.length_append]
  exact Nat.lt_succ_of_lt (Nat.lt_add_right _ (hlong h))

/-- The encoding is one of the ways to send chunks. -/
theorem coded_encode : ∀ cs : List Bytes, Coded cs (encode cs)
  | [] => .last
  | c :: cs => by
    have h := Coded.chunk (lower_hexadecimal c.length) (coded_encode cs)
    rwa [show encode (c :: cs) = hexadecimal c.length ++ (crlf ++ (c ++ (crlf ++ encode cs))) by
      simp [encode, chunk]]

/-- Decoding what was encoded gives the chunks, and what follows them. -/
theorem decode_encode {cs : List Bytes} (h : ∀ c ∈ cs, c ≠ []) (rest : Bytes) :
    decode (encode cs ++ rest) = some (cs, rest) := (coded_encode cs).decode h rest

/-- All ways to send chunks are as long. -/
theorem Coded.length {cs : List Bytes} {wire : Bytes} (h : Coded cs wire) : wire.length = (encode cs).length := by
  induction h with
  | last => rfl
  | chunk hsize _ ih =>
    have hlen := congrArg List.length hsize
    rw [List.length_map] at hlen
    have hchunk := length_chunk
    simp only [encode, List.length_append, hlen, ih, hchunk, show crlf.length = 2 by decide]
    omega

theorem encode_append (cs ds : List Bytes) : encode (cs ++ ds) = cs.flatMap chunk ++ encode ds := by
  induction cs with
  | nil => rfl
  | cons c cs ih => rw [List.cons_append, encode, ih, List.flatMap_cons, List.append_assoc]

theorem length_encode_singleton (data : Bytes) :
    (encode [data]).length = (hexadecimal data.length).length + data.length + 9 := by
  have hc := length_chunk data
  simp only [encode, List.length_append, show lastChunk.length = 5 by decide]
  omega

/-- Each cut of the data costs the two line ends of a chunk at least. -/
theorem length_encode_flatten : ∀ (c : Bytes) (cs : List Bytes),
    (encode [(c :: cs).flatten]).length + 4 * cs.length ≤ (encode (c :: cs)).length
  | c, [] => by simp
  | c, d :: cs => by
    have ih := length_encode_flatten d cs
    have hadd := length_hexadecimal_add c.length (d :: cs).flatten.length
    have hc := length_chunk c
    rw [length_encode_singleton] at ih ⊢
    rw [encode, List.length_append, List.flatten_cons, List.length_append, List.length_cons]
    omega

end Chunked
end Statico
