/-
# Hexadecimal columns

Numerals of a fixed width, with leading zeros, and bytes as two digits each.
Both read back as they were (`parseHex_padded`, `readPairs_padded`).

Key definitions: `padded`, `readPairs`.
Key theorems: `length_padded`, `parseHex_padded`, `readPairs_padded`.
-/
import Statico.Lib.Chunked

namespace Statico
namespace Hex

open Chunked

/-! ### Leading zeros -/

/-- A number as `{:0wx}` formats it, for a width `w`. -/
def padded (w n : ℕ) : Bytes := List.replicate (w - (hexadecimal n).length) (byte '0') ++ hexadecimal n

/-- A number that fits its width has just that many digits. -/
theorem length_padded {w n : ℕ} (hw : 0 < w) (hn : n < 16 ^ w) : (padded w n).length = w := by
  have hle : (hexadecimal n).length ≤ w := (length_hexadecimal_le hw).mpr hn
  rw [padded, List.length_append, List.length_replicate]
  exact Nat.sub_add_cancel hle

theorem mem_padded {w n : ℕ} {b : UInt8} (h : b ∈ padded w n) : isHex b = true := by
  rcases List.mem_append.mp h with h | h
  · rw [List.eq_of_mem_replicate h]
    decide
  · exact mem_hexadecimal n h

/-- Leading zeros do not change a number. -/
theorem parseHex_zeros {s : Bytes} {n : ℕ} (h : parseHex s = some n) : ∀ k : ℕ,
    parseHex (List.replicate k (byte '0') ++ s) = some n
  | 0 => h
  | k + 1 => by
    have ih := parseHex_zeros h k
    rw [List.replicate_succ, List.cons_append]
    generalize List.replicate k (byte '0') ++ s = t at ih ⊢
    unfold parseHex at ih ⊢
    split_ifs at ih with ht
    rw [if_pos ⟨List.cons_ne_nil _ _, by rw [List.all_cons, ht.2]; decide⟩]
    exact ih

theorem parseHex_padded (w n : ℕ) : parseHex (padded w n) = some n :=
  parseHex_zeros (parseHex_hexadecimal n) _

/-! ### Two digits a byte -/

/-- The bytes written as two digits each. -/
def readPairs : Bytes → Option Bytes
  | [] => some []
  | [_] => none
  | a :: b :: s => do
    let n ← parseHex [a, b]
    let t ← readPairs s
    return n.toUInt8 :: t

theorem padded_byte (b : UInt8) : ∃ x y, padded 2 b.toNat = [x, y] ∧ parseHex [x, y] = some b.toNat := by
  have hlen : (padded 2 b.toNat).length = 2 := length_padded (by decide) b.toNat_lt
  obtain ⟨x, y, hxy⟩ := List.length_eq_two.mp hlen
  refine ⟨x, y, hxy, ?_⟩
  rw [← hxy]
  exact parseHex_padded 2 b.toNat

/-- Two digits a byte read back as the bytes. -/
theorem readPairs_padded (s : Bytes) : readPairs (s.flatMap fun b => padded 2 b.toNat) = some s := by
  induction s with
  | nil => rfl
  | cons b s ih =>
    obtain ⟨x, y, hxy, hread⟩ := padded_byte b
    rw [List.flatMap_cons, hxy, List.cons_append, List.cons_append, List.nil_append, readPairs, hread, ih]
    simp

end Hex
end Statico
