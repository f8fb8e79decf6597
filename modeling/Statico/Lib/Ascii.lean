/-
# ASCII text

What the text formats share: bytes without line breaks, decimal numbers, and
letters whose case does not matter.

Key definitions: `Calm`, `decimal`, `parseDecimal`, `lower`.
Key theorems: `calm_decimal`, `parseDecimal_decimal`.
-/
import Statico.Lib.Bytes

namespace Statico

/-! ### Line breaks -/

def isBreak (b : UInt8) : Bool := b = byte '\n' || b = byte '\r'

/-- No line ends in these bytes. -/
def Calm (s : Bytes) : Prop := ∀ b ∈ s, isBreak b = false

theorem calm_append {s t : Bytes} : Calm (s ++ t) ↔ Calm s ∧ Calm t := by
  simp only [Calm, List.mem_append]
  exact ⟨fun h => ⟨fun b hb => h b (Or.inl hb), fun b hb => h b (Or.inr hb)⟩,
    fun h b hb => hb.elim (h.1 b) (h.2 b)⟩

theorem calm_cons {b : UInt8} {s : Bytes} : Calm (b :: s) ↔ isBreak b = false ∧ Calm s := by
  simp [Calm]

theorem calm_of_all {s : Bytes} (h : s.all (!isBreak ·) = true) : Calm s := fun b hb => by
  have := List.all_eq_true.mp h b hb
  simpa using this

/-! ### Decimal numbers -/

/-- A natural number as `{}` formats it. -/
def decimal (n : ℕ) : Bytes := (Nat.toDigits 10 n).map byte

def isDecimal (b : UInt8) : Bool := 48 ≤ b && b ≤ 57

def parseDecimal (s : Bytes) : Option ℕ :=
  if s ≠ [] ∧ s.all isDecimal = true then some (s.foldl (fun n b => 10 * n + (b.toNat - 48)) 0) else none

theorem toNat_byte {c : Char} (h : c.isDigit = true) : (byte c).toNat = c.toNat ∧ isDecimal (byte c) = true := by
  simp only [Char.isDigit, Bool.and_eq_true, decide_eq_true_eq] at h
  obtain ⟨h1, h2⟩ := h
  have h1' : 48 ≤ c.toNat := h1
  have h2' : c.toNat ≤ 57 := h2
  have hval : (byte c).toNat = c.toNat := by
    rw [byte, Nat.toUInt8_eq, UInt8.toNat_ofNat']
    omega
  refine ⟨hval, ?_⟩
  rw [isDecimal, Bool.and_eq_true, decide_eq_true_eq, decide_eq_true_eq, UInt8.le_iff_toNat_le,
    UInt8.le_iff_toNat_le, hval]
  exact ⟨h1', h2'⟩

theorem mem_decimal {n : ℕ} {b : UInt8} (h : b ∈ decimal n) : isDecimal b = true := by
  obtain ⟨c, hc, rfl⟩ := List.mem_map.mp h
  exact (toNat_byte (Nat.isDigit_of_mem_toDigits (by decide) (by decide) hc)).2

/-- How long a number is. -/
theorem length_decimal_le {n k : ℕ} (hk : 0 < k) : (decimal n).length ≤ k ↔ n < 10 ^ k := by
  rw [decimal, List.length_map]
  exact Nat.length_toDigits_le_iff (by decide) hk

theorem calm_decimal (n : ℕ) : Calm (decimal n) := by
  have h : ∀ b : UInt8, isDecimal b = true → isBreak b = false := by decide +kernel
  exact fun b hb => h b (mem_decimal hb)

/-- A formatted number reads back as it was. -/
theorem parseDecimal_decimal (n : ℕ) : parseDecimal (decimal n) = some n := by
  have hne : decimal n ≠ [] := fun h => Nat.toDigits_ne_nil (List.map_eq_nil_iff.mp h)
  have hall : (decimal n).all isDecimal = true := List.all_eq_true.mpr fun b hb => mem_decimal hb
  have hfold : ∀ (cs : List Char) (m : ℕ), (∀ c ∈ cs, c.isDigit = true) →
      (cs.map byte).foldl (fun n b => 10 * n + (b.toNat - 48)) m = Nat.ofDigitChars 10 cs m := by
    intro cs
    induction cs with
    | nil => intro m _; rfl
    | cons c cs ih =>
      intro m h
      have hc := (toNat_byte (h c List.mem_cons_self)).1
      rw [List.map_cons, List.foldl_cons, hc, Nat.ofDigitChars_cons]
      exact ih _ fun d hd => h d (List.mem_cons_of_mem _ hd)
  have hdigits : ∀ c ∈ Nat.toDigits 10 n, c.isDigit = true := fun c hc =>
    Nat.isDigit_of_mem_toDigits (by decide) (by decide) hc
  rw [parseDecimal, if_pos ⟨hne, hall⟩, decimal, hfold _ _ hdigits, Nat.ofDigitChars_ten_toDigits]

/-! ### Case -/

def lower (b : UInt8) : UInt8 := if byte 'A' ≤ b && b ≤ byte 'Z' then b + 32 else b

theorem lower_lower (b : UInt8) : lower (lower b) = lower b := by
  have h : ∀ b : UInt8, lower (lower b) = lower b := by decide +kernel
  exact h b

end Statico
