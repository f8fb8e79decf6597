/-
# A list cut into pieces

Positions `cut 0 ≤ cut 1 ≤ …` cut a list into consecutive pieces. Joined, the
pieces are the list again up to the last position (`flatten_pieces`). The even
cut of `n` positions into `k` pieces gives every piece the quotient and the
first ones one more; its sizes fall, and differ by one at most. The cut at
every `n`-th position gives pieces of `n` and a shorter last one.

Key definitions: `piece`, `pieces`, `evenSize`, `evenCut`, `chunks`.
Key theorems: `flatten_pieces`, `flatten_evenPieces`, `evenPieces_sorted`,
`evenPieces_ne_nil_iff`, `flatten_chunks`.
-/
import Mathlib

namespace Statico

section Pieces

variable {α : Type} (cut : ℕ → ℕ) (l : List α)

/-- What stands between the positions `cut i` and `cut (i + 1)`. -/
def piece (i : ℕ) : List α := (l.drop (cut i)).take (cut (i + 1) - cut i)

/-- The first `k` pieces. -/
def pieces (k : ℕ) : List (List α) := (List.range k).map (piece cut l)

theorem pieces_succ (k : ℕ) : pieces cut l (k + 1) = pieces cut l k ++ [piece cut l k] := by
  simp [pieces, List.range_succ]

theorem length_pieces (k : ℕ) : (pieces cut l k).length = k := by simp [pieces]

variable {cut} {l}

theorem mem_pieces {k : ℕ} {s : List α} (h : s ∈ pieces cut l k) : ∃ i < k, piece cut l i = s := by
  simpa [pieces] using h

theorem length_piece {i : ℕ} (h : cut (i + 1) ≤ l.length) :
    (piece cut l i).length = cut (i + 1) - cut i := by
  simp only [piece, List.length_take, List.length_drop]
  omega

theorem piece_sublist (i : ℕ) : (piece cut l i).Sublist l :=
  (List.take_sublist _ _).trans (List.drop_sublist _ _)

/-- The pieces joined are the list up to where they end. -/
theorem flatten_pieces (hm : Monotone cut) (h0 : cut 0 = 0) (k : ℕ) :
    (pieces cut l k).flatten = l.take (cut k) := by
  induction k with
  | zero => simp [pieces, h0]
  | succ k ih =>
    have hle : cut k ≤ cut (k + 1) := hm (Nat.le_succ k)
    calc (pieces cut l (k + 1)).flatten
        = l.take (cut k) ++ piece cut l k := by
          rw [pieces_succ, List.flatten_append, ih, List.flatten_singleton]
      _ = l.take (cut k + (cut (k + 1) - cut k)) := by rw [List.take_add, piece]
      _ = l.take (cut (k + 1)) := by rw [Nat.add_sub_cancel' hle]

end Pieces

/-! ### The even cut -/

/-- The size of the `i`-th of `k` even pieces of `n`. -/
def evenSize (n k i : ℕ) : ℕ := n / k + if i < n % k then 1 else 0

/-- Where it starts. -/
def evenCut (n k i : ℕ) : ℕ := i * (n / k) + min i (n % k)

theorem evenCut_zero (n k : ℕ) : evenCut n k 0 = 0 := by simp [evenCut]

theorem evenCut_succ (n k i : ℕ) : evenCut n k (i + 1) = evenCut n k i + evenSize n k i := by
  unfold evenCut evenSize
  rw [Nat.succ_mul]
  split_ifs with h
  · omega
  · omega

theorem evenCut_mono (n k : ℕ) : Monotone (evenCut n k) := by
  apply monotone_nat_of_le_succ
  intro i
  rw [evenCut_succ]
  exact Nat.le_add_right _ _

/-- The sizes add up to `n`. -/
theorem evenCut_end {k : ℕ} (hk : 1 ≤ k) (n : ℕ) : evenCut n k k = n := by
  have hmod : n % k < k := Nat.mod_lt n hk
  have hdiv : k * (n / k) + n % k = n := Nat.div_add_mod n k
  rw [evenCut, Nat.min_eq_right hmod.le, hdiv]

theorem evenCut_le {n k i : ℕ} (hk : 1 ≤ k) (hi : i ≤ k) : evenCut n k i ≤ n :=
  le_of_le_of_eq (evenCut_mono n k hi) (evenCut_end hk n)

theorem evenSize_antitone (n k : ℕ) : Antitone (evenSize n k) := by
  intro i j hij
  unfold evenSize
  split_ifs with h1 h2
  · exact le_rfl
  · omega
  · omega
  · exact le_rfl

theorem evenSize_le (n k i j : ℕ) : evenSize n k i ≤ evenSize n k j + 1 := by
  unfold evenSize
  split_ifs <;> omega

/-- The last piece, and so every piece, gets something exactly if there is
enough for all. -/
theorem evenSize_pos_iff {k : ℕ} (hk : 1 ≤ k) (n : ℕ) :
    (∀ i < k, 0 < evenSize n k i) ↔ k ≤ n := by
  constructor
  · intro h
    by_contra hn
    have hlast := h (k - 1) (by omega)
    rw [evenSize, Nat.div_eq_of_lt (by omega), Nat.mod_eq_of_lt (by omega), if_neg (by omega)] at hlast
    omega
  · intro h i _
    have hdiv : 0 < n / k := Nat.div_pos h hk
    exact Nat.lt_of_lt_of_le hdiv (Nat.le_add_right _ _)

/-- Where there is no more than one for each, no piece has two. -/
theorem evenSize_le_one {n k : ℕ} (h : n ≤ k) (i : ℕ) : evenSize n k i ≤ 1 := by
  rcases Nat.eq_or_lt_of_le h with rfl | hlt
  · rcases Nat.eq_zero_or_pos n with rfl | hpos
    · simp [evenSize]
    · simp [evenSize, Nat.div_self hpos]
  · rw [evenSize, Nat.div_eq_of_lt hlt, Nat.zero_add]
    split_ifs
    · exact le_rfl
    · exact Nat.zero_le 1

section Even

variable {α : Type} (l : List α) {k : ℕ}

theorem length_evenPiece (hk : 1 ≤ k) {i : ℕ} (hi : i < k) :
    (piece (evenCut l.length k) l i).length = evenSize l.length k i := by
  rw [length_piece (evenCut_le hk hi), evenCut_succ, Nat.add_sub_cancel_left]

/-- Even pieces lose nothing. -/
theorem flatten_evenPieces (hk : 1 ≤ k) : (pieces (evenCut l.length k) l k).flatten = l := by
  rw [flatten_pieces (evenCut_mono _ _) (evenCut_zero _ _), evenCut_end hk, List.take_length]

/-- The sizes fall from one piece to the next. -/
theorem evenPieces_sorted (hk : 1 ≤ k) :
    ((pieces (evenCut l.length k) l k).map List.length).Pairwise (· ≥ ·) := by
  rw [pieces, List.map_map, List.pairwise_map]
  refine List.Pairwise.imp_of_mem ?_ List.pairwise_lt_range
  intro i j hi hj hij
  rw [List.mem_range] at hi hj
  show (piece _ _ j).length ≤ (piece _ _ i).length
  rw [length_evenPiece l hk hi, length_evenPiece l hk hj]
  exact evenSize_antitone _ _ hij.le

theorem evenPieces_le (hk : 1 ≤ k) : ∀ p ∈ pieces (evenCut l.length k) l k,
    ∀ q ∈ pieces (evenCut l.length k) l k, p.length ≤ q.length + 1 := by
  intro p hp q hq
  obtain ⟨i, hi, rfl⟩ := mem_pieces hp
  obtain ⟨j, hj, rfl⟩ := mem_pieces hq
  rw [length_evenPiece l hk hi, length_evenPiece l hk hj]
  exact evenSize_le _ _ _ _

theorem evenPieces_ne_nil_iff (hk : 1 ≤ k) :
    (∀ p ∈ pieces (evenCut l.length k) l k, p ≠ []) ↔ k ≤ l.length := by
  rw [← evenSize_pos_iff hk]
  simp only [pieces, List.forall_mem_map, List.mem_range]
  apply forall₂_congr
  intro i hi
  rw [← length_evenPiece l hk hi, List.length_pos_iff]

end Even

/-! ### The cut at every `n`-th position -/

section Chunks

variable {α : Type} (n : ℕ) (l : List α)

/-- Pieces of `n`, the last one shorter if `n` does not divide the length. -/
def chunks : List (List α) := pieces (· * n) l ((l.length + (n - 1)) / n)

theorem length_chunks : (chunks n l).length = (l.length + (n - 1)) / n := length_pieces _ _ _

variable {n}

theorem flatten_chunks (hn : 0 < n) : (chunks n l).flatten = l := by
  have hmono : Monotone (· * n) := fun i j hij => Nat.mul_le_mul_right n hij
  have hend : l.length ≤ (l.length + (n - 1)) / n * n := by
    have hmod := Nat.mod_lt (l.length + (n - 1)) hn
    have hdiv := Nat.div_add_mod (l.length + (n - 1)) n
    rw [Nat.mul_comm] at hdiv
    omega
  rw [chunks, flatten_pieces hmono (Nat.zero_mul n)]
  exact List.take_of_length_le hend

/-- The `k`-th chunk is what stands from position `k * n` on. -/
theorem getElem?_chunks (hn : 0 < n) {k : ℕ} {s : List α} (h : (chunks n l)[k]? = some s) :
    k * n < l.length ∧ s = (l.drop (k * n)).take n := by
  have hk : k < (l.length + (n - 1)) / n := by
    rw [← length_chunks]
    exact (List.getElem?_eq_some_iff.mp h).1
  refine ⟨?_, ?_⟩
  · have hle : (k + 1) * n ≤ l.length + (n - 1) := (Nat.le_div_iff_mul_le hn).mp hk
    rw [Nat.succ_mul] at hle
    omega
  · rw [chunks, pieces, List.getElem?_map, List.getElem?_range hk] at h
    rw [← Option.some.inj h, piece, Nat.succ_mul, Nat.add_sub_cancel_left]

end Chunks

end Statico
