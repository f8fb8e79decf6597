/-
# A growable buffer over raw memory

A vector owns an allocation and a length. What lies past the length is memory
that may hold anything: leftovers of earlier contents, or nothing ever
written. The operations are the ones a reader of a socket uses to manage its
buffer by hand: shortening the length, moving the tail to the front, growing
the allocation, and filling the memory past the length from outside. For each of them
`contents` says what it does to the part in use.

Key definitions: `RawVec`, `contents`, `copyWithin`, `reserve`, `fill`.
Key theorems: `copyWithin_contents`, `reserve_contents`, `fill_contents`.
-/
import Mathlib

namespace Statico

/-- An allocation, and how many of its cells are in use. -/
structure RawVec (α : Type) where
  mem : List α
  len : ℕ
  len_le : len ≤ mem.length

namespace RawVec

variable {α : Type} (v : RawVec α)

def capacity : ℕ := v.mem.length

/-- The memory past the part in use. -/
def spare : ℕ := v.capacity - v.len

/-- The part in use. -/
def contents : List α := v.mem.take v.len

theorem length_contents : v.contents.length = v.len := by
  rw [contents, List.length_take, Nat.min_eq_left v.len_le]

theorem len_le_capacity : v.len ≤ v.capacity := v.len_le

theorem len_add_spare : v.len + v.spare = v.capacity := by
  have h := v.len_le_capacity
  rw [spare]
  omega

/-- An empty vector over new memory. -/
def fresh (mem : List α) : RawVec α := ⟨mem, 0, Nat.zero_le _⟩

@[simp] theorem fresh_contents (mem : List α) : (fresh mem).contents = [] := rfl
@[simp] theorem fresh_len (mem : List α) : (fresh mem).len = 0 := rfl

/-! ### The length -/

/-- `set_len` -/
def setLen (n : ℕ) (h : n ≤ v.capacity) : RawVec α := ⟨v.mem, n, h⟩

@[simp] theorem setLen_len {n : ℕ} (h : n ≤ v.capacity) : (v.setLen n h).len = n := rfl

@[simp] theorem setLen_capacity {n : ℕ} (h : n ≤ v.capacity) :
    (v.setLen n h).capacity = v.capacity := rfl

theorem setLen_contents {n : ℕ} (h : n ≤ v.capacity) (hn : n ≤ v.len) : (v.setLen n h).contents = v.contents.take n := by
  unfold contents setLen
  rw [List.take_take, Nat.min_eq_left hn]

/-! ### Moving the tail to the front -/

/-- `copy_within(k.., 0)` -/
def copyWithin (k : ℕ) : RawVec α where
  mem := v.contents.drop k ++ v.mem.drop (v.len - k)
  len := v.len
  len_le := by
    have hl := v.len_le
    rw [List.length_append, List.length_drop, List.length_drop, length_contents]
    omega

@[simp] theorem copyWithin_len (k : ℕ) : (v.copyWithin k).len = v.len := rfl

theorem copyWithin_capacity (k : ℕ) : (v.copyWithin k).capacity = v.capacity := by
  have hl := v.len_le
  unfold capacity copyWithin
  simp only [List.length_append, List.length_drop, length_contents]
  omega

/-- After the move the first `len - k` elements are those from `k` on. -/
theorem copyWithin_contents (k : ℕ) :
    (v.copyWithin k).contents.take (v.len - k) = v.contents.drop k := by
  have hk : (v.contents.drop k).length = v.len - k := by rw [List.length_drop, length_contents]
  have hle : v.len - k ≤ (v.copyWithin k).len := by rw [copyWithin_len]; omega
  calc (v.copyWithin k).contents.take (v.len - k)
      = (v.copyWithin k).mem.take (v.len - k) := by
        rw [contents, List.take_take, Nat.min_eq_left hle]
    _ = v.contents.drop k := List.take_left' hk

/-! ### Growing -/

/-- `reserve`, where the memory past the part in use becomes `spare`. -/
def reserve (spare : List α) : RawVec α where
  mem := v.contents ++ spare
  len := v.len
  len_le := by
    rw [List.length_append, length_contents]
    omega

@[simp] theorem reserve_len (spare : List α) : (v.reserve spare).len = v.len := rfl

theorem reserve_capacity (spare : List α) : (v.reserve spare).capacity = v.len + spare.length := by
  unfold capacity reserve
  rw [List.length_append, length_contents]

theorem reserve_spare (spare : List α) : (v.reserve spare).spare = spare.length := by
  have hc := v.reserve_capacity spare
  have hs := (v.reserve spare).len_add_spare
  rw [reserve_len] at hs
  omega

@[simp] theorem reserve_contents (spare : List α) : (v.reserve spare).contents = v.contents :=
  List.take_left' v.length_contents

/-! ### Writing from outside -/

/-- The memory from `i` on is overwritten; the length stays. -/
def writeAt (i : ℕ) (s : List α) (h : i + s.length ≤ v.capacity) : RawVec α where
  mem := v.mem.take i ++ (s ++ v.mem.drop (i + s.length))
  len := v.len
  len_le := by
    have hl := v.len_le
    unfold capacity at h
    rw [List.length_append, List.length_append, List.length_take, List.length_drop]
    omega

section Write

variable {i : ℕ} {s : List α} (h : i + s.length ≤ v.capacity)

@[simp] theorem writeAt_len : (v.writeAt i s h).len = v.len := rfl

theorem writeAt_capacity : (v.writeAt i s h).capacity = v.capacity := by
  unfold capacity writeAt at *
  rw [List.length_append, List.length_append, List.length_take, List.length_drop]
  omega

end Write

/-- The spare memory is filled from its start on, and the length set past it. -/
def fill (s : List α) (h : v.len + s.length ≤ v.capacity) : RawVec α :=
  (v.writeAt v.len s h).setLen (v.len + s.length) (by rw [writeAt_capacity]; exact h)

section Fill

variable {s : List α} (h : v.len + s.length ≤ v.capacity)

@[simp] theorem fill_len : (v.fill s h).len = v.len + s.length := rfl

theorem fill_capacity : (v.fill s h).capacity = v.capacity := v.writeAt_capacity h

theorem fill_contents : (v.fill s h).contents = v.contents ++ s := by
  have hlen : (v.mem.take v.len ++ s).length = v.len + s.length := by
    rw [List.length_append, List.length_take, Nat.min_eq_left v.len_le]
  calc (v.fill s h).contents
      = ((v.mem.take v.len ++ s) ++ v.mem.drop (v.len + s.length)).take (v.len + s.length) := by
        rw [List.append_assoc]; rfl
    _ = v.mem.take v.len ++ s := List.take_left' hlen

end Fill

end RawVec

end Statico
