/-
# The receive buffer of a connection

The four connection loops read into the spare memory of one vector and parse
from a position `parsed` in it. At the head of the loop the vector is emptied
when everything in it was parsed, or else its tail is moved to the front once
`parsed` exceeds 4096, and it grows when less than 4096 bytes are spare.

Whatever the loop does, `unparsed` says what it amounts to: the head of the
loop changes nothing, a read appends, a request takes off the front.

Key definitions: `RecvBuf`, `unparsed`, `compact`, `reserve`, `receive`,
`consume`.
Key theorems: `compact_unparsed`, `spare_reserve`, `receive_unparsed`.
-/
import Statico.Lib.Bytes
import Statico.Lib.RawVec

namespace Statico
namespace Conn

/-- The runtimes whose connection loop writes a pre-built response. -/
inductive Runtime where
  | tokioUring
  | monoio
  | glommio
  | compio
  deriving DecidableEq

/-- The allocator: how `Vec` gets memory, and what lies in it. A new or grown
vector has at least the room asked for. -/
structure Alloc where
  withCapacity : ℕ → Bytes
  le_withCapacity : ∀ n, n ≤ (withCapacity n).length
  /-- The spare memory after `reserve`, from the old capacity, the length and
  the additional room asked for. -/
  reserve : ℕ → ℕ → ℕ → Bytes
  le_reserve : ∀ capacity len n, n ≤ (reserve capacity len n).length

/-- New memory of `n` zeros has room for `n` bytes. -/
theorem le_zeros (n : ℕ) : n ≤ (List.replicate n (0 : UInt8)).length := List.length_replicate.ge

/-- The buffer, and the number of bytes already parsed. -/
structure RecvBuf where
  buf : RawVec UInt8
  parsed : ℕ
  parsed_le : parsed ≤ buf.len

namespace RecvBuf

/-- `Vec::with_capacity(8192)` -/
def new (alloc : Alloc) : RecvBuf := ⟨RawVec.fresh (alloc.withCapacity 8192), 0, Nat.zero_le _⟩

variable (w : RecvBuf)

/-- `buf[parsed..]` -/
def unparsed : Bytes := w.buf.contents.drop w.parsed

theorem length_unparsed : w.unparsed.length = w.buf.len - w.parsed := by
  rw [unparsed, List.length_drop, RawVec.length_contents]

@[simp] theorem new_unparsed (alloc : Alloc) : (new alloc).unparsed = [] := rfl

/-! ### The head of the loop -/

/-- Resets the buffer if all of it was parsed, or moves the rest to the front
if more than 4096 bytes before it were parsed. -/
def compact : RecvBuf :=
  if w.parsed = w.buf.len ∧ 0 < w.parsed then
    ⟨w.buf.setLen 0 (Nat.zero_le _), 0, Nat.zero_le _⟩
  else if 4096 < w.parsed then
    ⟨(w.buf.copyWithin w.parsed).setLen (w.buf.len - w.parsed)
      (le_trans (Nat.sub_le _ _) (w.buf.copyWithin w.parsed).len_le_capacity), 0, Nat.zero_le _⟩
  else w

theorem compact_unparsed : w.compact.unparsed = w.unparsed := by
  unfold compact
  split_ifs with h1 h2
  · have hlen := w.length_unparsed
    have hnil : w.unparsed = [] := List.length_eq_zero_iff.mp (by omega)
    rw [hnil]
    rfl
  · have hle : w.buf.len - w.parsed ≤ (w.buf.copyWithin w.parsed).len := by
      rw [RawVec.copyWithin_len]
      omega
    rw [unparsed, List.drop_zero, RawVec.setLen_contents _ _ hle, RawVec.copyWithin_contents, unparsed]
  · rfl

theorem compact_capacity : w.compact.buf.capacity = w.buf.capacity := by
  unfold compact
  split_ifs
  · rfl
  · exact w.buf.copyWithin_capacity w.parsed
  · rfl

/-- Reserves room for 4096 bytes unless it is there. -/
def reserve (alloc : Alloc) : RecvBuf :=
  if w.buf.capacity - w.buf.len < 4096 then
    ⟨w.buf.reserve (alloc.reserve w.buf.capacity w.buf.len 4096), w.parsed, w.parsed_le⟩
  else w

theorem reserve_unparsed (alloc : Alloc) : (w.reserve alloc).unparsed = w.unparsed := by
  unfold reserve
  split_ifs
  · rw [unparsed, RawVec.reserve_contents, unparsed]
  · rfl

/-- A read is always offered 4096 bytes. -/
theorem spare_reserve (alloc : Alloc) : 4096 ≤ (w.reserve alloc).buf.spare := by
  unfold reserve
  split_ifs with h
  · rw [RawVec.reserve_spare]
    exact alloc.le_reserve _ _ _
  · rw [RawVec.spare]
    omega

/-! ### A read -/

/-- Glommio reads into a slice: the length is set to the capacity before the
read and to the end of what was read after it. -/
def fillSlice (v : RawVec UInt8) (chunk : Bytes) (h : v.len + chunk.length ≤ v.capacity) : RawVec UInt8 :=
  ((v.setLen v.capacity le_rfl).writeAt v.len chunk h).setLen (v.len + chunk.length)
    (le_of_le_of_eq h ((v.setLen v.capacity le_rfl).writeAt_capacity h).symm)

/-- The other runtimes read into a vector over the spare memory. -/
def fill (runtime : Runtime) (v : RawVec UInt8) (chunk : Bytes)
    (h : v.len + chunk.length ≤ v.capacity) : RawVec UInt8 :=
  match runtime with
  | .glommio => fillSlice v chunk h
  | _ => v.fill chunk h

/-- Both ways of reading come to the same. -/
theorem fill_eq (runtime : Runtime) (v : RawVec UInt8) (chunk : Bytes)
    (h : v.len + chunk.length ≤ v.capacity) : fill runtime v chunk h = v.fill chunk h := by
  cases runtime <;> rfl

theorem room {v : RawVec UInt8} {chunk : Bytes} (h : chunk.length ≤ v.spare) :
    v.len + chunk.length ≤ v.capacity := by
  have hs := v.len_add_spare
  omega

/-- A read of `chunk` into the spare memory. -/
def receive (runtime : Runtime) (chunk : Bytes) (h : chunk.length ≤ w.buf.spare) : RecvBuf where
  buf := fill runtime w.buf chunk (room h)
  parsed := w.parsed
  parsed_le := by
    have hp := w.parsed_le
    rw [fill_eq, RawVec.fill_len]
    omega

theorem receive_unparsed (runtime : Runtime) (chunk : Bytes) (h : chunk.length ≤ w.buf.spare) :
    (w.receive runtime chunk h).unparsed = w.unparsed ++ chunk := by
  have hp : w.parsed ≤ w.buf.contents.length := by
    rw [RawVec.length_contents]
    exact w.parsed_le
  show (fill runtime w.buf chunk (room h)).contents.drop w.parsed = _
  rw [fill_eq, RawVec.fill_contents, List.drop_append_of_le_length hp, unparsed]

theorem receive_capacity (runtime : Runtime) (chunk : Bytes) (h : chunk.length ≤ w.buf.spare) :
    (w.receive runtime chunk h).buf.capacity = w.buf.capacity := by
  show (fill runtime w.buf chunk (room h)).capacity = _
  rw [fill_eq, RawVec.fill_capacity]

/-! ### A request -/

/-- `parsed += n` -/
def consume (n : ℕ) (h : n ≤ w.unparsed.length) : RecvBuf where
  buf := w.buf
  parsed := w.parsed + n
  parsed_le := by
    have hp := w.parsed_le
    rw [length_unparsed] at h
    omega

theorem consume_unparsed (n : ℕ) (h : n ≤ w.unparsed.length) :
    (w.consume n h).unparsed = w.unparsed.drop n := by
  unfold unparsed consume
  rw [List.drop_drop]

end RecvBuf

end Conn
end Statico
