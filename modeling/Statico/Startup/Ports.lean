/-
# Ports and workers

How `main` spreads the ports over the worker threads. `balance_ports` repeats
the list of ports as often as it fits into the number of threads, and
`chunks_balanced` cuts that list into one slice for each thread. The running
offset of its loop is where the even cut starts (`chunksBalanced_loop`), so
the workers' lists are an even partition of the repeated list
(`balancePorts_partition`). The repetition rounds down: with more threads
than ports some workers get nothing unless the ports divide the threads
(`workers_have_ports_iff`).

`none` stands for a panic: a division by zero, or an index out of range.

Key definitions: `Options`, `chunksBalanced`, `balancePorts`, `addresses`.
Key theorems: `balancePorts_eq`, `balancePorts_partition`,
`workers_have_ports_iff`.
-/
import Statico.Lib.Pieces

namespace Statico
namespace Startup

/-! ### Cutting a slice -/

section Chunks

variable {α : Type}

/-- `&slice[a..b]` -/
def subslice (slice : List α) (a b : ℕ) : Option (List α) :=
  if a ≤ b ∧ b ≤ slice.length then some ((slice.drop a).take (b - a)) else none

/-- One turn of the loop of `chunks_balanced`: the chunks so far and the offset. -/
def chunkStep (slice : List α) (baseSize remainder : ℕ) (s : List (List α) × ℕ) (i : ℕ) :
    Option (List (List α) × ℕ) := do
  let (result, offset) := s
  -- one more within the remainder
  let size := baseSize + if i < remainder then 1 else 0
  let chunk ← subslice slice offset (offset + size)
  return (result ++ [chunk], offset + size)

def chunksBalanced (slice : List α) (chunks : ℕ) : Option (List (List α)) :=
  if chunks = 0 then none
  else do
    let baseSize := slice.length / chunks
    let remainder := slice.length % chunks
    let (result, _) ← (List.range chunks).foldlM (chunkStep slice baseSize remainder) ([], 0)
    return result

/-- After `k` turns the loop has cut off the first `k` pieces of the even cut. -/
theorem chunksBalanced_loop (slice : List α) {chunks : ℕ} (hc : 1 ≤ chunks) : ∀ k ≤ chunks,
    (List.range k).foldlM (chunkStep slice (slice.length / chunks) (slice.length % chunks)) ([], 0) =
      some (pieces (evenCut slice.length chunks) slice k, evenCut slice.length chunks k)
  | 0, _ => by
    rw [evenCut_zero]
    rfl
  | k + 1, hk => by
    have ih := chunksBalanced_loop slice hc k (by omega)
    have hsucc := evenCut_succ slice.length chunks k
    have hbound : evenCut slice.length chunks (k + 1) ≤ slice.length := evenCut_le hc hk
    have hslice : subslice slice (evenCut slice.length chunks k) (evenCut slice.length chunks (k + 1)) =
        some (piece (evenCut slice.length chunks) slice k) :=
      if_pos ⟨evenCut_mono _ _ (Nat.le_succ k), hbound⟩
    rw [List.range_succ, List.foldlM_append, ih]
    simp only [Option.bind_eq_bind, Option.bind_some, List.foldlM_cons, List.foldlM_nil, chunkStep]
    rw [show slice.length / chunks + (if k < slice.length % chunks then 1 else 0) =
      evenSize slice.length chunks k from rfl, ← hsucc, hslice, pieces_succ]
    rfl

/-- Every slice taken is in range, and the chunks are the pieces of the even cut. -/
theorem chunksBalanced_eq (slice : List α) {chunks : ℕ} (hc : 1 ≤ chunks) :
    chunksBalanced slice chunks = some (pieces (evenCut slice.length chunks) slice chunks) := by
  rw [chunksBalanced, if_neg (by omega)]
  simp only [chunksBalanced_loop slice hc chunks le_rfl]
  rfl

end Chunks

/-! ### Balancing -/

/-- The list of ports as often as it fits into the threads, but once at least. -/
def expandPorts (ports : List UInt16) (numThreads : ℕ) : List UInt16 :=
  let mul := numThreads / ports.length
  if 1 < mul then (List.replicate (numThreads / ports.length) ports).flatten else ports

def balancePorts (ports : List UInt16) (numThreads : ℕ) (bindAll : Bool) : Option (List (List UInt16)) :=
  if bindAll then some (List.replicate numThreads ports)
  else if ports.length = 0 then none
  else chunksBalanced (expandPorts ports numThreads) numThreads

section Balance

variable {ports : List UInt16} {n : ℕ}

theorem expandPorts_eq (ports : List UInt16) (n : ℕ) :
    expandPorts ports n = (List.replicate (max 1 (n / ports.length)) ports).flatten := by
  unfold expandPorts
  simp only
  split_ifs with h
  · rw [Nat.max_eq_right h.le]
  · rw [Nat.max_eq_left (by omega)]
    simp

theorem length_expandPorts (ports : List UInt16) (n : ℕ) :
    (expandPorts ports n).length = max 1 (n / ports.length) * ports.length := by
  simp [expandPorts_eq]

/-- Repeated to the full the list is no longer than there are threads. -/
theorem expandPorts_cases (ports : List UInt16) (n : ℕ) :
    expandPorts ports n = ports ∨ (expandPorts ports n).length ≤ n := by
  by_cases h : 1 < n / ports.length
  · right
    rw [length_expandPorts, Nat.max_eq_right h.le]
    exact Nat.div_mul_le_self n ports.length
  · left
    simp [expandPorts, h]

theorem balancePorts_eq (hne : ports ≠ []) (hn : 1 ≤ n) : balancePorts ports n false =
    some (pieces (evenCut (expandPorts ports n).length n) (expandPorts ports n) n) := by
  have hlen : ports.length ≠ 0 := fun h => hne (List.length_eq_zero_iff.mp h)
  simp only [balancePorts, Bool.false_eq_true, if_false, if_neg hlen]
  exact chunksBalanced_eq _ hn

/-- A worker's list does not repeat a port unless the list of ports does. -/
theorem nodup_piece (hd : ports.Nodup) (hn : 1 ≤ n) {i : ℕ} (hi : i < n) :
    (piece (evenCut (expandPorts ports n).length n) (expandPorts ports n) i).Nodup := by
  rcases expandPorts_cases ports n with h | h
  · rw [h]
    exact hd.sublist (piece_sublist i)
  · -- one port at most, where the list was repeated
    have hlen := length_evenPiece (expandPorts ports n) hn hi
    have hone := evenSize_le_one h i
    rw [← hlen] at hone
    exact List.nodup_iff_count_le_one.mpr fun p => le_trans List.count_le_length hone

/-- There are ports for all workers unless their number is rounded down. -/
theorem le_length_expandPorts (hne : ports ≠ []) :
    n ≤ (expandPorts ports n).length ↔ n ≤ ports.length ∨ ports.length ∣ n := by
  have hpos : 0 < ports.length := List.length_pos_iff.mpr hne
  have hdiv := Nat.div_add_mod n ports.length
  rw [length_expandPorts]
  rcases Nat.lt_or_ge ports.length n with hlt | hge
  · have hone : 1 ≤ n / ports.length := Nat.div_pos hlt.le hpos
    rw [Nat.max_eq_right hone, Nat.dvd_iff_mod_eq_zero, Nat.mul_comm]
    constructor
    · intro h
      right
      omega
    · rintro (h | h)
      · omega
      · omega
  · refine iff_of_true ?_ (Or.inl hge)
    exact le_trans hge (Nat.le_mul_of_pos_left _ (by omega))

end Balance

/-! ### Addresses -/

inductive IpAddr where
  | v4 (address : UInt32)
  | v6 (address : BitVec 128)
  deriving DecidableEq

inductive SocketAddr where
  | v4 (ip : UInt32) (port : UInt16)
  | v6 (ip : BitVec 128) (port : UInt16) (flowinfo scopeId : UInt32)
  deriving DecidableEq

def SocketAddr.port : SocketAddr → UInt16
  | .v4 _ port => port
  | .v6 _ port _ _ => port

/-- The address of a port: on the given interface, or on all. -/
def socketAddr (address : Option IpAddr) (port : UInt16) : SocketAddr :=
  match address with
  | some (.v4 a) => .v4 a port
  | some (.v6 a) => .v6 a port 0 0
  | none => .v4 0 port

@[simp] theorem socketAddr_port (address : Option IpAddr) (port : UInt16) :
    (socketAddr address port).port = port := by
  rcases address with _ | a
  · rfl
  · cases a <;> rfl

/-- `addrs`: the addresses each worker listens on. -/
def addresses (address : Option IpAddr) (chunks : List (List UInt16)) : List (List SocketAddr) :=
  chunks.map fun slice => slice.map (socketAddr address)

/-! ### The partition -/

/-- Without `bind_all` the workers' lists are an even partition of the ports,
repeated as often as they fit into the threads. -/
theorem balancePorts_partition (ports : List UInt16) (n : ℕ) (hne : ports ≠ []) (hn : 1 ≤ n) :
    ∃ lists, balancePorts ports n false = some lists ∧ lists.length = n ∧
      (∀ address, ∀ id < n, ∃ addrs, (addresses address lists)[id]? = some addrs) ∧
      lists.flatten = (List.replicate (max 1 (n / ports.length)) ports).flatten ∧
      (∀ port, lists.flatten.count port = max 1 (n / ports.length) * ports.count port) ∧
      (lists.map List.length).Pairwise (· ≥ ·) ∧
      (∀ l ∈ lists, ∀ l' ∈ lists, l.length ≤ l'.length + 1) ∧
      (ports.Nodup → ∀ l ∈ lists, l.Nodup) := by
  have hflat : (pieces (evenCut (expandPorts ports n).length n) (expandPorts ports n) n).flatten =
      (List.replicate (max 1 (n / ports.length)) ports).flatten := by
    rw [flatten_evenPieces _ hn, expandPorts_eq]
  refine ⟨_, balancePorts_eq hne hn, length_pieces _ _ _, ?_, hflat, ?_, ?_, ?_, ?_⟩
  · intro address id hid
    refine ⟨_, List.getElem?_eq_getElem (i := id) ?_⟩
    simpa [addresses, length_pieces] using hid
  · intro port
    rw [hflat, List.count_flatten]
    simp
  · exact evenPieces_sorted _ hn
  · exact evenPieces_le _ hn
  · intro hd l hl
    obtain ⟨i, hi, rfl⟩ := mem_pieces hl
    exact nodup_piece hd hn hi

/-- Three workers for two ports. -/
theorem balancePorts_partition_three : ∃ lists, balancePorts [80, 81] 3 false = some lists ∧
    lists.length = 3 ∧ lists.flatten = [80, 81] ∧ (lists.map List.length).Pairwise (· ≥ ·) := by
  obtain ⟨lists, h, hlen, -, hflat, -, hsort, -, -⟩ :=
    balancePorts_partition [80, 81] 3 (List.cons_ne_nil _ _) (by decide)
  exact ⟨lists, h, hlen, hflat, hsort⟩

/-- Every worker gets a port exactly if all bind to all ports, or there are no
more threads than ports, or a multiple of them. -/
theorem workers_have_ports_iff (ports : List UInt16) (n : ℕ) (bindAll : Bool) (hne : ports ≠ [])
    (hn : 1 ≤ n) : (∃ lists, balancePorts ports n bindAll = some lists ∧ ∀ l ∈ lists, l ≠ []) ↔
      bindAll = true ∨ n ≤ ports.length ∨ ports.length ∣ n := by
  cases bindAll with
  | true =>
    refine iff_of_true ⟨List.replicate n ports, rfl, fun l hl => ?_⟩ (Or.inl rfl)
    rw [List.eq_of_mem_replicate hl]
    exact hne
  | false =>
    rw [balancePorts_eq hne hn]
    simp only [Option.some.injEq, exists_eq_left', Bool.false_eq_true, false_or]
    rw [evenPieces_ne_nil_iff _ hn, le_length_expandPorts hne]

/-- Four workers for two ports. -/
theorem workers_have_ports_four : ∃ lists, balancePorts [80, 81] 4 false = some lists ∧
    ∀ l ∈ lists, l ≠ [] :=
  (workers_have_ports_iff [80, 81] 4 false (List.cons_ne_nil _ _) (by decide)).mpr
    (Or.inr (Or.inr (by decide)))

/-- Of three workers for two ports one gets nothing. -/
theorem workers_have_ports_three : ¬ ∃ lists, balancePorts [80, 81] 3 false = some lists ∧
    ∀ l ∈ lists, l ≠ [] := by
  rintro ⟨lists, h, hne⟩
  have hlists : balancePorts [80, 81] 3 false = some [[80], [81], []] := by decide +kernel
  rw [hlists] at h
  cases h
  exact hne [] (by simp) rfl

end Startup
end Statico
