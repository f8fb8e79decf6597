/-
# How far the buffer grows

Nothing in the loop bounds the buffer but decoding. On a stream of requests of
at most `M` bytes the loop never waits with `M` bytes unparsed, compaction
leaves at most 4096 parsed bytes in front of them, and so the capacity, which
only `reserve` changes, is at most doubled once more (`buffer_bounded`). On
input that no more input repairs the loop takes the rejection for a request
that is still incomplete: it issues another read and never ends the connection
by itself (`rejected_ended_iff`), and the buffer outgrows any bound
(`rejected_grows`).

Key definitions: `Amortized`, `Ended`.
Key theorems: `buffer_bounded`, `rejected_ended_iff`, `rejected_grows`.
-/
import Statico.Conn.Response

namespace Statico
namespace Conn

/-! ### Valid traffic -/

/-- The allocator of `Vec`: exactly the capacity asked for at first, and then
double the capacity, or the room asked for if that is more. -/
structure Amortized (alloc : Alloc) : Prop where
  new : (alloc.withCapacity 8192).length = 8192
  grow : ∀ capacity len, len ≤ capacity → capacity - len < 4096 →
    len + (alloc.reserve capacity len 4096).length = max (2 * capacity) (len + 4096)

namespace RecvBuf

variable (w : RecvBuf)

/-- Compaction leaves 4096 parsed bytes at most. -/
theorem compact_len : w.compact.buf.len ≤ w.unparsed.length + 4096 := by
  have hu := w.length_unparsed
  have hp := w.parsed_le
  unfold compact
  split_ifs with h1 h2
  · exact Nat.zero_le _
  · rw [RawVec.setLen_len, hu]
    omega
  · rw [hu]
    omega

/-- Growing at most doubles a capacity that is short of 4096 bytes. -/
theorem reserve_capacity {alloc : Alloc} (h : Amortized alloc) :
    (w.reserve alloc).buf.capacity ≤ max w.buf.capacity (2 * (w.buf.len + 4096)) := by
  unfold reserve
  split_ifs with hs
  · rw [RawVec.reserve_capacity, h.grow _ _ w.buf.len_le_capacity hs]
    omega
  · exact le_max_left _ _

end RecvBuf

section Valid

variable {ε R : Type} {env : Env ε R}

/-- A step only adds to what was received. -/
theorem Step.received_prefix {s t : State R} (h : Step env s t) :
    s.received.flatten <+: t.received.flatten := by
  cases h with
  | @read chunk _ _ _ =>
    show s.received.flatten <+: (s.received ++ [chunk]).flatten
    rw [List.flatten_append]
    exact List.prefix_append _ _
  | _ => exact List.prefix_refl _

/-- What is unparsed at the head of the loop is less than a request. -/
theorem unparsed_le {M : ℕ} {requests : List Bytes}
    (hr : ∀ r ∈ requests, env.decoder.Complete r ∧ r.length ≤ M) {s : State R} (hs : Reachable env s)
    (hp : s.phase = .head) (hin : s.received.flatten <+: requests.flatten) :
    s.recv.unparsed.length ≤ M := by
  have hw := (reachable_streams hs).waiting (Or.inl hp)
  have hcut := Decoder.greedy_cut (fun r h => (hr r h).1) hin
  rw [hw] at hcut
  rcases hcut with hnil | ⟨r, hmem, hlt⟩
  · rw [show s.recv.unparsed = [] from hnil, List.length_nil]
    exact Nat.zero_le M
  · exact le_trans hlt.le (hr r hmem).2

/-- On a stream of requests of at most `M` bytes, cut into reads anyhow, the
capacity stays within twice `M + 8192`. -/
theorem capacity_bounded (ha : Amortized env.alloc) {M : ℕ} {requests : List Bytes}
    (hr : ∀ r ∈ requests, env.decoder.Complete r ∧ r.length ≤ M) {s : State R} (hs : Reachable env s)
    (hin : s.received.flatten <+: requests.flatten) : s.recv.buf.capacity ≤ 2 * (M + 8192) := by
  induction hs with
  | refl =>
    have hnew : (RecvBuf.new env.alloc).buf.capacity = 8192 := ha.new
    show (RecvBuf.new env.alloc).buf.capacity ≤ _
    omega
  | @tail s t hs hst ih =>
    have hcap := ih (hst.received_prefix.trans hin)
    cases hst with
    | prepare hp =>
      have hun := unparsed_le hr hs hp hin
      have hlen := s.recv.compact_len
      have hres := s.recv.compact.reserve_capacity ha
      have hcomp := s.recv.compact_capacity
      show (s.recv.compact.reserve env.alloc).buf.capacity ≤ _
      omega
    | read hc _ _ =>
      show (s.recv.receive env.runtime _ hc).buf.capacity ≤ _
      rw [RecvBuf.receive_capacity]
      exact hcap
    | _ => exact hcap

/-- The buffer of a connection is well-formed and bounded on valid traffic,
however long the connection lives. -/
theorem buffer_bounded (env : Env ε R) (ha : Amortized env.alloc) (M : ℕ) (requests : List Bytes)
    (hr : ∀ r ∈ requests, env.decoder.Complete r ∧ r.length ≤ M) (s : State R) (hs : Reachable env s)
    (hin : s.received.flatten <+: requests.flatten) :
    s.recv.parsed ≤ s.recv.buf.len ∧ s.recv.buf.len ≤ s.recv.buf.capacity ∧
      s.recv.buf.capacity ≤ 2 * (M + 8192) :=
  ⟨s.recv.parsed_le, s.recv.buf.len_le_capacity, capacity_bounded ha hr hs hin⟩

end Valid

/-- The allocator of `Vec`, with zeros in new memory. -/
def doubling : Alloc where
  withCapacity n := List.replicate n 0
  le_withCapacity := le_zeros
  reserve capacity len n := List.replicate (max (2 * capacity) (len + n) - len) 0
  le_reserve capacity len n := by
    rw [List.length_replicate]
    omega

theorem doubling_amortized : Amortized doubling where
  new := List.length_replicate
  grow capacity len _ _ := by
    show len + (List.replicate (max (2 * capacity) (len + 4096) - len) 0).length = _
    rw [List.length_replicate]
    omega

/-- The request of `oneRequest`. -/
def requestText (m : Bytes) : Bytes := m ++ ascii " / HTTP/1.1\r\n\r\n"

theorem oneRequest_ok {m b : Bytes} (h : requestText m <+: b) :
    (oneRequest m).decode b = .ok (m, (requestText m).length) := if_pos h

theorem oneRequest_error {m b : Bytes} (h : ¬ requestText m <+: b) :
    (oneRequest m).decode b = .error () := if_neg h

theorem requestText_complete (m : Bytes) : (oneRequest m).Complete (requestText m) :=
  ⟨m, oneRequest_ok (List.prefix_refl _)⟩

/-- After one request of 18 bytes. -/
theorem buffer_bounded_get :
    ∃ s, Reachable { sampleEnv (ascii "GET") sampleResponse with alloc := doubling } s ∧
      s.received = [requestText (ascii "GET")] ∧ s.recv.parsed ≤ s.recv.buf.len ∧
      s.recv.buf.len ≤ s.recv.buf.capacity ∧ s.recv.buf.capacity ≤ 2 * (18 + 8192) := by
  obtain ⟨s, hs, -, hr⟩ := first_head { sampleEnv (ascii "GET") sampleResponse with alloc := doubling }
    (show requestText (ascii "GET") ≠ [] by decide) (by decide)
  refine ⟨s, hs, hr, buffer_bounded _ doubling_amortized 18 [requestText (ascii "GET")] ?_ s hs ?_⟩
  · intro r hmem
    rw [List.mem_singleton.mp hmem]
    exact ⟨requestText_complete _, by decide⟩
  · rw [hr]

/-! ### Input beyond repair -/

section Hopeless

variable {ε R : Type} {env : Env ε R}

/-- The connection issues no read any more. -/
def Ended (env : Env ε R) (s : State R) : Prop := ∀ t, Run env s t → t.phase ≠ .reading

/-- At the head of the loop the next step is to issue a read. -/
theorem not_ended {s : State R} (hp : s.phase = .head) : ¬ Ended env s := by
  intro h
  exact h _ (Relation.ReflTransGen.single (.prepare hp)) rfl

/-- The loop ends a connection that sent what no more input repairs exactly if
it sent nothing of the kind: whenever the rest of the stream is beyond repair,
it reads on. -/
theorem rejected_ended_iff (env : Env ε R) (s : State R) (hs : Reachable env s) (hp : s.phase = .head) :
    (env.decoder.Hopeless s.recv.unparsed → Ended env s) ↔
      ¬ env.decoder.Hopeless (env.decoder.greedy s.received.flatten).2 := by
  have hw := (reachable_streams hs).waiting (Or.inl hp)
  rw [hw]
  constructor
  · intro h hh
    exact not_ended hp (h hh)
  · intro h hh
    exact absurd hh h

/-- One turn of the loop on a byte that repairs nothing. -/
theorem rejected_turn {s : State R} (hp : s.phase = .head) (hh : env.decoder.Hopeless s.recv.unparsed)
    (b : UInt8) : ∃ t, Run env s t ∧ t.phase = .head ∧ t.recv.unparsed = s.recv.unparsed ++ [b] := by
  have h1 : Step env s (prepare env s) := .prepare hp
  have hspare : 4096 ≤ (prepare env s).recv.buf.spare := s.recv.compact.spare_reserve env.alloc
  have hroom : [b].length ≤ (prepare env s).recv.buf.spare := by
    rw [List.length_singleton]
    omega
  have h2 : Step env (prepare env s) (read env (prepare env s) [b] hroom) :=
    .read hroom rfl (List.cons_ne_nil b [])
  have hu : (read env (prepare env s) [b] hroom).recv.unparsed = s.recv.unparsed ++ [b] := by
    show ((prepare env s).recv.receive env.runtime [b] hroom).unparsed = _
    rw [RecvBuf.receive_unparsed, prepare_unparsed]
  obtain ⟨e, he⟩ := hh [b]
  rw [← hu] at he
  have h3 : Step env _ ((read env (prepare env s) [b] hroom).to .head) := .incomplete rfl he
  exact ⟨_, ((Relation.ReflTransGen.single h1).tail h2).tail h3, rfl, hu⟩

/-- Turn after turn one more byte is left unparsed. -/
theorem rejected_turns {s : State R} (hp : s.phase = .head)
    (hh : env.decoder.Hopeless s.recv.unparsed) (n : ℕ) : ∃ t, Run env s t ∧ t.phase = .head ∧
      env.decoder.Hopeless t.recv.unparsed ∧ n ≤ t.recv.unparsed.length := by
  induction n with
  | zero => exact ⟨s, .refl, hp, hh, Nat.zero_le _⟩
  | succ n ih =>
    obtain ⟨t, ht, htp, hth, htn⟩ := ih
    obtain ⟨u, hu, hup, huu⟩ := rejected_turn htp hth 0
    refine ⟨u, ht.trans hu, hup, ?_, ?_⟩
    · rw [huu]
      exact hth.append [0]
    · rw [huu, List.length_append, List.length_singleton]
      exact Nat.succ_le_succ htn

/-- A peer that sends what no more input repairs makes the buffer outgrow any
bound. -/
theorem rejected_grows {s : State R} (hp : s.phase = .head)
    (hh : env.decoder.Hopeless s.recv.unparsed) (n : ℕ) :
    ∃ t, Run env s t ∧ t.phase = .head ∧ n ≤ t.recv.buf.len := by
  obtain ⟨t, ht, htp, -, htn⟩ := rejected_turns hp hh n
  have hu := t.recv.length_unparsed
  exact ⟨t, ht, htp, by omega⟩

end Hopeless

/-- The rest of a request may still come. -/
theorem rejected_ended_partial : ∃ s, Reachable (sampleEnv (ascii "GET") sampleResponse) s ∧
    s.received = [ascii "GE"] ∧ ((oneRequest (ascii "GET")).Hopeless s.recv.unparsed →
      Ended (sampleEnv (ascii "GET") sampleResponse) s) := by
  obtain ⟨s, hs, hp, hr⟩ := first_head (sampleEnv (ascii "GET") sampleResponse)
    (show ascii "GE" ≠ [] by decide) (by decide)
  refine ⟨s, hs, hr, (rejected_ended_iff _ s hs hp).mpr fun hh => ?_⟩
  have hrest : ((oneRequest (ascii "GET")).greedy (ascii "GE")).2 = ascii "GE" := by
    rw [(oneRequest (ascii "GET")).greedy_error (oneRequest_error (by decide))]
  rw [hr, List.flatten_singleton] at hh
  change (oneRequest (ascii "GET")).Hopeless ((oneRequest (ascii "GET")).greedy (ascii "GE")).2 at hh
  rw [hrest] at hh
  obtain ⟨e, he⟩ := hh (ascii "T / HTTP/1.1\r\n\r\n")
  rw [oneRequest_ok (by decide)] at he
  cases he

/-- No request starts with `x`, and the connection stays. -/
theorem rejected_stays : ¬ ∀ s, Reachable (sampleEnv (ascii "GET") sampleResponse) s → s.phase = .head →
    (oneRequest (ascii "GET")).Hopeless s.recv.unparsed →
      Ended (sampleEnv (ascii "GET") sampleResponse) s := by
  intro h
  obtain ⟨s, hs, hp, hr⟩ := first_head (sampleEnv (ascii "GET") sampleResponse)
    (show ascii "x" ≠ [] by decide) (by decide)
  have hnot : ∀ t, ¬ requestText (ascii "GET") <+: ascii "x" ++ t := by
    rintro t ⟨u, hu⟩
    have hhead : some (byte 'G') = some (byte 'x') := congrArg List.head? hu
    exact absurd hhead (by decide)
  have hw := (reachable_streams hs).waiting (Or.inl hp)
  rw [hr, List.flatten_singleton] at hw
  change (oneRequest (ascii "GET")).greedy (ascii "x") = _ at hw
  rw [(oneRequest (ascii "GET")).greedy_error (oneRequest_error (b := ascii "x") (hnot []))] at hw
  have hun : s.recv.unparsed = ascii "x" := (congrArg Prod.snd hw).symm
  refine not_ended hp (h s hs hp fun t => ?_)
  rw [hun]
  exact ⟨(), oneRequest_error (hnot t)⟩

end Conn
end Statico
