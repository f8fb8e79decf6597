/-
# The work of a connection

How much a connection does for what it receives. A step is worth three for a
read and two for a request, and the loop is back at a read before these are
used up: a run has at most five steps for each byte received, whatever the
decoder makes of the bytes, and it is never stuck but in a read
(`work_bounded`). On a stream of requests of at most `M` bytes the loop moves
at most `M` bytes to the front of the buffer for every 4096 bytes it received
(`copied_bounded`), however small the reads are.

Key definitions: `moved`, `copied`.
Key theorems: `received_consumed`, `work_bounded`, `copied_bounded`.
-/
import Statico.Lib.Cost
import Statico.Conn.Limits

namespace Statico
namespace Conn

section Work

variable {ε R : Type} {env : Env ε R}

/-! ### Steps -/

/-- Every byte received was taken by a request or is unparsed. -/
theorem received_consumed {s : State R} (h : Reachable env s) :
    (s.served.map Prod.snd).sum + s.recv.unparsed.length = s.received.flatten.length := by
  apply h.induction (P := fun s => (s.served.map Prod.snd).sum + s.recv.unparsed.length =
    s.received.flatten.length)
  · rfl
  · intro s t hs hst
    cases hst with
    | prepare _ =>
      show (s.served.map Prod.snd).sum + (prepare env s).recv.unparsed.length = _
      rw [prepare_unparsed]
      exact hs
    | @read chunk hc _ _ =>
      show (s.served.map Prod.snd).sum + (s.recv.receive env.runtime chunk hc).unparsed.length =
        (s.received ++ [chunk]).flatten.length
      rw [RecvBuf.receive_unparsed, List.length_append, List.flatten_append, List.length_append,
        List.flatten_singleton]
      omega
    | @request r n _ hd =>
      have hn := (env.decoder.progress hd).2
      show ((s.served ++ [(r, n)]).map Prod.snd).sum + (s.recv.consume n hn).unparsed.length =
        s.received.flatten.length
      rw [RecvBuf.consume_unparsed, List.length_drop, List.map_append, List.sum_append, ← hs]
      show _ + n + _ = _
      omega
    | _ => exact hs

/-- Every request took a byte, and every read brought one. -/
theorem served_le {s : State R} (h : Reachable env s) :
    s.served.length ≤ (s.served.map Prod.snd).sum ∧ s.received.length ≤ s.received.flatten.length := by
  apply h.induction (P := fun s => s.served.length ≤ (s.served.map Prod.snd).sum ∧
    s.received.length ≤ s.received.flatten.length)
  · exact ⟨le_rfl, le_rfl⟩
  · intro s t hs hst
    cases hst with
    | @read chunk hc _ hne =>
      refine ⟨hs.1, ?_⟩
      have hpos := List.length_pos_iff.mpr hne
      show (s.received ++ [chunk]).length ≤ (s.received ++ [chunk]).flatten.length
      rw [List.length_append, List.flatten_append, List.length_append, List.flatten_singleton,
        List.length_singleton]
      omega
    | @request r n _ hd =>
      refine ⟨?_, hs.2⟩
      have hn := (env.decoder.progress hd).1
      show (s.served ++ [(r, n)]).length ≤ ((s.served ++ [(r, n)]).map Prod.snd).sum
      rw [List.length_append, List.map_append, List.sum_append, List.length_singleton]
      show _ ≤ _ + n
      omega
    | _ => exact hs

/-- What the loop may still do before a read or a request pays. -/
def Phase.credit : Phase → ℕ
  | .head => 2
  | .reading => 1
  | .decoding => 3
  | .writing => 4
  | .closed => 0
  | .failed => 0

/-- A step is paid for by what the phases leave, a read or a request. -/
theorem Step.paid {s t : State R} (h : Step env s t) :
    1 + t.phase.credit + (3 * s.received.length + 2 * s.served.length) ≤
      s.phase.credit + (3 * t.received.length + 2 * t.served.length) := by
  cases h with
  | prepare hp =>
    rw [hp]
    exact le_rfl
  | @read chunk _ hp _ =>
    rw [hp]
    show 1 + 3 + (3 * s.received.length + 2 * s.served.length) ≤
      1 + (3 * (s.received ++ [chunk]).length + 2 * s.served.length)
    rw [List.length_append, List.length_singleton]
    omega
  | eof hp =>
    rw [hp]
    exact le_rfl
  | readError hp =>
    rw [hp]
    exact le_rfl
  | @request r n hp _ =>
    rw [hp]
    show 1 + 4 + (3 * s.received.length + 2 * s.served.length) ≤
      3 + (3 * s.received.length + 2 * (s.served ++ [(r, n)]).length)
    rw [List.length_append, List.length_singleton]
    omega
  | incomplete hp _ =>
    rw [hp]
    exact le_rfl
  | respond hp =>
    rw [hp]
    exact le_rfl
  | respondFailed _ hp =>
    rw [hp]
    show 1 + 0 + (3 * s.received.length + 2 * s.served.length) ≤
      4 + (3 * s.received.length + 2 * s.served.length)
    omega

/-- The loop is not stuck but where a read failed or the input ended. -/
theorem Reachable.progress {s : State R} (hp : s.phase ≠ .closed ∧ s.phase ≠ .failed) : ∃ t, Step env s t := by
  cases h : s.phase with
  | head => exact ⟨_, .prepare h⟩
  | reading => exact ⟨_, .eof h⟩
  | decoding =>
    cases hd : env.decoder.decode s.recv.unparsed with
    | error e => exact ⟨_, .incomplete h hd⟩
    | ok x => exact ⟨_, .request (r := x.1) (n := x.2) h hd⟩
  | writing => exact ⟨_, .respond h⟩
  | closed => exact absurd h hp.1
  | failed => exact absurd h hp.2

/-- A run of `n` steps: `n` is bounded by the reads and the requests, and so by
the bytes received, and the loop goes on from wherever it is not ended. -/
theorem work_bounded (env : Env ε R) (s : State R) (n : ℕ)
    (h : Spends (Step env) (fun _ _ => 1) (start env) s n) :
    n ≤ 3 * s.received.length + 2 * s.served.length + 2 ∧ n ≤ 5 * s.received.flatten.length + 2 ∧
      (s.phase ≠ .closed → s.phase ≠ .failed → ∃ t, Step env s t) := by
  have hle := Spends.le 1 (fun s => s.phase.credit)
    (fun s => 3 * s.received.length + 2 * s.served.length) (fun _ _ _ (_ : True) => trivial)
    (fun t u _ hst _ => hst.paid) h trivial
  have hreach : Reachable env s := h.run
  have hserved := served_le hreach
  have hbytes := received_consumed hreach
  have h0 : 3 * (start env).received.length + 2 * (start env).served.length = 0 := rfl
  have hcredit : (start env).phase.credit = 2 := rfl
  refine ⟨by omega, by omega, fun h1 h2 => Reachable.progress ⟨h1, h2⟩⟩

/-- At most 92 steps for one request of 18 bytes. -/
theorem work_bounded_get : ∃ s n,
    Spends (Step (sampleEnv (ascii "GET") sampleResponse)) (fun _ _ => 1)
      (start (sampleEnv (ascii "GET") sampleResponse)) s n ∧
      s.received = [requestText (ascii "GET")] ∧ n ≤ 5 * (requestText (ascii "GET")).length + 2 := by
  obtain ⟨s, hs, -, hr⟩ := first_head (sampleEnv (ascii "GET") sampleResponse)
    (show requestText (ascii "GET") ≠ [] by decide) (by decide)
  obtain ⟨n, hn⟩ := exists_spends (fun _ _ => 1) hs
  have hbound := (work_bounded _ s n hn).2.1
  rw [hr, List.flatten_singleton] at hbound
  exact ⟨s, n, hn, hr, hbound⟩

/-! ### Moving bytes -/

/-- The bytes that `copy_within` moves at the head of the loop. -/
def RecvBuf.moved (w : RecvBuf) : ℕ :=
  if w.parsed = w.buf.len ∧ 0 < w.parsed then 0
  else if 4096 < w.parsed then w.buf.len - w.parsed
  else 0

/-- The bytes a step moves. -/
def copied (s _t : State R) : ℕ := if s.phase = .head then s.recv.moved else 0

/-- Moving is paid for by the bytes parsed. -/
theorem RecvBuf.moved_paid (w : RecvBuf) {M : ℕ} (h : w.unparsed.length ≤ M) :
    4096 * w.moved + M * w.compact.parsed ≤ M * w.parsed := by
  have hu := w.length_unparsed
  unfold moved compact
  split_ifs with h1 h2
  · exact Nat.zero_le _
  · show 4096 * (w.buf.len - w.parsed) + M * 0 ≤ M * w.parsed
    rw [← hu, Nat.mul_zero, Nat.add_zero]
    calc 4096 * w.unparsed.length ≤ 4096 * M := Nat.mul_le_mul_left _ h
      _ = M * 4096 := Nat.mul_comm _ _
      _ ≤ M * w.parsed := Nat.mul_le_mul_left _ h2.le
  · rw [Nat.mul_zero, Nat.zero_add]

theorem RecvBuf.reserve_parsed (w : RecvBuf) (alloc : Alloc) : (w.reserve alloc).parsed = w.parsed := by
  unfold reserve
  split_ifs <;> rfl

/-- What `M` bytes for each byte parsed pay for, a step costs. -/
theorem Step.copied_paid {s t : State R} (h : Step env s t) {M : ℕ}
    (hM : s.phase = .head → s.recv.unparsed.length ≤ M) :
    4096 * copied s t + M * t.recv.parsed + M * (s.served.map Prod.snd).sum ≤
      M * s.recv.parsed + M * (t.served.map Prod.snd).sum := by
  have hidle : s.phase ≠ .head → copied s t = 0 := fun hp => if_neg hp
  cases h with
  | prepare hp =>
    have hpaid := s.recv.moved_paid (hM hp)
    have hcost : copied s (Conn.prepare env s) = s.recv.moved := if_pos hp
    rw [hcost]
    show 4096 * s.recv.moved + M * (s.recv.compact.reserve env.alloc).parsed + M * (s.served.map Prod.snd).sum ≤
      M * s.recv.parsed + M * (s.served.map Prod.snd).sum
    rw [RecvBuf.reserve_parsed]
    omega
  | @request r n hp hd =>
    rw [hidle (by rw [hp]; decide)]
    show 4096 * 0 + M * (s.recv.parsed + n) + M * (s.served.map Prod.snd).sum ≤
      M * s.recv.parsed + M * ((s.served ++ [(r, n)]).map Prod.snd).sum
    rw [List.map_append, List.sum_append, Nat.mul_add, Nat.mul_add]
    show _ ≤ M * s.recv.parsed + (_ + M * n)
    omega
  | read _ hp _ =>
    rw [hidle (by rw [hp]; decide), Nat.mul_zero, Nat.zero_add]
    exact le_rfl
  | eof hp =>
    rw [hidle (by rw [hp]; decide), Nat.mul_zero, Nat.zero_add]
    exact le_rfl
  | readError hp =>
    rw [hidle (by rw [hp]; decide), Nat.mul_zero, Nat.zero_add]
    exact le_rfl
  | incomplete hp _ =>
    rw [hidle (by rw [hp]; decide), Nat.mul_zero, Nat.zero_add]
    exact le_rfl
  | respond hp =>
    rw [hidle (by rw [hp]; decide), Nat.mul_zero, Nat.zero_add]
    exact le_rfl
  | respondFailed _ hp =>
    rw [hidle (by rw [hp]; decide), Nat.mul_zero, Nat.zero_add]
    exact le_rfl

/-- On a stream of requests of at most `M` bytes, cut into reads anyhow, a run
that moves `n` bytes received `4096 * n / M` bytes at least. -/
theorem copied_bounded (env : Env ε R) (M : ℕ) (requests : List Bytes)
    (hr : ∀ r ∈ requests, env.decoder.Complete r ∧ r.length ≤ M) (s : State R) (n : ℕ)
    (h : Spends (Step env) copied (start env) s n) (hin : s.received.flatten <+: requests.flatten) :
    4096 * n ≤ M * s.received.flatten.length := by
  have hle := Spends.le 4096 (fun s => M * s.recv.parsed) (fun s => M * (s.served.map Prod.snd).sum)
    (fun t u hst (hu : u.received.flatten <+: requests.flatten) => hst.received_prefix.trans hu)
    (fun t u ht hst hu => hst.copied_paid fun hp => unparsed_le hr ht hp (hst.received_prefix.trans hu)) h hin
  have hbytes := received_consumed (show Reachable env s from h.run)
  have h0 : M * (start env).recv.parsed = 0 := Nat.mul_zero M
  have hconsumed : M * (s.served.map Prod.snd).sum ≤ M * s.received.flatten.length :=
    Nat.mul_le_mul_left M (by omega)
  omega

/-- Behind more than 4096 parsed bytes, all that is unparsed is moved. -/
theorem RecvBuf.moved_eq {w : RecvBuf} (h : 4096 < w.parsed) : w.moved = w.unparsed.length := by
  have hu := w.length_unparsed
  unfold moved
  split_ifs
  · omega
  · exact hu.symm

/-- A new connection is prepared already. -/
theorem first_prepare (env : Env ε R) : (prepare env (start env)).recv = RecvBuf.new env.alloc := by
  have hroom : 8192 ≤ (RecvBuf.new env.alloc).buf.capacity := env.alloc.le_withCapacity 8192
  have hcompact : (RecvBuf.new env.alloc).compact = RecvBuf.new env.alloc := rfl
  show (RecvBuf.new env.alloc).compact.reserve env.alloc = _
  rw [hcompact, RecvBuf.reserve, if_neg]
  show ¬ (RecvBuf.new env.alloc).buf.capacity - 0 < 4096
  omega

/-- What comes with a long request is moved. -/
theorem first_moved (env : Env ε R) {chunk : Bytes} {r : R} {n : ℕ} {e : ε}
    (hd : env.decoder.decode chunk = .ok (r, n)) (hrest : env.decoder.decode (chunk.drop n) = .error e)
    (hn : 4096 < n) (hl : chunk.length ≤ 8192) : ∃ s k, Spends (Step env) copied (start env) s k ∧
      s.received = [chunk] ∧ chunk.length - n ≤ k := by
  have hprepared := first_prepare env
  have hspare : 8192 ≤ (prepare env (start env)).recv.buf.spare := by
    rw [hprepared]
    exact env.alloc.le_withCapacity 8192
  have hc : chunk.length ≤ (prepare env (start env)).recv.buf.spare := hl.trans hspare
  have hne : chunk ≠ [] := by
    rintro rfl
    exact absurd (env.decoder.progress hd).2 (Nat.not_le_of_gt (Nat.lt_of_le_of_lt (Nat.zero_le _) hn))
  -- the read, the request and its response
  have hread : (read env _ chunk hc).recv.unparsed = chunk := by
    show ((prepare env (start env)).recv.receive env.runtime chunk hc).unparsed = chunk
    rw [RecvBuf.receive_unparsed, hprepared]
    rfl
  have hd' : env.decoder.decode (read env _ chunk hc).recv.unparsed = .ok (r, n) := by rw [hread, hd]
  set t := respond env (request env (read env _ chunk hc) r n (env.decoder.progress hd').2) with ht
  have hrun : Relation.ReflTransGen (Step env) (start env) t :=
    (((Relation.ReflTransGen.single (.prepare rfl)).tail (.read hc rfl hne)).tail (.request rfl hd')).tail
      (.respond rfl)
  have hunparsed : t.recv.unparsed = chunk.drop n := by
    show ((read env _ chunk hc).recv.consume n (env.decoder.progress hd').2).unparsed = _
    rw [RecvBuf.consume_unparsed, hread]
  have hparsed : 4096 < t.recv.parsed := hn.trans_le (Nat.le_add_left n _)
  -- back at the head of the loop
  obtain ⟨k, hk⟩ := exists_spends copied (hrun.tail (.incomplete rfl (hunparsed ▸ hrest)))
  refine ⟨_, _, hk.tail (.prepare rfl), rfl, ?_⟩
  have hmoved : copied (t.to .head) (prepare env (t.to .head)) = chunk.length - n := by
    show t.recv.moved = _
    rw [RecvBuf.moved_eq hparsed, hunparsed, List.length_drop]
  rw [hmoved]
  exact Nat.le_add_left _ k

/-- Of two requests with a method of 4090 bytes, the first byte of the second is
moved if it comes with the first. -/
theorem copied_bounded_two : ∃ m s n, Spends (Step (sampleEnv m sampleResponse)) copied
    (start (sampleEnv m sampleResponse)) s n ∧ 1 ≤ n ∧ 4096 * n ≤ 4105 * s.received.flatten.length := by
  obtain ⟨m, hm⟩ : ∃ m : Bytes, m.length = 4089 := ⟨List.replicate 4089 0, List.length_replicate⟩
  set text := requestText (byte 'G' :: m) with htext
  have hcons : text = byte 'G' :: (m ++ ascii " / HTTP/1.1\r\n\r\n") := rfl
  have hlen : text.length = 4105 := by
    rw [hcons, List.length_cons, List.length_append, hm]
    rfl
  have hd : (sampleEnv (byte 'G' :: m) sampleResponse).decoder.decode (text ++ [byte 'G']) =
      .ok (byte 'G' :: m, text.length) := oneRequest_ok (List.prefix_append _ _)
  have hrest : (sampleEnv (byte 'G' :: m) sampleResponse).decoder.decode ((text ++ [byte 'G']).drop text.length) =
      .error () := by
    refine oneRequest_error fun h => ?_
    have hle := h.length_le
    rw [List.drop_left, ← htext, hlen] at hle
    exact absurd hle (by decide)
  obtain ⟨s, n, hs, hr, hn⟩ := first_moved _ hd hrest (by omega) (by rw [List.length_append, hlen]; decide)
  rw [List.length_append, Nat.add_sub_cancel_left] at hn
  refine ⟨byte 'G' :: m, s, n, hs, hn, copied_bounded _ 4105 [text, text] ?_ s n hs ?_⟩
  · intro r hmem
    have hr : r = text := by simpa using hmem
    rw [hr]
    exact ⟨requestText_complete _, hlen.le⟩
  · rw [hr, List.flatten_singleton, List.flatten_cons, List.flatten_singleton, List.prefix_append_right_inj, hcons]
    exact ⟨_, rfl⟩

end Work

end Conn
end Statico
