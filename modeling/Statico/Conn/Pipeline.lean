/-
# Pipelined requests

Whatever the reads are, a connection serves the requests that greedy decoding
of the whole stream yields, in order, with one response each
(`segmentation_independent`). The invariant `Streams` relates the bytes the
buffer has left to the stream: what was served, and what greedy decoding still
takes off the buffer, is what greedy decoding takes off the stream. The head
of the loop keeps the bytes left, a read adds to both, and a request moves
from the one list to the other.

Key definitions: `Streams`, `Serves`.
Key theorems: `reachable_streams`, `reachable_logs`, `drain`,
`segmentation_independent`.
-/
import Statico.Conn.Loop

namespace Statico
namespace Conn

section Invariants

variable {ε R : Type} {env : Env ε R}

/-! ### The stream -/

/-- What was served and what can be decoded of the buffer is what can be
decoded of the stream, and the loop waits for input only where the decoder
fails. -/
structure Streams (env : Env ε R) (s : State R) : Prop where
  greedy : env.decoder.greedy s.received.flatten =
    (s.served ++ (env.decoder.greedy s.recv.unparsed).1, (env.decoder.greedy s.recv.unparsed).2)
  waits : s.phase = .head ∨ s.phase = .reading ∨ s.phase = .closed →
    ∃ e, env.decoder.decode s.recv.unparsed = .error e

theorem Streams.start : Streams env (start env) := by
  obtain ⟨e, he⟩ := env.decoder.decode_nil
  refine ⟨?_, fun _ => ⟨e, he⟩⟩
  show env.decoder.greedy [] = ([] ++ (env.decoder.greedy []).1, (env.decoder.greedy []).2)
  rw [List.nil_append]

theorem prepare_unparsed (s : State R) : (prepare env s).recv.unparsed = s.recv.unparsed := by
  show (s.recv.compact.reserve env.alloc).unparsed = _
  rw [RecvBuf.reserve_unparsed, RecvBuf.compact_unparsed]

/-- While the loop waits for input all requests of the stream were served. -/
theorem Streams.waiting {s : State R} (h : Streams env s)
    (hp : s.phase = .head ∨ s.phase = .reading ∨ s.phase = .closed) :
    env.decoder.greedy s.received.flatten = (s.served, s.recv.unparsed) := by
  obtain ⟨e, he⟩ := h.waits hp
  have hg := h.greedy
  rwa [env.decoder.greedy_error he, List.append_nil] at hg

theorem Streams.read {s : State R} (h : Streams env s) (hp : s.phase = .reading) {chunk : Bytes}
    (hc : chunk.length ≤ s.recv.buf.spare) : Streams env (read env s chunk hc) := by
  have hw := h.waiting (Or.inr (Or.inl hp))
  constructor
  · show env.decoder.greedy (s.received ++ [chunk]).flatten =
      (s.served ++ (env.decoder.greedy (s.recv.receive env.runtime chunk hc).unparsed).1,
        (env.decoder.greedy (s.recv.receive env.runtime chunk hc).unparsed).2)
    have hf : (s.received ++ [chunk]).flatten = s.received.flatten ++ chunk := by
      rw [List.flatten_append, List.flatten_singleton]
    rw [hf, env.decoder.greedy_append, hw, RecvBuf.receive_unparsed]
  · rintro (h | h | h) <;> cases h

theorem Streams.request {s : State R} (h : Streams env s) {r : R} {n : ℕ}
    (hd : env.decoder.decode s.recv.unparsed = .ok (r, n)) :
    Streams env (request env s r n (env.decoder.progress hd).2) := by
  have hg := h.greedy
  rw [env.decoder.greedy_ok hd] at hg
  constructor
  · show env.decoder.greedy s.received.flatten = (s.served ++ [(r, n)] ++
      (env.decoder.greedy (s.recv.consume n (env.decoder.progress hd).2).unparsed).1,
      (env.decoder.greedy (s.recv.consume n (env.decoder.progress hd).2).unparsed).2)
    rw [RecvBuf.consume_unparsed, List.append_assoc]
    exact hg
  · rintro (h | h | h) <;> cases h

/-- The loop keeps to the stream. -/
theorem reachable_streams {s : State R} (h : Reachable env s) : Streams env s := by
  apply h.induction Streams.start
  intro s t hs hst
  cases hst with
  | prepare hp =>
    have hu : (prepare env s).recv.unparsed = s.recv.unparsed := prepare_unparsed s
    refine ⟨?_, fun _ => ?_⟩
    · show env.decoder.greedy s.received.flatten = _
      rw [hu]
      exact hs.greedy
    · rw [hu]
      exact hs.waits (Or.inl hp)
  | read hc hp _ => exact hs.read hp hc
  | eof hp => exact ⟨hs.greedy, fun _ => hs.waits (Or.inr (Or.inl hp))⟩
  | readError hp => exact ⟨hs.greedy, by rintro (h | h | h) <;> cases h⟩
  | request _ hd => exact hs.request hd
  | incomplete _ he => exact ⟨hs.greedy, fun _ => ⟨_, he⟩⟩
  | respond hp => exact ⟨hs.greedy, by rintro (h | h | h) <;> cases h⟩
  | respondFailed n hp => exact ⟨hs.greedy, by rintro (h | h | h) <;> cases h⟩

/-! ### The logs -/

/-- What is counted, metered and written goes with what was served: every
request is answered, the last one still to be while its response is written. -/
structure Logs (env : Env ε R) (s : State R) : Prop where
  count : s.requestsServed = s.served.length
  recorded : s.recordedRequests = if env.meter then s.served.map Prod.snd else []
  written : s.phase ≠ .failed →
    s.written ++ (if s.phase = .writing then [env.response] else []) =
      List.replicate s.served.length env.response

theorem Logs.start : Logs env (start env) where
  count := rfl
  recorded := (ite_self []).symm
  written _ := rfl

/-- The logs of a step that serves nothing. -/
theorem Logs.keep {s t : State R} (h : Logs env s) (hr : t.requestsServed = s.requestsServed)
    (hs : t.served = s.served) (hm : t.recordedRequests = s.recordedRequests)
    (hw : t.phase ≠ .failed → s.phase ≠ .failed ∧
      t.written ++ (if t.phase = .writing then [env.response] else []) =
        s.written ++ (if s.phase = .writing then [env.response] else [])) : Logs env t where
  count := by rw [hr, hs]; exact h.count
  recorded := by rw [hm, hs]; exact h.recorded
  written hf := by
    obtain ⟨hp, he⟩ := hw hf
    rw [he, hs]
    exact h.written hp

/-- A step that neither serves nor writes, from a phase in which no response is
pending. -/
theorem Logs.quiet {s t : State R} (h : Logs env s) {p : Phase} (hp : s.phase = p)
    (hidle : p ≠ .failed ∧ p ≠ .writing) (ht : t.phase ≠ .writing)
    (hr : t.requestsServed = s.requestsServed) (hs : t.served = s.served)
    (hm : t.recordedRequests = s.recordedRequests) (hw : t.written = s.written) : Logs env t := by
  apply h.keep hr hs hm
  intro _
  rw [hw, hp, if_neg hidle.2, if_neg ht]
  exact ⟨hidle.1, rfl⟩

theorem Logs.request {s : State R} (h : Logs env s) (hp : s.phase = .decoding) {r : R} {n : ℕ}
    (hn : n ≤ s.recv.unparsed.length) : Logs env (request env s r n hn) where
  count := by
    show s.requestsServed + 1 = (s.served ++ [(r, n)]).length
    rw [h.count, List.length_append, List.length_singleton]
  recorded := by
    show record env n s.recordedRequests = if env.meter then (s.served ++ [(r, n)]).map Prod.snd else []
    rw [record, h.recorded, List.map_append]
    split_ifs
    · rfl
    · rfl
  written _ := by
    have hw := h.written (by rw [hp]; decide)
    rw [hp, if_neg (by decide), List.append_nil] at hw
    show s.written ++ (if Phase.writing = .writing then [env.response] else []) =
      List.replicate (s.served ++ [(r, n)]).length env.response
    rw [if_pos rfl, hw, List.length_append, List.length_singleton, List.replicate_succ']

/-- What was counted, metered and written is what was served. -/
theorem reachable_logs {s : State R} (h : Reachable env s) : Logs env s := by
  apply h.induction Logs.start
  intro s t hs hst
  cases hst with
  | prepare hp => exact hs.quiet hp (by decide) Phase.noConfusion rfl rfl rfl rfl
  | read _ hp _ => exact hs.quiet hp (by decide) Phase.noConfusion rfl rfl rfl rfl
  | eof hp => exact hs.quiet hp (by decide) Phase.noConfusion rfl rfl rfl rfl
  | readError _ => exact hs.keep rfl rfl rfl fun hf => absurd rfl hf
  | request hp hd => exact hs.request hp _
  | incomplete hp _ => exact hs.quiet hp (by decide) Phase.noConfusion rfl rfl rfl rfl
  | respond hp =>
    refine hs.keep rfl rfl rfl fun _ => ⟨by rw [hp]; decide, ?_⟩
    show s.written ++ [env.response] ++ (if Phase.decoding = .writing then [env.response] else []) = _
    rw [hp, if_neg (by decide), if_pos rfl, List.append_nil]
  | respondFailed _ _ => exact hs.keep rfl rfl rfl fun hf => absurd rfl hf

/-! ### The reads -/

/-- Every read is issued with 4096 bytes to spare. -/
theorem reachable_spare {s : State R} (h : Reachable env s) :
    s.phase = .reading → 4096 ≤ s.recv.buf.spare := by
  apply h.induction (P := fun s => s.phase = .reading → 4096 ≤ s.recv.buf.spare)
  · intro hp
    cases hp
  · intro s t _ hst ht
    cases hst with
    | prepare _ => exact s.recv.compact.spare_reserve env.alloc
    | read _ _ _ => cases ht
    | eof _ => cases ht
    | readError _ => cases ht
    | request _ _ => cases ht
    | incomplete _ _ => cases ht
    | respond _ => cases ht
    | respondFailed _ _ => cases ht

/-- A run of a connection. -/
abbrev Run (env : Env ε R) : State R → State R → Prop := Relation.ReflTransGen (Step env)

/-- The loop over the requests in the buffer ends. -/
theorem drain_head (b : Bytes) : ∀ s : State R, s.phase = .decoding → s.recv.unparsed = b →
    ∃ t, Run env s t ∧ t.phase = .head ∧ t.received = s.received := by
  apply env.decoder.greedy_induction (P := fun b => ∀ s : State R, s.phase = .decoding →
    s.recv.unparsed = b → ∃ t, Run env s t ∧ t.phase = .head ∧ t.received = s.received)
  · intro b e hd s hp hb
    rw [← hb] at hd
    exact ⟨_, .single (.incomplete hp hd), rfl, rfl⟩
  · intro b r n hd ih s hp hb
    rw [← hb] at hd
    have hn := (env.decoder.progress hd).2
    have h1 : Step env s (request env s r n hn) := .request hp hd
    have h2 : Step env (request env s r n hn) (respond env (request env s r n hn)) := .respond rfl
    have hu : (respond env (request env s r n hn)).recv.unparsed = b.drop n := by
      rw [← hb]
      exact s.recv.consume_unparsed n hn
    obtain ⟨t, ht, hpt, hrt⟩ := ih _ rfl hu
    exact ⟨t, ((Relation.ReflTransGen.single h1).tail h2).trans ht, hpt, hrt⟩

/-- After it the next read is issued. -/
theorem drain (b : Bytes) (s : State R) (hp : s.phase = .decoding) (hb : s.recv.unparsed = b) :
    ∃ t, Run env s t ∧ t.phase = .reading ∧ t.received = s.received := by
  obtain ⟨t, ht, hpt, hrt⟩ := drain_head b s hp hb
  exact ⟨_, ht.tail (.prepare hpt), rfl, hrt⟩

/-- A connection gets any first read of up to 4096 bytes. -/
theorem first_head (env : Env ε R) {chunk : Bytes} (hne : chunk ≠ []) (hl : chunk.length ≤ 4096) :
    ∃ s, Reachable env s ∧ s.phase = .head ∧ s.received = [chunk] := by
  have h1 : Reachable env (prepare env (start env)) := Relation.ReflTransGen.single (.prepare rfl)
  have hc : chunk.length ≤ (prepare env (start env)).recv.buf.spare := le_trans hl (reachable_spare h1 rfl)
  obtain ⟨t, ht, hpt, hrt⟩ := drain_head _ (read env _ chunk hc) rfl rfl
  exact ⟨t, (h1.step (.read hc rfl hne)).trans ht, hpt, hrt⟩

theorem first_read (env : Env ε R) {chunk : Bytes} (hne : chunk ≠ []) (hl : chunk.length ≤ 4096) :
    ∃ s, Reachable env s ∧ s.phase = .reading ∧ s.received = [chunk] := by
  obtain ⟨s, hs, hp, hr⟩ := first_head env hne hl
  exact ⟨_, hs.step (.prepare hp), rfl, hr⟩

end Invariants

/-! ### Segmentation -/

section Segmentation

variable {ε R : Type}

/-- The connection served the stream `b`: it took its requests off in order,
metered their lengths, and wrote one response for each. -/
structure Serves (env : Env ε R) (b : Bytes) (s : State R) : Prop where
  requests : s.served = (env.decoder.greedy b).1
  written : s.written = List.replicate (env.decoder.greedy b).1.length env.response
  recorded : env.meter = true → s.recordedRequests.sum = ((env.decoder.greedy b).1.map Prod.snd).sum
  count : s.requestsServed = (env.decoder.greedy b).1.length

theorem serves_of_waiting {env : Env ε R} {s : State R} (h : Reachable env s)
    (hp : s.phase = .reading ∨ s.phase = .closed) : Serves env s.received.flatten s := by
  have hg := (reachable_streams h).waiting (Or.inr hp)
  have hl := reachable_logs h
  have hidle : s.phase ≠ .failed ∧ s.phase ≠ .writing := by
    rcases hp with hp | hp <;> rw [hp] <;> decide
  have hw := hl.written hidle.1
  rw [if_neg hidle.2, List.append_nil] at hw
  refine ⟨?_, ?_, fun hm => ?_, ?_⟩
  · rw [hg]
  · rw [hg]
    exact hw
  · rw [hg, hl.recorded, if_pos hm]
  · rw [hg]
    exact hl.count

/-- Where a stream was cut into reads does not matter: at the end of input,
and whenever a read is issued, the connection has served the stream so far.
A read is issued with 4096 bytes to spare; whatever it returns, the loop comes
back for the next one, and at the end of input it ends. -/
theorem segmentation_independent (env : Env ε R) :
    (∀ s, Reachable env s → s.phase = .closed → Serves env s.received.flatten s) ∧
    ∀ s, Reachable env s → s.phase = .reading →
      Serves env s.received.flatten s ∧ 4096 ≤ s.recv.buf.spare ∧
      (∃ t, Reachable env t ∧ t.phase = .closed ∧ t.received = s.received) ∧
      ∀ chunk, chunk ≠ [] → chunk.length ≤ s.recv.buf.spare →
        ∃ t, Reachable env t ∧ t.phase = .reading ∧ t.received = s.received ++ [chunk] := by
  refine ⟨fun s hs hp => serves_of_waiting hs (Or.inr hp), fun s hs hp =>
    ⟨serves_of_waiting hs (Or.inl hp), reachable_spare hs hp, ?_, ?_⟩⟩
  · exact ⟨s.to .closed, hs.step (.eof hp), rfl, rfl⟩
  · intro chunk hne hc
    have hread : Step env s (read env s chunk hc) := .read hc hp hne
    obtain ⟨t, ht, hpt, hrt⟩ := drain _ (read env s chunk hc) rfl rfl
    exact ⟨t, (hs.step hread).trans ht, hpt, hrt⟩

end Segmentation

end Conn
end Statico
