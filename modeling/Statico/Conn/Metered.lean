/-
# What a connection meters

A connection records each request when it is decoded and its response when it
is written, so the responses are behind the requests by the request being
answered, and by none between requests (`reachable_metered`). A step records
one message or none (`Step.recorded`). What is recorded was on the wire
(`recorded_bytes`).

Key definitions: `answering`, `Metered`.
Key theorems: `reachable_metered`, `Step.recorded`, `recorded_bytes`.
-/
import Statico.Conn.Work

namespace Statico
namespace Conn

section Meter

variable {ε R : Type} {env : Env ε R}

/-- The recorded request that is being answered. -/
def answering (env : Env ε R) (s : State R) : ℕ :=
  if s.phase = .writing ∧ env.meter = true then 1 else 0

/-- The recorded responses, against the recorded requests and what was written. -/
structure Metered (env : Env ε R) (s : State R) : Prop where
  count : s.phase ≠ .failed → s.recordedResponses.length + answering env s = s.recordedRequests.length
  behind : s.recordedResponses.length ≤ s.recordedRequests.length ∧
    s.recordedRequests.length ≤ s.recordedResponses.length + 1
  responses : s.recordedResponses = List.replicate s.recordedResponses.length env.response.length
  written : s.recordedResponses.length * env.response.length ≤ s.written.flatten.length

theorem Metered.start : Metered env (start env) where
  count _ := rfl
  behind := ⟨le_rfl, Nat.zero_le _⟩
  responses := rfl
  written := (Nat.zero_mul _).le

/-- A step that records nothing. -/
theorem Metered.keep {s t : State R} (h : Metered env s) (hq : t.recordedRequests = s.recordedRequests)
    (hr : t.recordedResponses = s.recordedResponses)
    (hw : s.written.flatten.length ≤ t.written.flatten.length)
    (hp : t.phase ≠ .failed → s.phase ≠ .failed ∧ answering env t = answering env s) : Metered env t where
  count hf := by
    obtain ⟨hs, ha⟩ := hp hf
    rw [hq, hr, ha]
    exact h.count hs
  behind := by
    rw [hq, hr]
    exact h.behind
  responses := by
    rw [hr]
    exact h.responses
  written := by
    rw [hr]
    exact le_trans h.written hw

theorem answering_idle {s : State R} {p : Phase} (h : s.phase = p) (hp : p ≠ .writing) : answering env s = 0 :=
  if_neg fun hw => hp (h.symm.trans hw.1)

/-- Between requests a step that records nothing. -/
theorem Metered.quiet {s t : State R} (h : Metered env s) {p : Phase} (hp : s.phase = p)
    (hidle : p ≠ .failed ∧ p ≠ .writing) (ht : t.phase ≠ .writing)
    (hq : t.recordedRequests = s.recordedRequests) (hr : t.recordedResponses = s.recordedResponses)
    (hw : t.written = s.written) : Metered env t := by
  apply h.keep hq hr (by rw [hw])
  intro _
  rw [hp]
  exact ⟨hidle.1, (answering_idle rfl ht).trans (answering_idle hp hidle.2).symm⟩

theorem Metered.request {s : State R} (h : Metered env s) (hp : s.phase = .decoding) {r : R} {n : ℕ}
    (hn : n ≤ s.recv.unparsed.length) : Metered env (request env s r n hn) := by
  have hcount := h.count (by rw [hp]; decide)
  rw [answering_idle hp (by decide), Nat.add_zero] at hcount
  have hlen : (record env n s.recordedRequests).length =
      s.recordedResponses.length + answering env (Conn.request env s r n hn) := by
    rw [hcount, record, answering]
    split_ifs with h1 h2 h2
    · exact List.length_append
    · exact absurd ⟨rfl, h1⟩ h2
    · exact absurd h2.2 h1
    · rfl
  have hle : answering env (Conn.request env s r n hn) ≤ 1 := by
    rw [answering]
    split_ifs <;> omega
  refine ⟨fun _ => hlen.symm, ⟨?_, ?_⟩, h.responses, h.written⟩
  · show s.recordedResponses.length ≤ (record env n s.recordedRequests).length
    omega
  · show (record env n s.recordedRequests).length ≤ s.recordedResponses.length + 1
    omega

theorem Metered.respond {s : State R} (h : Metered env s) (hp : s.phase = .writing) :
    Metered env (respond env s) := by
  have hcount := h.count (by rw [hp]; decide)
  have hlen : (record env env.response.length s.recordedResponses).length = s.recordedRequests.length := by
    rw [← hcount, record, answering, hp]
    split_ifs with h1 h2 h2
    · exact List.length_append
    · exact absurd ⟨rfl, h1⟩ h2
    · exact absurd h2.2 h1
    · rfl
  have hle : (record env env.response.length s.recordedResponses).length ≤ s.recordedResponses.length + 1 := by
    rw [record]
    split_ifs
    · rw [List.length_append, List.length_singleton]
    · exact Nat.le_succ _
  refine ⟨fun _ => ?_, ?_, ?_, ?_⟩
  · rw [answering_idle (p := .decoding) rfl (by decide), Nat.add_zero]
    exact hlen
  · show (record env env.response.length s.recordedResponses).length ≤ _ ∧ _
    exact ⟨hlen.le, hlen.ge.trans (Nat.le_succ _)⟩
  · show record env env.response.length s.recordedResponses =
      List.replicate (record env env.response.length s.recordedResponses).length _
    rw [record]
    split_ifs
    · rw [List.length_append, List.length_singleton, List.replicate_succ', ← h.responses]
    · exact h.responses
  · show (record env env.response.length s.recordedResponses).length * _ ≤
      (s.written ++ [env.response]).flatten.length
    rw [List.flatten_append, List.length_append, List.flatten_singleton]
    calc (record env env.response.length s.recordedResponses).length * env.response.length
        ≤ (s.recordedResponses.length + 1) * env.response.length := Nat.mul_le_mul_right _ hle
      _ = s.recordedResponses.length * env.response.length + env.response.length := Nat.succ_mul _ _
      _ ≤ s.written.flatten.length + env.response.length := Nat.add_le_add_right h.written _

/-- What a connection recorded so far. -/
theorem reachable_metered {s : State R} (h : Reachable env s) : Metered env s := by
  apply h.induction Metered.start
  intro s t hs hst
  cases hst with
  | prepare hp => exact hs.quiet hp (by decide) Phase.noConfusion rfl rfl rfl
  | read _ hp _ => exact hs.quiet hp (by decide) Phase.noConfusion rfl rfl rfl
  | eof hp => exact hs.quiet hp (by decide) Phase.noConfusion rfl rfl rfl
  | readError _ => exact hs.keep rfl rfl le_rfl fun hf => absurd rfl hf
  | request hp hd => exact hs.request hp _
  | incomplete hp _ => exact hs.quiet hp (by decide) Phase.noConfusion rfl rfl rfl
  | respond hp => exact hs.respond hp
  | respondFailed n _ =>
    refine hs.keep rfl rfl ?_ fun hf => absurd rfl hf
    show s.written.flatten.length ≤ (s.written ++ [env.response.take n]).flatten.length
    rw [List.flatten_append, List.length_append]
    exact Nat.le_add_right _ _

/-- A step records nothing, a request after all requests were answered, or the
response to the last one. -/
theorem Step.recorded {s t : State R} (hs : Reachable env s) (h : Step env s t) :
    (t.recordedRequests = s.recordedRequests ∧ t.recordedResponses = s.recordedResponses) ∨
    (∃ n, t.recordedRequests = s.recordedRequests ++ [n] ∧ t.recordedResponses = s.recordedResponses ∧
      s.recordedResponses.length = s.recordedRequests.length) ∨
    ∃ n, t.recordedRequests = s.recordedRequests ∧ t.recordedResponses = s.recordedResponses ++ [n] ∧
      s.recordedResponses.length + 1 = s.recordedRequests.length := by
  have hm := reachable_metered hs
  by_cases hmeter : env.meter = true
  · cases h with
    | @request r n hp hd =>
      have hcount := hm.count (by rw [hp]; decide)
      rw [answering_idle hp (by decide)] at hcount
      exact Or.inr (Or.inl ⟨n, if_pos hmeter, rfl, hcount⟩)
    | respond hp =>
      have hcount := hm.count (by rw [hp]; decide)
      rw [answering, if_pos ⟨hp, hmeter⟩] at hcount
      exact Or.inr (Or.inr ⟨env.response.length, rfl, if_pos hmeter, hcount⟩)
    | _ => exact Or.inl ⟨rfl, rfl⟩
  · cases h with
    | request _ _ => exact Or.inl ⟨if_neg hmeter, rfl⟩
    | respond _ => exact Or.inl ⟨rfl, if_neg hmeter⟩
    | _ => exact Or.inl ⟨rfl, rfl⟩

/-- No byte is recorded that was not received or written. -/
theorem recorded_bytes {s : State R} (h : Reachable env s) :
    s.recordedRequests.sum ≤ s.received.flatten.length ∧
      s.recordedResponses.sum ≤ s.written.flatten.length := by
  have hconsumed := received_consumed h
  have hrecorded := (reachable_logs h).recorded
  have hm := reachable_metered h
  constructor
  · rw [hrecorded]
    split_ifs
    · omega
    · exact Nat.zero_le _
  · rw [hm.responses, List.sum_replicate, smul_eq_mul]
    exact hm.written

end Meter

end Conn
end Statico
