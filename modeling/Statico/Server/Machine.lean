/-
# The server

The connections of all workers run side by side and add to the same counters,
one addition at a time. A connection of any kind records one message after
another, a request once those before it are answered, and then its response.
So at every moment the counters of the ports are behind those for all traffic
and the responses behind the requests, by one for each connection at most
(`reachable_consistent`). With all that was recorded posted, which takes no
input, a port's counters are what its connections recorded (`read_rest`).

Key definitions: `Recorder`, `Kind`, `Move`, `Reachable`, `Consistent`.
Key theorems: `reachable_accounted`, `reachable_consistent`, `read_rest`,
`reachable_client`.
-/
import Statico.Server.Meters

namespace Statico

open Startup
open PortCounters (Field)

namespace Server

/-! ### Connections -/

/-- What a connection goes through, and the sizes of the requests and of the
responses that it has recorded. -/
structure Recorder (σ : Type) where
  Starts : σ → Prop
  Step : σ → σ → Prop
  requests : σ → List ℕ
  responses : σ → List ℕ

namespace Recorder

variable {σ : Type} (k : Recorder σ)

/-- The states of a connection. -/
def Reachable (s : σ) : Prop := ∃ s₀, k.Starts s₀ ∧ Relation.ReflTransGen k.Step s₀ s

/-- A step records nothing, a request after all requests were answered, or the
response to the last one. -/
inductive Turn (s t : σ) : Prop
  | quiet : k.requests t = k.requests s → k.responses t = k.responses s → Turn s t
  | request {n : ℕ} : k.requests t = k.requests s ++ [n] → k.responses t = k.responses s →
      (k.responses s).length = (k.requests s).length → Turn s t
  | response {n : ℕ} : k.requests t = k.requests s → k.responses t = k.responses s ++ [n] →
      (k.responses s).length + 1 = (k.requests s).length → Turn s t

/-- What was recorded, by counter. -/
def counted (s : σ) : Field → ℕ
  | .requests => (k.requests s).length
  | .requestBytes => (k.requests s).sum
  | .responses => (k.responses s).length
  | .responseBytes => (k.responses s).sum

variable {k} {s t : σ}

theorem Reachable.start (h : k.Starts s) : k.Reachable s := ⟨s, h, .refl⟩

theorem Reachable.step (hs : k.Reachable s) (h : k.Step s t) : k.Reachable t := by
  obtain ⟨s₀, h₀, hrun⟩ := hs
  exact ⟨s₀, h₀, hrun.tail h⟩

/-- What holds at the start of connections and is kept by their steps. -/
theorem Reachable.induction {P : σ → Prop} (h0 : ∀ s, k.Starts s → P s)
    (hstep : ∀ s t, P s → k.Step s t → P t) (h : k.Reachable s) : P s := by
  obtain ⟨s₀, h₀, hrun⟩ := h
  induction hrun with
  | refl => exact h0 s₀ h₀
  | tail _ hst ih => exact hstep _ _ ih hst

end Recorder

/-- Connections that record one message at a time and in turn. -/
structure Kind (σ : Type) extends Recorder σ where
  fresh : ∀ s, Starts s → requests s = [] ∧ responses s = []
  turn : ∀ s t, toRecorder.Reachable s → Step s t → toRecorder.Turn s t

/-! ### The machine -/

section Machine

variable {σ : Type} (k : Kind σ) {ports : List UInt16}

/-- A connection, and the port it was accepted on. -/
abbrev Client (σ : Type) (ports : List UInt16) := Port ports × σ

/-- The connections and the counters. -/
abbrev State (σ : Type) (ports : List UInt16) := Ledger (Meters ports) (Client σ ports) (Key ports)

def Accepted (c : Client σ ports) : Prop := k.Starts c.2

/-- What `record_request` and `record_response` add for the messages recorded
from `s` to `t`. -/
def recorded (p : Port ports) (s t : σ) : List (Key ports × ℕ) :=
  ((k.requests t).drop (k.requests s).length).flatMap (recordRequest p) ++
    ((k.responses t).drop (k.responses s).length).flatMap (recordResponse p)

/-- A step of a connection. -/
def Move (c : Client σ ports) (es : List (Key ports × ℕ)) (d : Client σ ports) : Prop :=
  d.1 = c.1 ∧ k.Step c.2 d.2 ∧ es = recorded k c.1 c.2 d.2

abbrev Run : State σ ports → State σ ports → Prop :=
  Ledger.Run (accounts ports) (Accepted k) (Move k)

/-- The states of a server that starts with its counters at zero. -/
def Reachable : State σ ports → Prop :=
  Ledger.Reachable (accounts ports) (Accepted k) (Move k) (Meters.zero ports)

variable {k}

/-! ### One connection -/

/-- The additions of a connection are what it recorded, twice, in order. -/
structure Accounted (k : Kind σ) (c : Client σ ports) (log : List (Key ports × ℕ)) : Prop where
  reachable : k.Reachable c.2
  totals : ∀ f, total (none, f) log = k.counted c.2 f
  counted : Counted c.1 log
  ordered : Ordered c.1 log

theorem Accounted.start {c : Client σ ports} (h : Accepted k c) : Accounted k c [] where
  reachable := .start h
  totals f := by
    obtain ⟨hq, hr⟩ := k.fresh c.2 h
    cases f <;> simp [Recorder.counted, hq, hr]
  counted _ := rfl
  ordered := .nil

/-- A step records nothing, or one message in turn. -/
theorem recorded_cases (p : Port ports) {s t : σ} (h : k.Turn s t) :
    (recorded k p s t = [] ∧ ∀ f, k.counted t f = k.counted s f) ∨
      ∃ count bytes n, recorded k p s t = record p count bytes n ∧
        (∀ f, k.counted t f = k.counted s f + ((if count = f then 1 else 0) + if bytes = f then n else 0)) ∧
        (bytes ≠ .requests ∧ bytes ≠ .responses) ∧
        k.counted s .responses + (if count = .responses then 1 else 0) ≤ k.counted s .requests ∧
        k.counted s .requests + (if count = .requests then 1 else 0) ≤ k.counted s .responses + 1 := by
  cases h with
  | quiet hq hr =>
    refine Or.inl ⟨by simp [recorded, hq, hr], fun f => ?_⟩
    cases f <;> simp [Recorder.counted, hq, hr]
  | @request n hq hr heq =>
    refine Or.inr ⟨.requests, .requestBytes, n, ?_, fun f => ?_, by decide, ?_, ?_⟩
    · simp [recorded, recordRequest, hq, hr]
    · cases f <;> simp [Recorder.counted, hq, hr]
    · show (k.responses s).length + 0 ≤ (k.requests s).length
      omega
    · show (k.requests s).length + 1 ≤ (k.responses s).length + 1
      omega
  | @response n hq hr heq =>
    refine Or.inr ⟨.responses, .responseBytes, n, ?_, fun f => ?_, by decide, ?_, ?_⟩
    · simp [recorded, recordResponse, hq, hr]
    · cases f <;> simp [Recorder.counted, hq, hr]
    · show (k.responses s).length + 1 ≤ (k.requests s).length
      omega
    · show (k.requests s).length + 0 ≤ (k.responses s).length + 1
      omega

theorem Accounted.move {c d : Client σ ports} {es log : List (Key ports × ℕ)} (h : Accounted k c log)
    (hm : Move k c es d) : Accounted k d (log ++ es) := by
  obtain ⟨p, s⟩ := c
  obtain ⟨q, t⟩ := d
  obtain ⟨hpq, hst, rfl⟩ := hm
  obtain rfl : q = p := hpq
  have ht : k.Reachable t := h.reachable.step hst
  show Accounted k (q, t) (log ++ recorded k q s t)
  rcases recorded_cases q (k.turn s t h.reachable hst) with ⟨hes, hsame⟩ | ⟨count, bytes, n, hes, hadd, hb, hres, hreq⟩
  · rw [hes, List.append_nil]
    exact ⟨ht, fun f => (h.totals f).trans (hsame f).symm, h.counted, h.ordered⟩
  · rw [hes]
    refine ⟨ht, fun f => ?_, fun f => ?_, h.ordered.record h.counted hb ?_ ?_ n⟩
    · rw [total_append, h.totals f, (total_record n f).1]
      exact (hadd f).symm
    · rw [total_append, total_append, h.counted f, (total_record n f).1, (total_record n f).2]
    · rw [h.totals .responses, h.totals .requests]
      exact hres
    · rw [h.totals .responses, h.totals .requests]
      exact hreq

variable {l : State σ ports}

theorem reachable_accounted (h : Reachable k l) : ∀ p ∈ l.parties, Accounted k p.state p.log :=
  Ledger.Reachable.party (fun _ hc => Accounted.start hc) (fun _ _ _ _ hc hm => hc.move hm) h

/-- At every moment of its posting. -/
theorem reachable_inOrder (h : Reachable k l) : ∀ p ∈ l.parties, InOrder p.state.1 p.posted :=
  fun p hp => (reachable_accounted h p hp).ordered _ p.posted_prefix

/-! ### The counters -/

theorem read_posted (h : Reachable k l) (a : Key ports) :
    l.accounts.read a = (l.parties.map fun p => total a p.posted).sum := by
  have hread := Ledger.Reachable.read_eq h a
  rw [accounts_zero, Nat.zero_add] at hread
  exact hread

/-- All ports together. -/
theorem sum_ports (h : Reachable k l) (f : Field) : ∑ q, l.accounts.read (some q, f) =
    (l.parties.map fun p => total (some p.state.1, f) p.posted).sum := by
  have horder := reachable_inOrder h
  simp only [read_posted h]
  generalize l.parties = ps at horder
  induction ps with
  | nil => simp
  | cons p ps ih =>
    have hp : ∑ q, total (some q, f) p.posted = total (some p.state.1, f) p.posted := by
      apply Finset.sum_eq_single p.state.1
      · intro q _ hq
        exact (horder p List.mem_cons_self).other q hq f
      · intro hnot
        exact absurd (Finset.mem_univ _) hnot
    simp only [List.map_cons, List.sum_cons, Finset.sum_add_distrib, hp]
    rw [ih fun q hq => horder q (List.mem_cons_of_mem _ hq)]

theorem sum_map_le_add {α : Type} {f g : α → ℕ} {as : List α} (h : ∀ a ∈ as, f a ≤ g a + 1) :
    (as.map f).sum ≤ (as.map g).sum + as.length := by
  calc (as.map f).sum ≤ (as.map fun a => g a + 1).sum := List.sum_le_sum h
    _ = (as.map g).sum + as.length := by simp [List.sum_map_add]

/-- What was posted for all traffic was recorded. -/
theorem posted_le (h : Reachable k l) {p : Party (Client σ ports) (Key ports)} (hp : p ∈ l.parties)
    (f : Field) : total (none, f) p.posted ≤ k.counted p.state.2 f :=
  le_of_le_of_eq (total_le_within p.posted_prefix) ((reachable_accounted h p hp).totals f)

/-- All traffic is what the connections recorded at most. -/
theorem read_none_le (h : Reachable k l) {g : σ → ℕ} (f : Field) (hg : ∀ s, k.Reachable s → k.counted s f ≤ g s) :
    l.accounts.read (none, f) ≤ (l.parties.map fun p => g p.state.2).sum := by
  rw [read_posted h]
  exact List.sum_le_sum fun p hp =>
    le_trans (posted_le h hp f) (hg _ (reachable_accounted h p hp).reachable)

/-- The counters of the ports together are behind those of all traffic, by one
message for each connection at most, and so are the responses behind the
requests: every response recorded answers a request recorded before, and each
connection answers one request at a time. -/
structure Consistent (l : State σ ports) : Prop where
  ports_le : ∀ f, ∑ q, l.accounts.read (some q, f) ≤ l.accounts.read (none, f)
  le_ports : ∀ f, f = .requests ∨ f = .responses →
    l.accounts.read (none, f) ≤ ∑ q, l.accounts.read (some q, f) + l.parties.length
  responses_le : l.accounts.read (none, .responses) ≤ l.accounts.read (none, .requests)
  le_responses : l.accounts.read (none, .requests) ≤ l.accounts.read (none, .responses) + l.parties.length

/-- At every moment, whatever the connections do and in whatever order they add. -/
theorem reachable_consistent (h : Reachable k l) : Consistent l := by
  have horder := reachable_inOrder h
  refine ⟨fun f => ?_, fun f hf => ?_, ?_, ?_⟩
  · rw [sum_ports h, read_posted h]
    exact List.sum_le_sum fun p hp => (horder p hp).port_le f
  · rw [sum_ports h, read_posted h]
    apply sum_map_le_add
    intro p hp
    rcases hf with rfl | rfl
    · exact (horder p hp).le_port.1
    · exact (horder p hp).le_port.2
  · rw [read_posted h, read_posted h]
    exact List.sum_le_sum fun p hp => (horder p hp).responses_le
  · rw [read_posted h, read_posted h]
    exact sum_map_le_add fun p hp => (horder p hp).le_responses

/-- Connections that record nothing leave all counters at zero. -/
theorem read_off (h : Reachable k l) (f : Field) (hoff : ∀ s, k.Reachable s → k.counted s f = 0) :
    l.accounts.read (none, f) = 0 ∧ ∀ q, l.accounts.read (some q, f) = 0 := by
  have hzero : (l.parties.map fun _ => 0).sum = 0 := by simp
  have hnone : l.accounts.read (none, f) = 0 :=
    Nat.le_zero.mp (hzero ▸ read_none_le h f fun s hs => (hoff s hs).le)
  have hports := (reachable_consistent h).ports_le f
  rw [hnone, Nat.le_zero, Finset.sum_eq_zero_iff] at hports
  exact ⟨hnone, fun q => hports q (Finset.mem_univ q)⟩

/-! ### At rest -/

/-- The connections on a port. -/
def onPort (cs : List (Client σ ports)) (q : Port ports) : List σ :=
  (cs.filter fun c => c.1 = q).map Prod.snd

theorem mem_onPort {cs : List (Client σ ports)} {q : Port ports} {s : σ} (h : s ∈ onPort cs q) : (q, s) ∈ cs := by
  obtain ⟨c, hc, rfl⟩ := List.mem_map.mp h
  obtain ⟨hmem, hq⟩ := List.mem_filter.mp hc
  rw [← of_decide_eq_true hq]
  exact hmem

theorem sum_onPort (cs : List (Client σ ports)) (q : Port ports) (g : σ → ℕ) :
    ((onPort cs q).map g).sum = (cs.map fun c => if c.1 = q then g c.2 else 0).sum := by
  induction cs with
  | nil => rfl
  | cons c cs ih =>
    by_cases hq : c.1 = q
    · simpa [onPort, hq] using ih
    · simpa [onPort, hq] using ih

/-- With nothing left to post the counters of a port are what the connections
on it recorded. -/
theorem read_rest (h : Reachable k l) (hi : l.Idle) (q : Port ports) (f : Field) :
    l.accounts.read (some q, f) =
      ((onPort (l.parties.map Party.state) q).map fun s => k.counted s f).sum := by
  have hread := Ledger.Reachable.read_idle h hi (some q, f)
  rw [accounts_zero, Nat.zero_add] at hread
  have hlog : ∀ p ∈ l.parties, total (some q, f) p.log =
      if p.state.1 = q then k.counted p.state.2 f else 0 := by
    intro p hp
    have hacc := reachable_accounted h p hp
    split_ifs with hq
    · rw [← hq, hacc.counted f, hacc.totals f]
    · exact (hacc.ordered _ (List.prefix_refl _)).other q (Ne.symm hq) f
  rw [sum_onPort, List.map_map]
  exact hread.trans (congrArg List.sum (List.map_congr_left hlog))

/-- The same in other words. -/
theorem read_rest_of (h : Reachable k l) (hi : l.Idle) (q : Port ports) (f : Field) {g : σ → ℕ}
    (hg : ∀ s, k.Reachable s → (q, s) ∈ l.parties.map Party.state → k.counted s f = g s) :
    l.accounts.read (some q, f) = ((onPort (l.parties.map Party.state) q).map g).sum := by
  rw [read_rest h hi q f]
  apply congrArg List.sum
  apply List.map_congr_left
  intro s hs
  have hmem := mem_onPort hs
  obtain ⟨p, hp, hps⟩ := List.mem_map.mp hmem
  have hreach := (reachable_accounted h p hp).reachable
  rw [hps] at hreach
  exact hg s hreach hmem

theorem read_rest_none (h : Reachable k l) (hi : l.Idle) (f : Field) :
    l.accounts.read (none, f) = ∑ q, l.accounts.read (some q, f) := by
  rw [sum_ports h, read_posted h]
  apply congrArg List.sum
  apply List.map_congr_left
  intro p hp
  have hcounted := (reachable_accounted h p hp).counted f
  rw [Party.log, hi p hp, List.append_nil] at hcounted
  exact hcounted.symm

/-- What a connection does, it does on a server, with all that it recorded posted. -/
theorem reachable_client (q : Port ports) {s : σ} (h : k.Reachable s) :
    ∃ l : State σ ports, Reachable k l ∧ l.Idle ∧ l.parties.map Party.state = [(q, s)] := by
  obtain ⟨s₀, h₀, hrun⟩ := h
  induction hrun with
  | refl =>
    have hjoin : Ledger.Step (accounts ports) (Accepted k) (Move k) ⟨Meters.zero ports, []⟩
        ⟨Meters.zero ports, [⟨(q, s₀), [], []⟩]⟩ := .join h₀
    refine ⟨_, Relation.ReflTransGen.single hjoin, ?_, rfl⟩
    intro p hp
    rw [List.mem_singleton.mp hp]
  | @tail s t _ hst ih =>
    obtain ⟨⟨m, ps⟩, hl, hidle, hstate⟩ := ih
    obtain ⟨p, rfl, hp⟩ : ∃ p, ps = [p] ∧ p.state = (q, s) := by
      obtain ⟨p, ps, rfl⟩ := List.exists_cons_of_ne_nil (l := ps) (by rintro rfl; cases hstate)
      obtain ⟨hp, hps⟩ := List.cons.inj hstate
      exact ⟨p, by rw [List.map_eq_nil_iff.mp hps], hp⟩
    have hmove : Move k p.state (recorded k q s t) (q, t) := by
      rw [hp]
      exact ⟨rfl, hst, rfl⟩
    have hmv : Ledger.Step (accounts ports) (Accepted k) (Move k) ⟨m, [p]⟩
        ⟨m, [⟨(q, t), p.posted, recorded k q s t⟩]⟩ :=
      Ledger.Step.move (l := ⟨m, [p]⟩) (i := 0) rfl (hidle p List.mem_cons_self) hmove
    obtain ⟨n, hn, hn_idle, hn_state, -⟩ := Ledger.settle (accounts ports) (Accepted k) (Move k)
      ⟨m, [⟨(q, t), p.posted, recorded k q s t⟩]⟩
    exact ⟨n, (Relation.ReflTransGen.tail hl hmv).trans hn, hn_idle, hn_state⟩

end Machine

end Server
end Statico
