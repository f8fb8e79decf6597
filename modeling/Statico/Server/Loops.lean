/-
# Serving with the loops

The connections of the runtimes with a pre-built response record a request
when it is decoded and a response when it is written. Whatever the clients
send and however it arrives, no byte is counted that was not on the wire
(`counters_consistent`). Once the connections wait for input or have ended,
the counters of a port are the requests of its streams (`counters_exact`).

Key definitions: `loops`.
Key theorems: `counters_consistent`, `counters_exact`.
-/
import Statico.Conn.Metered
import Statico.Server.Report

namespace Statico

open Startup
open PortCounters (Field)

namespace Server

section Loops

variable {ε R : Type} (env : Conn.Env ε R) {ports : List UInt16}

/-- The connections of a loop. -/
def loopRecorder : Recorder (Conn.State R) where
  Starts s := s = Conn.start env
  Step := Conn.Step env
  requests := Conn.State.recordedRequests
  responses := Conn.State.recordedResponses

variable {env}

theorem loopRecorder_reachable {s : Conn.State R} : (loopRecorder env).Reachable s ↔ Conn.Reachable env s := by
  constructor
  · rintro ⟨_, rfl, hrun⟩
    exact hrun
  · exact fun h => ⟨_, rfl, h⟩

variable (env)

/-- They record in turn. -/
def loops : Kind (Conn.State R) where
  toRecorder := loopRecorder env
  fresh s h := by
    obtain rfl : s = Conn.start env := h
    exact ⟨rfl, rfl⟩
  turn s t hs h := by
    rcases Conn.Step.recorded (loopRecorder_reachable.mp hs) h with ⟨hq, hr⟩ | ⟨n, hq, hr, heq⟩ | ⟨n, hq, hr, heq⟩
    · exact .quiet hq hr
    · exact .request hq hr heq
    · exact .response hq hr heq

variable {env}

theorem loops_reachable {s : Conn.State R} : (loops env).Reachable s ↔ Conn.Reachable env s :=
  loopRecorder_reachable

/-- Without `--meter` nothing is recorded. -/
theorem counted_off {s : Conn.State R} (hm : env.meter = false) (h : Conn.Reachable env s) (f : Field) :
    (loops env).counted s f = 0 := by
  have hq : (loops env).requests s = [] := by
    show s.recordedRequests = []
    rw [(Conn.reachable_logs h).recorded, if_neg (by rw [hm]; decide)]
  have hr : (loops env).responses s = [] := by
    have hle : ((loops env).responses s).length ≤ ((loops env).requests s).length :=
      (Conn.reachable_metered h).behind.1
    rw [hq] at hle
    exact List.length_eq_zero_iff.mp (Nat.le_zero.mp hle)
  cases f <;> simp [Recorder.counted, hq, hr]

/-- At every moment, whatever the connections do and in whatever order they
add, the counters are consistent, and the bytes are behind those received and
written. Without `--meter` all counters stay at zero. -/
theorem counters_consistent (env : Conn.Env ε R) (ports : List UInt16) (l : State (Conn.State R) ports)
    (h : Reachable (loops env) l) :
    Consistent l ∧
    (l.accounts.read (none, .requestBytes) ≤ (l.parties.map fun p => p.state.2.received.flatten.length).sum ∧
      l.accounts.read (none, .responseBytes) ≤
        (l.parties.map fun p => p.state.2.written.flatten.length).sum) ∧
    (env.meter = false → ∀ f, l.accounts.read (none, f) = 0 ∧ ∀ q, l.accounts.read (some q, f) = 0) := by
  have hbytes : ∀ s, (loops env).Reachable s →
      s.recordedRequests.sum ≤ s.received.flatten.length ∧ s.recordedResponses.sum ≤ s.written.flatten.length :=
    fun s hs => Conn.recorded_bytes (loops_reachable.mp hs)
  refine ⟨reachable_consistent h, ⟨?_, ?_⟩, fun hm f => ?_⟩
  · exact read_none_le h (g := fun s : Conn.State R => s.received.flatten.length) .requestBytes
      fun s hs => (hbytes s hs).1
  · exact read_none_le h (g := fun s : Conn.State R => s.written.flatten.length) .responseBytes
      fun s hs => (hbytes s hs).2
  · exact read_off h f fun s hs => counted_off hm (loops_reachable.mp hs) f

/-- What a connection recorded, while it waits for input or after its end. -/
theorem counted_waiting {s : Conn.State R} (hm : env.meter = true) (h : Conn.Reachable env s)
    (hp : s.phase = .reading ∨ s.phase = .closed) :
    (loops env).counted s .requests = (env.decoder.greedy s.received.flatten).1.length ∧
    (loops env).counted s .requestBytes = ((env.decoder.greedy s.received.flatten).1.map Prod.snd).sum ∧
    (loops env).counted s .responses = (loops env).counted s .requests ∧
    (loops env).counted s .responseBytes = env.response.length * (loops env).counted s .requests := by
  have hserves := Conn.serves_of_waiting h hp
  have hmetered := Conn.reachable_metered h
  have hidle : s.phase ≠ .failed ∧ s.phase ≠ .writing := by
    rcases hp with hp | hp <;> rw [hp] <;> decide
  have hcount := hmetered.count hidle.1
  rw [Conn.answering_idle rfl hidle.2, Nat.add_zero] at hcount
  have hrequests : s.recordedRequests = (env.decoder.greedy s.received.flatten).1.map Prod.snd := by
    rw [(Conn.reachable_logs h).recorded, if_pos hm, hserves.requests]
  refine ⟨?_, ?_, hcount, ?_⟩
  · show s.recordedRequests.length = _
    rw [hrequests, List.length_map]
  · show s.recordedRequests.sum = _
    rw [hrequests]
  · show s.recordedResponses.sum = _ * s.recordedRequests.length
    rw [hmetered.responses, List.sum_replicate, smul_eq_mul, hcount, Nat.mul_comm]

/-- From wherever the connections wait for input or have ended, what they
recorded is posted without any of them going on. Then the counters of each
port are the requests that greedy decoding finds in the streams received on
it, their lengths, and one response for each; all traffic is that of the
ports. -/
theorem counters_exact (env : Conn.Env ε R) (ports : List UInt16) (hm : env.meter = true)
    (l : State (Conn.State R) ports) (h : Reachable (loops env) l)
    (hw : ∀ p ∈ l.parties, p.state.2.phase = .reading ∨ p.state.2.phase = .closed) :
    (∃ m, Run (loops env) l m ∧ m.Idle ∧ m.parties.map Party.state = l.parties.map Party.state) ∧
    ∀ m, Run (loops env) l m → m.Idle → m.parties.map Party.state = l.parties.map Party.state →
      (∀ q, m.accounts.read (some q, .requests) = ((onPort (l.parties.map Party.state) q).map fun s =>
          (env.decoder.greedy s.received.flatten).1.length).sum ∧
        m.accounts.read (some q, .requestBytes) = ((onPort (l.parties.map Party.state) q).map fun s =>
          ((env.decoder.greedy s.received.flatten).1.map Prod.snd).sum).sum ∧
        m.accounts.read (some q, .responses) = m.accounts.read (some q, .requests) ∧
        m.accounts.read (some q, .responseBytes) =
          env.response.length * m.accounts.read (some q, .requests)) ∧
      ∀ f, m.accounts.read (none, f) = ∑ q, m.accounts.read (some q, f) := by
  constructor
  · obtain ⟨m, hrun, hidle, hstate, -⟩ := Ledger.settle (accounts ports) (Accepted (loops env)) (Move (loops env)) l
    exact ⟨m, hrun, hidle, hstate⟩
  · intro m hrun hidle hstate
    have hreach : Reachable (loops env) m := Relation.ReflTransGen.trans h hrun
    refine ⟨fun q => ?_, read_rest_none hreach hidle⟩
    have hwaiting : ∀ s, (loops env).Reachable s → (q, s) ∈ m.parties.map Party.state →
        Conn.Reachable env s ∧ (s.phase = .reading ∨ s.phase = .closed) := by
      intro s hs hmem
      rw [hstate] at hmem
      obtain ⟨p, hp, hps⟩ := List.mem_map.mp hmem
      have hphase := hw p hp
      rw [hps] at hphase
      exact ⟨loops_reachable.mp hs, hphase⟩
    have hcounted := fun s hs hmem =>
      counted_waiting hm (hwaiting s hs hmem).1 (hwaiting s hs hmem).2
    have hrequests := read_rest_of hreach hidle q .requests fun s hs hmem => (hcounted s hs hmem).1
    have hresponses := read_rest_of hreach hidle q .responses fun s hs hmem =>
      (hcounted s hs hmem).2.2.1.trans (hcounted s hs hmem).1
    have hbytes := read_rest_of hreach hidle q .responseBytes fun s hs hmem =>
      (hcounted s hs hmem).2.2.2.trans (congrArg _ (hcounted s hs hmem).1)
    rw [← hstate]
    refine ⟨hrequests, read_rest_of hreach hidle q .requestBytes fun s hs hmem => (hcounted s hs hmem).2.1,
      hresponses.trans hrequests.symm, ?_⟩
    rw [hbytes, hrequests, ← List.sum_map_mul_left]

end Loops

/-! ### One request on port 80 -/

/-- The connection `sampleEnv` on a server with `--meter`. -/
def sampleEnv : Conn.Env Unit Bytes :=
  { Conn.sampleEnv (ascii "GET") Conn.sampleResponse with meter := true }

def eighty : Port [80] := ⟨80, List.mem_singleton.mpr rfl⟩

theorem sample_server : ∃ l : State (Conn.State Bytes) [80], Reachable (loops sampleEnv) l ∧ l.Idle ∧
    ∃ s, l.parties.map Party.state = [(eighty, s)] ∧ s.phase = .reading ∧
      s.received = [Conn.requestText (ascii "GET")] := by
  obtain ⟨s, hs, hp, hr⟩ := Conn.first_read sampleEnv
    (show Conn.requestText (ascii "GET") ≠ [] by decide) (by decide)
  obtain ⟨l, hl, hidle, hstate⟩ := reachable_client eighty (loops_reachable.mpr hs)
  exact ⟨l, hl, hidle, s, hstate, hp, hr⟩

theorem sample_greedy {s : Conn.State Bytes} (hr : s.received = [Conn.requestText (ascii "GET")]) :
    sampleEnv.decoder.greedy s.received.flatten = ([(ascii "GET", 18)], []) := by
  rw [hr, List.flatten_singleton]
  show (Conn.oneRequest (ascii "GET")).greedy (Conn.requestText (ascii "GET")) = _
  rw [Decoder.greedy_ok _ (Conn.oneRequest_ok (List.prefix_refl _)), List.drop_length,
    Decoder.greedy_error _ (Conn.oneRequest_error (by decide))]
  rfl

theorem counters_consistent_eighty : ∃ l : State (Conn.State Bytes) [80], Reachable (loops sampleEnv) l ∧
    l.parties.length = 1 ∧ l.accounts.read (none, .requests) ≤ l.accounts.read (none, .responses) + 1 := by
  obtain ⟨l, hl, -, s, hstate, -, -⟩ := sample_server
  have hlen : l.parties.length = 1 := by
    rw [← List.length_map (f := Party.state), hstate]
    rfl
  have hbehind := (counters_consistent sampleEnv [80] l hl).1.le_responses
  rw [hlen] at hbehind
  exact ⟨l, hl, hlen, hbehind⟩

/-- One request of 18 bytes. -/
theorem counters_exact_eighty : ∃ l : State (Conn.State Bytes) [80], Reachable (loops sampleEnv) l ∧
    l.accounts.read (some eighty, .requests) = 1 ∧ l.accounts.read (some eighty, .requestBytes) = 18 := by
  obtain ⟨l, hl, hidle, s, hstate, hp, hr⟩ := sample_server
  have hw : ∀ p ∈ l.parties, p.state.2.phase = .reading ∨ p.state.2.phase = .closed := by
    intro p hmem
    have hps : p.state ∈ [(eighty, s)] := hstate ▸ List.mem_map_of_mem hmem
    rw [List.mem_singleton.mp hps]
    exact Or.inl hp
  have hexact := ((counters_exact sampleEnv [80] rfl l hl hw).2 l .refl hidle rfl).1 eighty
  have hgreedy := sample_greedy hr
  have hone : onPort [(eighty, s)] eighty = [s] := by simp [onPort]
  rw [hstate, hone, List.map_singleton, List.map_singleton, hgreedy] at hexact
  exact ⟨l, hl, hexact.1, hexact.2.1⟩

theorem sample_counted : ∃ l : State (Conn.State Bytes) [80], Reachable (loops sampleEnv) l ∧
    l.accounts.read (none, .requests) = 1 ∧ l.accounts.read (some eighty, .requests) = 1 := by
  obtain ⟨l, hl, hidle, s, hstate, hp, hr⟩ := sample_server
  have hcounted : ∀ t, (loops sampleEnv).Reachable t → (eighty, t) ∈ l.parties.map Party.state →
      (loops sampleEnv).counted t .requests = 1 := by
    intro t ht hmem
    rw [hstate, List.mem_singleton] at hmem
    obtain rfl : t = s := congrArg Prod.snd hmem
    rw [(counted_waiting rfl (loops_reachable.mp ht) (Or.inl hp)).1, sample_greedy hr]
    rfl
  have hport : l.accounts.read (some eighty, .requests) = 1 := by
    rw [read_rest_of hl hidle eighty .requests (g := fun _ => 1) hcounted, hstate]
    simp [onPort]
  refine ⟨l, hl, ?_, hport⟩
  have hall : ∀ q : Port [80], q = eighty := fun q => Subtype.ext (List.mem_singleton.mp q.2)
  rw [read_rest_none hl hidle .requests, Finset.sum_eq_single eighty (fun q _ hq => absurd (hall q) hq)
    fun h => absurd (Finset.mem_univ eighty) h, hport]

/-- The server before its first connection. -/
def freshServer : State (Conn.State Bytes) [80] := ⟨Meters.zero [80], []⟩

theorem freshServer_read : freshServer.accounts.read (none, .requests) = 0 := rfl

/-- A slot in which a request is recorded. -/
theorem meter_adds_up_eighty : ∃ (l : State (Conn.State Bytes) [80]) (a c : Field → ℕ) (slots : List (Field → ℕ)),
    Metering (loops sampleEnv) freshServer a c slots l ∧ a .requests = 0 ∧ slots.length = 1 ∧
      (slots.map fun d => d .requests).sum = 1 := by
  obtain ⟨l, hl, hone, -⟩ := sample_counted
  have hfirst : Readings (loops sampleEnv) freshServer (readCounters [80])
      (fields.map fun f => freshServer.accounts.read (none, f)) freshServer := readings_later .refl (readCounters [80])
  have hlast : Readings (loops sampleEnv) freshServer (readCounters [80])
      (fields.map fun f => l.accounts.read (none, f)) l := readings_later hl (readCounters [80])
  have hmeter := (Metering.start hfirst).slot hlast
  have hsum := ((meter_adds_up (loops sampleEnv) [80] freshServer l .refl _ _ _ hmeter).1 .requests).2.1
  rw [freshServer_read, hone, Nat.zero_add] at hsum
  exact ⟨l, _, _, _, hmeter, freshServer_read, rfl, hsum⟩

/-- A report that reads the counters of all traffic before a request is
recorded, and those of the port after it. -/
theorem report_consistent_eighty : ∃ (l : State (Conn.State Bytes) [80]) (r : Key [80] → ℕ),
    Readings (loops sampleEnv) freshServer (reportKeys [80] true) ((reportKeys [80] true).map r) l ∧
      r (none, .requests) = 0 ∧ r (some eighty, .requests) = 1 ∧
      ((sortedPorts [80]).map fun q => r (some q, .requests)).sum ≤ l.accounts.read (none, .requests) := by
  obtain ⟨l, hl, -, hport⟩ := sample_counted
  set r : Key [80] → ℕ := fun a => if a.1 = none then freshServer.accounts.read a else l.accounts.read a
  have hread : Readings (loops sampleEnv) freshServer (reportKeys [80] true) ((reportKeys [80] true).map r) l := by
    have hall : (readCounters [80]).map r = (readCounters [80]).map freshServer.accounts.read := by
      refine List.map_congr_left fun a ha => ?_
      obtain ⟨f, -, rfl⟩ := List.mem_map.mp ha
      rfl
    have hports : ((sortedPorts [80]).flatMap fun q => fields.map fun f => ((some q, f) : Key [80])).map r =
        ((sortedPorts [80]).flatMap fun q => fields.map fun f => (some q, f)).map l.accounts.read := by
      refine List.map_congr_left fun a ha => ?_
      obtain ⟨q, -, ha⟩ := List.mem_flatMap.mp ha
      obtain ⟨f, -, rfl⟩ := List.mem_map.mp ha
      rfl
    rw [reportKeys, if_pos rfl, List.map_append, hall, hports]
    exact (readings_later .refl _).append (readings_later hl _)
  exact ⟨l, r, hread, freshServer_read, hport,
    ((report_consistent (loops sampleEnv) [80] true freshServer l .refl r hread).2.2 rfl).2.1 .requests⟩

end Server
end Statico
