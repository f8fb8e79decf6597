/-
# The counters of the server

Four counters for all traffic and four for every registered port. A request
or a response is recorded by four additions, each of them atomic: first the
counters for all traffic, then those of the port. The handle that
`port_counters` gives to a connection is a registered port.

The counters are third-party. What is assumed of them is that they do not wrap
around, that an addition counts from one moment on, and that a reading, which
adds up shards, lies between the values at its start and its end.

Key definitions: `Meters`, `recordRequest`, `recordResponse`.
Key theorems: `read_add`, `Ordered.record`.
-/
import Statico.Lib.Ledger
import Statico.Startup.Counters

namespace Statico

open Startup

namespace Startup.PortCounters

inductive Field where
  | requests
  | requestBytes
  | responses
  | responseBytes
  deriving DecidableEq

/-- `value` of a counter -/
def get (c : PortCounters) : Field → ℕ
  | .requests => c.requests
  | .requestBytes => c.requestBytes
  | .responses => c.responses
  | .responseBytes => c.responseBytes

/-- `add` on a counter -/
def add (c : PortCounters) (n : ℕ) : Field → PortCounters
  | .requests => { c with requests := c.requests + n }
  | .requestBytes => { c with requestBytes := c.requestBytes + n }
  | .responses => { c with responses := c.responses + n }
  | .responseBytes => { c with responseBytes := c.responseBytes + n }

theorem get_add (c : PortCounters) (n : ℕ) (f g : Field) :
    (c.add n f).get g = c.get g + if f = g then n else 0 := by
  cases f <;> cases g <;> rfl

end Startup.PortCounters

open PortCounters (Field)

namespace Server

/-- A port with counters. -/
abbrev Port (ports : List UInt16) := { port // port ∈ ports }

/-- A counter: of all traffic or of a port. -/
abbrev Key (ports : List UInt16) := Option (Port ports) × Field

/-- The statics `REQUESTS` to `RESPONSE_BYTES`, and the map of `PORT_COUNTERS`,
whose keys are the ports of the command line: what the counters came to, which
a reading need not find (`Ledger.Readings`). -/
structure Meters (ports : List UInt16) where
  totals : PortCounters
  map : Counters
  mem_map : ∀ port, port ∈ map ↔ port ∈ ports

namespace Meters

variable {ports : List UInt16}

/-- The counters at startup. -/
def zero (ports : List UInt16) : Meters ports := ⟨{}, registerPorts ports, mem_registerPorts ports⟩

variable (m : Meters ports)

theorem isSome_portCounters (p : Port ports) : (portCounters (some m.map) p.1).isSome = true :=
  Std.HashMap.mem_iff_isSome_getElem?.mp ((m.mem_map p.1).mpr p.2)

/-- What `port_counters` returns. -/
def port (p : Port ports) : PortCounters := (portCounters (some m.map) p.1).get (m.isSome_portCounters p)

def read : Key ports → ℕ
  | (none, f) => m.totals.get f
  | (some p, f) => (m.port p).get f

def add : Key ports × ℕ → Meters ports
  | ((none, f), n) => { m with totals := m.totals.add n f }
  | ((some p, f), n) =>
    { m with
      map := m.map.modify p.1 fun c => c.add n f
      mem_map := fun port => by rw [Std.HashMap.mem_modify, m.mem_map] }

theorem port_eq {p : Port ports} {c : PortCounters} (h : m.map[p.1]? = some c) : m.port p = c :=
  Option.get_of_eq_some _ h

theorem map_eq (p : Port ports) : m.map[p.1]? = some (m.port p) := (Option.some_get _).symm

/-- Adding to a counter of a port leaves the other ports. -/
theorem port_add (p q : Port ports) (f : Field) (n : ℕ) :
    (m.add ((some p, f), n)).port q = if p = q then (m.port q).add n f else m.port q := by
  apply port_eq
  show (m.map.modify p.1 fun c => c.add n f)[q.1]? = _
  rw [Std.HashMap.getElem?_modify]
  by_cases hpq : p = q
  · subst hpq
    rw [if_pos (beq_self_eq_true p.1), if_pos rfl, m.map_eq]
    rfl
  · rw [if_neg (by simpa using fun h => hpq (Subtype.ext h)), if_neg hpq, m.map_eq]

theorem read_add (e : Key ports × ℕ) (k : Key ports) :
    (m.add e).read k = m.read k + if e.1 = k then e.2 else 0 := by
  obtain ⟨⟨p | p, f⟩, n⟩ := e
  · obtain ⟨q | q, g⟩ := k
    · show (m.totals.add n f).get g = _
      rw [PortCounters.get_add]
      simp [read]
    · simp [read, add, port]
  · obtain ⟨q | q, g⟩ := k
    · simp [read, add]
    · show ((m.add ((some p, f), n)).port q).get g = (m.port q).get g + _
      rw [port_add]
      by_cases hpq : p = q
      · rw [if_pos hpq, PortCounters.get_add]
        simp [hpq]
      · rw [if_neg hpq]
        simp [hpq]

/-- All counters of the ports start at zero. -/
theorem registerPorts_getD (port : UInt16) : (registerPorts ports)[port]?.getD {} = {} := by
  have hfold : ∀ (ps : List UInt16) (map : Counters), map[port]?.getD {} = {} →
      (ps.foldl (fun map port => map.insertIfNew port {}) map)[port]?.getD {} = ({} : PortCounters) := by
    intro ps
    induction ps with
    | nil => exact fun _ hmap => hmap
    | cons p ps ih =>
      intro map hmap
      apply ih
      rw [Std.HashMap.getElem?_insertIfNew]
      split_ifs
      · rfl
      · exact hmap
  apply hfold
  rw [Std.HashMap.getElem?_empty]
  rfl

theorem read_zero (k : Key ports) : (zero ports).read k = 0 := by
  have hget : ∀ f, PortCounters.get {} f = 0 := fun f => by cases f <;> rfl
  obtain ⟨p | p, f⟩ := k
  · exact hget f
  · have hzero : (registerPorts ports)[p.1]?.getD {} = {} := registerPorts_getD p.1
    rw [show (registerPorts ports)[p.1]? = some ((zero ports).port p) from (zero ports).map_eq p] at hzero
    show ((zero ports).port p).get f = 0
    rw [show (zero ports).port p = {} from hzero]
    exact hget f

end Meters

/-- The counters as accounts. -/
def accounts (ports : List UInt16) : Accounts (Meters ports) (Key ports) where
  read := Meters.read
  add := Meters.add
  read_add := Meters.read_add

theorem accounts_zero {ports : List UInt16} (k : Key ports) :
    (accounts ports).read (Meters.zero ports) k = 0 :=
  Meters.read_zero k

/-! ### Recording -/

section Record

variable {ports : List UInt16} (p : Port ports)

/-- What `record_request` and `record_response` have in common: a counter of
messages and one of bytes. -/
def record (count bytes : Field) (n : ℕ) : List (Key ports × ℕ) :=
  [((none, count), 1), ((none, bytes), n), ((some p, count), 1), ((some p, bytes), n)]

def recordRequest (bytes : ℕ) : List (Key ports × ℕ) := record p .requests .requestBytes bytes

def recordResponse (bytes : ℕ) : List (Key ports × ℕ) := record p .responses .responseBytes bytes

variable {p}

theorem total_record {count bytes : Field} (n : ℕ) (f : Field) :
    total (none, f) (record p count bytes n) = (if count = f then 1 else 0) + (if bytes = f then n else 0) ∧
      total (some p, f) (record p count bytes n) = (if count = f then 1 else 0) + (if bytes = f then n else 0) := by
  simp [record]

/-- The counters of a connection's port are behind those of all traffic, by
one message at most, and so are the responses behind the requests. -/
structure InOrder (p : Port ports) (es : List (Key ports × ℕ)) : Prop where
  other : ∀ q, q ≠ p → ∀ f, total (some q, f) es = 0
  port_le : ∀ f, total (some p, f) es ≤ total (none, f) es
  le_port : total (none, .requests) es ≤ total (some p, .requests) es + 1 ∧
    total (none, .responses) es ≤ total (some p, .responses) es + 1
  responses_le : total (none, .responses) es ≤ total (none, .requests) es
  le_responses : total (none, .requests) es ≤ total (none, .responses) es + 1

/-- All of a log was counted for its port. -/
def Counted (p : Port ports) (es : List (Key ports × ℕ)) : Prop :=
  ∀ f, total (some p, f) es = total (none, f) es

/-- A log at every moment of its posting. -/
def Ordered (p : Port ports) (es : List (Key ports × ℕ)) : Prop := ∀ pre, pre <+: es → InOrder p pre

theorem Ordered.nil : Ordered p [] := by
  intro pre h
  rw [List.prefix_nil.mp h]
  exact ⟨fun _ _ _ => rfl, fun _ => le_rfl, ⟨Nat.zero_le _, Nat.zero_le _⟩, le_rfl, Nat.zero_le _⟩

/-- While a message is recorded. -/
theorem record_prefix {count bytes : Field} {n : ℕ} {ds : List (Key ports × ℕ)}
    (h : ds <+: record p count bytes n) :
    (∀ q, q ≠ p → ∀ f, total (some q, f) ds = 0) ∧ (∀ f, total (some p, f) ds ≤ total (none, f) ds) ∧
      (∀ f, f ≠ bytes → total (none, f) ds ≤ if count = f then 1 else 0) := by
  simp only [record, List.prefix_cons_iff, List.prefix_nil] at h
  rcases h with rfl | ⟨_, rfl, rfl | ⟨_, rfl, rfl | ⟨_, rfl, rfl | ⟨_, rfl, rfl⟩⟩⟩⟩
  all_goals
    refine ⟨fun q hq f => ?_, fun f => ?_, fun f hf => ?_⟩
    · simp [hq.symm]
    · simp
    · simp [hf.symm]

/-- Recording one more message, where the responses stay behind the requests by
one at most. -/
theorem Ordered.record {es : List (Key ports × ℕ)} (h : Ordered p es) (hc : Counted p es)
    {count bytes : Field} (hb : bytes ≠ .requests ∧ bytes ≠ .responses)
    (hres : total (none, .responses) es + (if count = .responses then 1 else 0) ≤ total (none, .requests) es)
    (hreq : total (none, .requests) es + (if count = .requests then 1 else 0) ≤
      total (none, .responses) es + 1) (n : ℕ) : Ordered p (es ++ Server.record p count bytes n) := by
  intro pre hpre
  rcases prefix_append_cases hpre with hpre | ⟨ds, hds, rfl⟩
  · exact h pre hpre
  · have hes := h es (List.prefix_refl es)
    obtain ⟨hother, hle, hnone⟩ := record_prefix hds
    have hreqs := hnone .requests hb.1.symm
    have hress := hnone .responses hb.2.symm
    have hcreq := hc .requests
    have hcres := hc .responses
    constructor
    · intro q hq f
      rw [total_append, hes.other q hq, hother q hq]
    · intro f
      rw [total_append, total_append]
      exact Nat.add_le_add (hes.port_le f) (hle f)
    all_goals
      simp only [total_append]
      split_ifs at * <;> omega

end Record

end Server
end Statico
