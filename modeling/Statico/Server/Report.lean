/-
# The meter and the report

The counters are read while the connections go on adding to them. The meter
reads those of all traffic once a second and prints at what rate they grew; the
report at the end reads them, and then those of each port. Neither sees all
counters at one moment, and as a counter is spread over shards, not even one.
What the meter takes for the slots still adds up (`meter_adds_up`), and the
report is off by one message for each connection at most
(`report_consistent`), whatever kind the connections are of.

Key definitions: `readCounters`, `Metering`, `reportKeys`.
Key theorems: `meter_adds_up`, `report_consistent`.
-/
import Statico.Server.Machine

namespace Statico

open Startup
open PortCounters (Field)

namespace Server

section Readers

variable {σ : Type} (k : Kind σ) {ports : List UInt16}

def fields : List Field := [.requests, .requestBytes, .responses, .responseBytes]

abbrev Readings : State σ ports → List (Key ports) → List ℕ → State σ ports → Prop :=
  Ledger.Readings (accounts ports) (Accepted k) (Move k)

/-- The counters that `read_counters` reads, in order. -/
def readCounters (ports : List UInt16) : List (Key ports) := fields.map fun f => (none, f)

/-! ### The meter -/

/-- What was added in a slot, from the counters at its start and its end. The
meter prints it divided by how long the slot took. -/
def slot (prev cur : Field → ℕ) (f : Field) : ℕ := cur f - prev f

/-- The meter's loop: the counters it read first and last, and the slots
between. -/
inductive Metering (l : State σ ports) (a : Field → ℕ) :
    (Field → ℕ) → List (Field → ℕ) → State σ ports → Prop
  | start {m : State σ ports} : Readings k l (readCounters ports) (fields.map a) m → Metering l a a [] m
  | slot {prev c : Field → ℕ} {slots : List (Field → ℕ)} {m n : State σ ports} :
      Metering l a prev slots m → Readings k m (readCounters ports) (fields.map c) n →
      Metering l a c (slots ++ [slot prev c]) n

variable {k} {l m : State σ ports}

theorem mem_fields (f : Field) : f ∈ fields := by
  cases f <;> decide

/-- The requests are read before the responses. -/
theorem readings_lag (hl : Reachable k l) {r : Key ports → ℕ} {after : List (Key ports)}
    (h : Readings k l ((none, .requests) :: after) (((none, .requests) :: after).map r) m)
    (hafter : (none, .responses) ∈ after) :
    r (none, .requests) ≤ r (none, .responses) + m.parties.length := by
  obtain ⟨n, hln, hnm, hr, hle⟩ := h.values.2 [] (none, .requests) after rfl
  calc r (none, .requests) ≤ n.accounts.read (none, .requests) := hr
    _ ≤ n.accounts.read (none, .responses) + n.parties.length :=
      (reachable_consistent (Relation.ReflTransGen.trans hl hln)).le_responses
    _ ≤ r (none, .responses) + m.parties.length :=
      Nat.add_le_add (hle (none, .responses) hafter) hnm.length_mono

/-- A reading of `read_counters` as one of all counters. -/
theorem map_readCounters (c : Field → ℕ) : fields.map c = (readCounters ports).map fun a => c a.2 := by
  rw [readCounters, List.map_map]
  rfl

/-- Every counter is read. -/
theorem readCounters_between {c : Field → ℕ}
    (h : Readings k l (readCounters ports) (fields.map c) m) (f : Field) :
    l.accounts.read (none, f) ≤ c f ∧ c f ≤ m.accounts.read (none, f) := by
  rw [map_readCounters] at h
  exact h.values.1 (none, f) (List.mem_map_of_mem (mem_fields f))

theorem Metering.run {a c : Field → ℕ} {slots : List (Field → ℕ)} (h : Metering k l a c slots m) :
    Run k l m := by
  induction h with
  | start h => exact h.run
  | slot _ h ih => exact ih.trans h.run

/-- No slot is cut off at zero. -/
theorem Metering.sum {a c : Field → ℕ} {slots : List (Field → ℕ)} (h : Metering k l a c slots m)
    (f : Field) : l.accounts.read (none, f) ≤ a f ∧ a f + (slots.map fun d => d f).sum = c f ∧
      c f ≤ m.accounts.read (none, f) := by
  induction h with
  | start h =>
    obtain ⟨hl, hm⟩ := readCounters_between h f
    exact ⟨hl, rfl, hm⟩
  | @slot prev c slots m n _ h ih =>
    obtain ⟨hm, hc⟩ := readCounters_between h f
    obtain ⟨hl, hsum, hprev⟩ := ih
    have hslot : prev f + Server.slot prev c f = c f := Nat.add_sub_of_le (le_trans hprev hm)
    rw [List.map_append, List.sum_append, List.map_singleton, List.sum_singleton]
    exact ⟨hl, by omega, hc⟩

theorem Metering.le_responses {a c : Field → ℕ} {slots : List (Field → ℕ)} (h : Metering k l a c slots m)
    (hl : Reachable k l) : c .requests ≤ c .responses + m.parties.length := by
  have hlag : ∀ {m n : State σ ports} {c : Field → ℕ}, Reachable k m →
      Readings k m (readCounters ports) (fields.map c) n → c .requests ≤ c .responses + n.parties.length := by
    intro m n c hm h
    rw [map_readCounters] at h
    exact readings_lag (r := fun a => c a.2) hm h (by simp)
  cases h with
  | start h => exact hlag hl h
  | slot hprev h => exact hlag (Relation.ReflTransGen.trans hl hprev.run) h

/-- The slots add up to what was added between the first reading and the last,
none was cut off, and their requests exceed their responses by one for each
connection at most, once those read first are taken into account. -/
theorem meter_adds_up (k : Kind σ) (ports : List UInt16) (l m : State σ ports) (hl : Reachable k l)
    (a c : Field → ℕ) (slots : List (Field → ℕ)) (h : Metering k l a c slots m) :
    (∀ f, l.accounts.read (none, f) ≤ a f ∧ a f + (slots.map fun d => d f).sum = c f ∧
      c f ≤ m.accounts.read (none, f)) ∧
    a .requests + (slots.map fun d => d .requests).sum ≤
      a .responses + (slots.map fun d => d .responses).sum + m.parties.length := by
  have hreq := h.sum .requests
  have hres := h.sum .responses
  have hlag := h.le_responses hl
  exact ⟨h.sum, by omega⟩

/-! ### The report -/

/-- The ports of the map, sorted. -/
def sortedPorts (ports : List UInt16) : List (Port ports) :=
  ((registerPorts ports).keys.mergeSort fun p q => decide (p ≤ q)).attach.map fun p =>
    ⟨p.1, (mem_registerPorts ports p.1).mp (Std.HashMap.mem_keys.mp (List.mem_mergeSort.mp p.2))⟩

/-- The counters that `print_final_report` reads, in order. -/
def reportKeys (ports : List UInt16) (portStats : Bool) : List (Key ports) :=
  readCounters ports ++
    if portStats then (sortedPorts ports).flatMap fun q => fields.map fun f => (some q, f) else []

theorem mem_sortedPorts (q : Port ports) : q ∈ sortedPorts ports := by
  have hq : q.1 ∈ (registerPorts ports).keys.mergeSort fun p q => decide (p ≤ q) :=
    List.mem_mergeSort.mpr (Std.HashMap.mem_keys.mpr ((mem_registerPorts ports q.1).mpr q.2))
  exact List.mem_map.mpr ⟨⟨q.1, hq⟩, List.mem_attach _ _, rfl⟩

/-- Every port is reported once. -/
theorem nodup_sortedPorts : (sortedPorts ports).Nodup := by
  have hkeys : (registerPorts ports).keys.Nodup := Std.HashMap.nodup_keys
  have hsorted := (List.mergeSort_perm (registerPorts ports).keys fun p q => decide (p ≤ q)).nodup_iff.mpr hkeys
  apply (List.nodup_attach.mpr hsorted).map
  intro p q hpq
  have hval : p.1 = q.1 := congrArg (fun x : Port ports => x.1) hpq
  exact Subtype.ext hval

theorem sum_sortedPorts (g : Port ports → ℕ) : ((sortedPorts ports).map g).sum = ∑ q, g q := by
  rw [← List.sum_toFinset g nodup_sortedPorts]
  congr 1
  exact Finset.eq_univ_iff_forall.mpr fun q => List.mem_toFinset.mpr (mem_sortedPorts q)

theorem port_mem_reportKeys (q : Port ports) (f : Field) :
    (some q, f) ∈ (sortedPorts ports).flatMap fun q => fields.map fun f => ((some q, f) : Key ports) :=
  List.mem_flatMap.mpr ⟨q, mem_sortedPorts q, List.mem_map_of_mem (mem_fields f)⟩

variable {r : Key ports → ℕ} {portStats : Bool}

/-- Messages of all traffic are read before those of the ports. -/
theorem report_le_ports (hl : Reachable k l)
    (h : Readings k l (reportKeys ports true) ((reportKeys ports true).map r) m) {f : Field}
    (hf : f = .requests ∨ f = .responses) : r (none, f) ≤ ∑ q, r (some q, f) + m.parties.length := by
  obtain ⟨before, after, hsplit, hafter⟩ : ∃ before after, reportKeys ports true = before ++ (none, f) :: after ∧
      ∀ q, (some q, f) ∈ after := by
    have hports := fun q : Port ports => port_mem_reportKeys q f
    rcases hf with rfl | rfl
    · exact ⟨[], _, rfl, fun q => by simp [hports q]⟩
    · exact ⟨[(none, .requests), (none, .requestBytes)], _, rfl, fun q => by simp [hports q]⟩
  obtain ⟨n, hln, hnm, hr, hle⟩ := h.values.2 _ _ _ hsplit
  calc r (none, f) ≤ n.accounts.read (none, f) := hr
    _ ≤ ∑ q, n.accounts.read (some q, f) + n.parties.length :=
      (reachable_consistent (Relation.ReflTransGen.trans hl hln)).le_ports f hf
    _ ≤ ∑ q, r (some q, f) + m.parties.length :=
      Nat.add_le_add (Finset.sum_le_sum fun q _ => hle _ (hafter q)) hnm.length_mono

/-- The report, read while the connections go on: every number lies between what
its counter held at the start and at the end, the requests exceed the responses
and the messages of all traffic those of the ports by one for each connection
at most, and the ports never exceed what all traffic came to. If nothing was
left to post when it started and nothing was added meanwhile, the ports add
up. -/
theorem report_consistent (k : Kind σ) (ports : List UInt16) (portStats : Bool) (l m : State σ ports)
    (hl : Reachable k l) (r : Key ports → ℕ)
    (h : Readings k l (reportKeys ports portStats) ((reportKeys ports portStats).map r) m) :
    (∀ a ∈ reportKeys ports portStats, l.accounts.read a ≤ r a ∧ r a ≤ m.accounts.read a) ∧
    r (none, .requests) ≤ r (none, .responses) + m.parties.length ∧
    (portStats = true →
      (∀ f, f = .requests ∨ f = .responses →
        r (none, f) ≤ ((sortedPorts ports).map fun q => r (some q, f)).sum + m.parties.length) ∧
      (∀ f, ((sortedPorts ports).map fun q => r (some q, f)).sum ≤ m.accounts.read (none, f)) ∧
      (l.Idle → (∀ f, m.accounts.read (none, f) = l.accounts.read (none, f)) →
        ∀ f, r (none, f) = ((sortedPorts ports).map fun q => r (some q, f)).sum)) := by
  have hbetween := h.values.1
  refine ⟨hbetween, readings_lag hl h (by simp [fields]), ?_⟩
  rintro rfl
  have hnone : ∀ f, (none, f) ∈ reportKeys ports true := fun f =>
    List.mem_append_left _ (List.mem_map_of_mem (mem_fields f))
  have hsome : ∀ q f, (some q, f) ∈ reportKeys ports true := fun q f =>
    List.mem_append_right _ (port_mem_reportKeys q f)
  have hle : ∀ f, ∑ q, r (some q, f) ≤ m.accounts.read (none, f) := fun f =>
    le_trans (Finset.sum_le_sum fun q _ => (hbetween _ (hsome q f)).2)
      ((reachable_consistent (Relation.ReflTransGen.trans hl h.run)).ports_le f)
  simp only [sum_sortedPorts]
  refine ⟨fun f hf => report_le_ports hl h hf, hle, fun hidle hsame f => le_antisymm ?_ ?_⟩
  · calc r (none, f) ≤ m.accounts.read (none, f) := (hbetween _ (hnone f)).2
      _ = ∑ q, l.accounts.read (some q, f) := by rw [hsame f, read_rest_none hl hidle f]
      _ ≤ ∑ q, r (some q, f) := Finset.sum_le_sum fun q _ => (hbetween _ (hsome q f)).1
  · calc ∑ q, r (some q, f) ≤ l.accounts.read (none, f) := hsame f ▸ hle f
      _ ≤ r (none, f) := (hbetween _ (hnone f)).1

/-- Reading counters in one state, at the end of a run. -/
theorem readings_later (h : Run k l m) (ks : List (Key ports)) : Readings k l ks (ks.map m.accounts.read) m := by
  induction ks generalizing l with
  | nil => exact .nil h
  | cons a ks ih => exact .cons h .refl le_rfl le_rfl (ih .refl)

end Readers

end Server
end Statico
