/-
# The counters of the ports

With `--meter` every port has counters, registered under the ports of the
command line before the workers start and looked up under the port a listener
is bound to. A port of its own number is bound under that number and found
(`portCounters_isSome`). Port 0 is registered under 0 but bound under a number
of the kernel's choice, and the lookup panics if that number is not among the
ports (`metering_registered_iff`).

Key definitions: `initPortCounters`, `portCounters`, `startup`, `Accepts`.
Key theorems: `mem_workers_iff`, `metering_registered_iff`.
-/
import Statico.Startup.Ports

namespace Statico
namespace Startup

/-- The counters of a port. Each of them is one number: the sum of its shards,
which only grow and are taken not to wrap around. -/
structure PortCounters where
  requests : ℕ := 0
  requestBytes : ℕ := 0
  responses : ℕ := 0
  responseBytes : ℕ := 0

abbrev Counters := Std.HashMap UInt16 PortCounters

/-- `map.entry(port).or_default()` for each of the ports. -/
def registerPorts (ports : List UInt16) : Counters :=
  ports.foldl (fun map port => map.insertIfNew port {}) ∅

/-- `init_port_counters`, on the cell `PORT_COUNTERS`, which is set once. -/
def initPortCounters (cell : Option Counters) (ports : List UInt16) : Option Counters :=
  cell.or (some (registerPorts ports))

/-- `port_counters`; both of its `expect`s may panic. -/
def portCounters (cell : Option Counters) (port : UInt16) : Option PortCounters := do
  let map ← cell
  map[port]?

/-- The options of the command line that matter here. -/
structure Options where
  threads : ℕ
  ports : List UInt16
  bindAll : Bool
  address : Option IpAddr

/-- `main` up to the workers: the cell of the counters, and the addresses of each worker. -/
def startup (opts : Options) : Option (Option Counters × List (List SocketAddr)) := do
  let cell := initPortCounters none opts.ports
  let chunks ← balancePorts opts.ports opts.threads opts.bindAll
  return (cell, addresses opts.address chunks)

/-- Binding to a port gives a listener on that port; to port 0, on some other. -/
def Binds (requested localPort : UInt16) : Prop :=
  if requested = 0 then localPort ≠ 0 else localPort = requested

instance (requested localPort : UInt16) : Decidable (Binds requested localPort) :=
  inferInstanceAs (Decidable (if requested = 0 then localPort ≠ 0 else localPort = requested))

/-- Some worker has a listener with this local port, and so may accept a
connection on it; the cell is what it looks the counters up in. -/
def Accepts (opts : Options) (cell : Option Counters) (localPort : UInt16) : Prop :=
  ∃ addrs, startup opts = some (cell, addrs) ∧ ∃ id < opts.threads, ∃ worker, addrs[id]? = some worker ∧
    ∃ a ∈ worker, Binds a.port localPort

section Registry

theorem mem_registerPorts (ports : List UInt16) (port : UInt16) :
    port ∈ registerPorts ports ↔ port ∈ ports := by
  have hfold : ∀ (ps : List UInt16) (map : Counters),
      port ∈ ps.foldl (fun map port => map.insertIfNew port {}) map ↔ port ∈ map ∨ port ∈ ps := by
    intro ps
    induction ps with
    | nil => simp
    | cons p ps ih =>
      intro map
      rw [List.foldl_cons, ih, Std.HashMap.mem_insertIfNew, List.mem_cons, beq_iff_eq]
      tauto
  rw [registerPorts, hfold]
  simp

/-- The lookup succeeds for the ports of the command line and no others. -/
theorem portCounters_isSome (ports : List UInt16) (port : UInt16) :
    (portCounters (initPortCounters none ports) port).isSome = true ↔ port ∈ ports := by
  rw [← mem_registerPorts, Std.HashMap.mem_iff_isSome_getElem?]
  rfl

end Registry

section Workers

variable {ports : List UInt16} {n : ℕ}

theorem mem_flatten_replicate {m : ℕ} (hm : 0 < m) (port : UInt16) :
    port ∈ (List.replicate m ports).flatten ↔ port ∈ ports := by
  rw [List.mem_flatten]
  simp only [List.mem_replicate]
  constructor
  · rintro ⟨l, ⟨-, rfl⟩, hp⟩
    exact hp
  · exact fun hp => ⟨ports, ⟨Nat.ne_of_gt hm, rfl⟩, hp⟩

/-- Balancing neither loses nor invents a port. -/
theorem mem_workers_iff (hne : ports ≠ []) (hn : 1 ≤ n) (bindAll : Bool) {lists : List (List UInt16)}
    (h : balancePorts ports n bindAll = some lists) (port : UInt16) :
    port ∈ lists.flatten ↔ port ∈ ports := by
  cases bindAll with
  | true =>
    cases h
    exact mem_flatten_replicate hn port
  | false =>
    rw [balancePorts_eq hne hn] at h
    cases h
    rw [flatten_evenPieces _ hn, expandPorts_eq]
    exact mem_flatten_replicate (lt_of_lt_of_le Nat.one_pos (le_max_left _ _)) port

theorem balancePorts_length (hne : ports ≠ []) (hn : 1 ≤ n) (bindAll : Bool) :
    ∃ lists, balancePorts ports n bindAll = some lists ∧ lists.length = n := by
  cases bindAll with
  | true => exact ⟨_, rfl, List.length_replicate⟩
  | false => exact ⟨_, balancePorts_eq hne hn, length_pieces _ _ _⟩

/-- A connection may be accepted on a port exactly if binding to a port of the
command line may give it. -/
theorem accepts_iff (opts : Options) (hne : opts.ports ≠ []) (hn : 1 ≤ opts.threads)
    {cell : Option Counters} {localPort : UInt16} : Accepts opts cell localPort ↔
      cell = initPortCounters none opts.ports ∧ ∃ p ∈ opts.ports, Binds p localPort := by
  obtain ⟨lists, hb, hlen⟩ := balancePorts_length hne hn opts.bindAll
  have hmem := mem_workers_iff hne hn opts.bindAll hb
  have hst : startup opts = some (initPortCounters none opts.ports, addresses opts.address lists) := by
    simp [startup, hb]
  unfold Accepts
  rw [hst]
  constructor
  · rintro ⟨addrs, h, id, -, worker, hw, a, ha, hbind⟩
    cases h
    obtain ⟨slice, hs, rfl⟩ : ∃ slice ∈ lists, slice.map (socketAddr opts.address) = worker := by
      have := List.mem_of_getElem? hw
      simpa [addresses] using this
    obtain ⟨p, hp, rfl⟩ := List.mem_map.mp ha
    rw [socketAddr_port] at hbind
    exact ⟨rfl, p, (hmem p).mp (List.mem_flatten.mpr ⟨slice, hs, hp⟩), hbind⟩
  · rintro ⟨rfl, p, hp, hbind⟩
    obtain ⟨slice, hs, hps⟩ := List.mem_flatten.mp ((hmem p).mpr hp)
    obtain ⟨id, hid, rfl⟩ := List.getElem_of_mem hs
    refine ⟨_, rfl, id, by omega, lists[id].map (socketAddr opts.address), ?_, socketAddr opts.address p,
      List.mem_map_of_mem hps, by rwa [socketAddr_port]⟩
    simp [addresses, List.getElem?_eq_getElem hid]

end Workers

/-- No lookup of the counters panics exactly if port 0 is not among the ports,
or the kernel has no port to choose that is not. -/
theorem metering_registered_iff (opts : Options) (hne : opts.ports ≠ []) (hn : 1 ≤ opts.threads) :
    (∀ cell localPort, Accepts opts cell localPort → (portCounters cell localPort).isSome = true) ↔
      0 ∉ opts.ports ∨ ∀ p, p ≠ 0 → p ∈ opts.ports := by
  simp only [accepts_iff opts hne hn]
  constructor
  · intro h
    by_cases h0 : 0 ∈ opts.ports
    · right
      intro p hp
      -- the kernel chose `p` for port 0
      have := h _ p ⟨rfl, 0, h0, hp⟩
      rwa [portCounters_isSome] at this
    · exact Or.inl h0
  · rintro h cell localPort ⟨rfl, p, hp, hbind⟩
    rw [portCounters_isSome]
    unfold Binds at hbind
    split_ifs at hbind with hp0
    · rcases h with h | h
      · rw [hp0] at hp
        exact absurd hp h
      · exact h localPort hbind
    · rw [hbind]
      exact hp

/-- One worker on port 80. -/
theorem metering_registered_eighty : Accepts ⟨1, [80], false, none⟩ (initPortCounters none [80]) 80 ∧
    (portCounters (initPortCounters none [80]) 80).isSome = true := by
  have ha : Accepts ⟨1, [80], false, none⟩ (initPortCounters none [80]) 80 :=
    (accepts_iff ⟨1, [80], false, none⟩ (List.cons_ne_nil _ _) le_rfl).mpr
      ⟨rfl, 80, List.mem_singleton.mpr rfl, by decide⟩
  have hregistered := (metering_registered_iff ⟨1, [80], false, none⟩ (List.cons_ne_nil _ _) le_rfl).mpr
    (Or.inl (by decide))
  exact ⟨ha, hregistered _ _ ha⟩

/-- Port 0, bound as 32768. -/
theorem metering_unregistered_zero : ¬ ∀ cell localPort, Accepts ⟨1, [0], false, none⟩ cell localPort →
    (portCounters cell localPort).isSome = true := by
  intro h
  have ha : Accepts ⟨1, [0], false, none⟩ (initPortCounters none [0]) 32768 :=
    (accepts_iff ⟨1, [0], false, none⟩ (List.cons_ne_nil _ _) le_rfl).mpr
      ⟨rfl, 0, List.mem_singleton.mpr rfl, by decide⟩
  have hlookup := h _ _ ha
  rw [portCounters_isSome] at hlookup
  exact absurd hlookup (by decide)

end Startup
end Statico
