/-
# The protocol of a TLS connection

`load_server_config` offers the protocols, the handshake selects one of them,
and `serve_http` drives the connection by the `http2` option alone, in a copy
of its own in `tokio.rs` and in `mcp.rs`. With the option on, HTTP/1.1 is
offered but never spoken (`negotiated_iff`).

Key definitions: `alpnProtocols`, `select`, `serveHttp`, `TlsServer.accept`.
Key theorem: `negotiated_iff`.
-/
import Statico.Lib.Bytes

namespace Statico
namespace Startup

/-- The connection of hyper that drives an I/O stream. -/
inductive HttpConnection where
  | http1
  | http2
  deriving DecidableEq

def h2 : Bytes := ascii "h2"
def http11 : Bytes := ascii "http/1.1"

/-- `alpn_protocols` of `load_server_config`. -/
def alpnProtocols (http2 : Bool) : List Bytes := if http2 then [h2, http11] else [http11]

/-- The handshake: the first protocol of the server that the client offers. -/
def select (server client : List Bytes) : Option Bytes := server.find? (client.contains ·)

/-- The two copies of the accept path. -/
inductive TlsServer where
  /-- `tokio_srv` of `tokio.rs` -/
  | tokio
  /-- `handle_conn` of `mcp.rs` -/
  | mcp
  deriving DecidableEq

/-- `serve_http` of `tokio.rs`. -/
def tokioServeHttp (useHttp2 : Bool) : HttpConnection := if useHttp2 then .http2 else .http1

/-- `serve_http` of `mcp.rs`. -/
def mcpServeHttp (useHttp2 : Bool) : HttpConnection := if useHttp2 then .http2 else .http1

def TlsServer.serveHttp : TlsServer → Bool → HttpConnection
  | .tokio => tokioServeHttp
  | .mcp => mcpServeHttp

/-- A connection accepted with the option `http2`: the protocol selected, if
one is, and what drives the connection. -/
def TlsServer.accept (server : TlsServer) (http2 : Bool) (client : List Bytes) :
    Option Bytes × HttpConnection :=
  (select (alpnProtocols http2) client, server.serveHttp http2)

theorem serveHttp_eq (server : TlsServer) (useHttp2 : Bool) :
    server.serveHttp useHttp2 = if useHttp2 then .http2 else .http1 := by
  cases server <;> rfl

/-- What is selected for a server that offers both protocols. -/
theorem select_both {client : List Bytes} {p : Bytes} (h : select (alpnProtocols true) client = some p) :
    p = (if h2 ∈ client then h2 else http11) := by
  by_cases h1 : h2 ∈ client
  · simp [select, alpnProtocols, h1] at h
    rw [if_pos h1, h]
  · by_cases hc : http11 ∈ client
    · simp [select, alpnProtocols, h1, hc] at h
      rw [if_neg h1, h]
    · simp [select, alpnProtocols, h1, hc] at h

theorem select_one {client : List Bytes} {p : Bytes} (h : select (alpnProtocols false) client = some p) :
    p = http11 := by
  by_cases h1 : http11 ∈ client
  · simp [select, alpnProtocols, h1] at h
    exact h.symm
  · simp [select, alpnProtocols, h1] at h

/-- The protocol spoken is the one selected exactly if the option is off, or
the client offers `h2`. -/
theorem negotiated_iff (http2 : Bool) (client : List Bytes) (p : Bytes)
    (h : select (alpnProtocols http2) client = some p) :
    (∀ server : TlsServer, ((server.accept http2 client).2 = .http2 ↔ p = h2) ∧
      (p = http11 → (server.accept http2 client).2 = .http1)) ↔ http2 = false ∨ h2 ∈ client := by
  have hne : http11 ≠ h2 := by decide
  simp only [TlsServer.accept, serveHttp_eq]
  cases http2 with
  | false =>
    have hp := select_one h
    refine iff_of_true (fun _ => ⟨?_, fun _ => rfl⟩) (Or.inl rfl)
    simp [hp, hne]
  | true =>
    have hp := select_both h
    by_cases hc : h2 ∈ client
    · rw [if_pos hc] at hp
      refine iff_of_true (fun _ => ⟨iff_of_true rfl hp, fun he => ?_⟩) (Or.inr hc)
      exact absurd (he.symm.trans hp) hne
    · rw [if_neg hc] at hp
      refine iff_of_false (fun hs => ?_) (by simp [hc])
      have := (hs .tokio).2 hp
      cases this

/-- A client that offers both protocols. -/
theorem negotiated_both : (TlsServer.tokio.accept true [h2, http11]).2 = .http2 := by
  have hspoken := (negotiated_iff true [h2, http11] h2 (by decide)).mpr (Or.inr (by decide))
  exact (hspoken .tokio).1.mpr rfl

/-- A client that offers HTTP/1.1 only is spoken to in HTTP/2. -/
theorem negotiated_http11 : select (alpnProtocols true) [http11] = some http11 ∧
    ¬ (http11 = http11 → (TlsServer.tokio.accept true [http11]).2 = .http1) := by
  decide

end Startup
end Statico
