/-
# Serving with hyper

hyper gives the requests of a connection to a service one after another. The
services of `tokio` and `smol` and that of the mock record a request once they
have read it, and the response once they have built it. If none can be built
the connection ends. So what holds of the counters with the loops holds here
too, and between requests the counters of a port come to what was read and
what hyper writes: for the mock exactly (`mock_counted`), for the others but
for what hyper leaves out, which they record (`services_counted`).

Key definitions: `Dialogue`, `Service`, `Service.kind`, `asked`,
`hyperService`, `unsent`, `mockService`.
Key theorems: `Service.read_rest`, `services_counted`, `mock_counted`.
-/
import Statico.Http.Session
import Statico.Mcp.Session
import Statico.Server.Loops

namespace Statico

open Startup
open PortCounters (Field)

namespace Server

/-! ### Services -/

/-- The requests of a connection that were answered, and the one that is being
answered. -/
structure Dialogue (Q : Type) where
  answered : List Q
  current : Option Q

/-- Whether a service records, and the sizes it records for a request and its
response; it has no response where none can be built. -/
structure Service (Q : Type) where
  meter : Bool
  size : Q → ℕ
  reply : Q → Option ℕ

namespace Service

variable {Q : Type} (v : Service Q)

inductive Step : Dialogue Q → Dialogue Q → Prop
  | request {as : List Q} {q : Q} : Step ⟨as, none⟩ ⟨as, some q⟩
  | respond {as : List Q} {q : Q} {n : ℕ} : v.reply q = some n → Step ⟨as, some q⟩ ⟨as ++ [q], none⟩

def recorder : Recorder (Dialogue Q) where
  Starts d := d = ⟨[], none⟩
  Step := v.Step
  requests d := if v.meter then (d.answered ++ d.current.toList).map v.size else []
  responses d := if v.meter then d.answered.filterMap v.reply else []

variable {v} {d : Dialogue Q}

/-- Every request answered has a response. -/
theorem length_replies (h : v.recorder.Reachable d) :
    (d.answered.filterMap v.reply).length = d.answered.length := by
  apply h.induction (P := fun d => (d.answered.filterMap v.reply).length = d.answered.length)
  · rintro _ rfl
    rfl
  · intro d e hd hst
    cases hst with
    | request => exact hd
    | @respond as q n hn =>
      have hq : [q].filterMap v.reply = [n] := by simp [hn]
      rw [List.filterMap_append, hq, List.length_append, List.length_append, hd]
      rfl

variable (v) in
/-- The connections of a service. -/
def kind : Kind (Dialogue Q) where
  toRecorder := v.recorder
  fresh d h := by
    obtain rfl : d = ⟨[], none⟩ := h
    simp [recorder]
  turn d e hd hst := by
    have hlen := length_replies hd
    by_cases hm : v.meter = true
    · cases hst with
      | @request as q =>
        refine .request (n := v.size q) ?_ rfl ?_
        · simp [recorder, hm]
        · simpa [recorder, hm] using hlen
      | @respond as q n hn =>
        refine .response (n := n) ?_ ?_ ?_
        · simp [recorder, hm]
        · simp [recorder, hm, hn]
        · simpa [recorder, hm] using hlen
    · exact .quiet (by simp [recorder, hm]) (by simp [recorder, hm])

/-- A connection on which one request was answered. -/
theorem reachable_one {q : Q} {n : ℕ} (h : v.reply q = some n) : v.kind.Reachable ⟨[q], none⟩ :=
  ⟨_, rfl, .tail (.single .request) (.respond h)⟩

/-- What was recorded between requests. -/
theorem counted_quiet (hm : v.meter = true) (h : v.kind.Reachable d) (hd : d.current = none) :
    v.kind.counted d .requests = d.answered.length ∧
    v.kind.counted d .requestBytes = (d.answered.map v.size).sum ∧
    v.kind.counted d .responses = d.answered.length ∧
    v.kind.counted d .responseBytes = (d.answered.filterMap v.reply).sum := by
  have hq : v.kind.requests d = d.answered.map v.size := by
    show (if v.meter then (d.answered ++ d.current.toList).map v.size else []) = _
    rw [if_pos hm, hd, Option.toList_none, List.append_nil]
  have hr : v.kind.responses d = d.answered.filterMap v.reply := if_pos hm
  refine ⟨?_, ?_, ?_, ?_⟩
  · rw [Recorder.counted, hq, List.length_map]
  · rw [Recorder.counted, hq]
  · rw [Recorder.counted, hr]
    exact length_replies h
  · rw [Recorder.counted, hr]

end Service

section Rest

variable {Q : Type} {ports : List UInt16}

/-- The requests answered on a port. -/
def asked (l : State (Dialogue Q) ports) (q : Port ports) : List Q :=
  (onPort (l.parties.map Party.state) q).flatMap Dialogue.answered

/-- With nothing left to post and no request being answered, the counters of a
port are those of the requests answered on it. -/
theorem Service.read_rest {v : Service Q} (hm : v.meter = true) {l : State (Dialogue Q) ports}
    (h : Reachable v.kind l) (hi : l.Idle) (hq : ∀ p ∈ l.parties, p.state.2.current = none) (q : Port ports) :
    l.accounts.read (some q, .requests) = (asked l q).length ∧
    l.accounts.read (some q, .requestBytes) = ((asked l q).map v.size).sum ∧
    l.accounts.read (some q, .responses) = l.accounts.read (some q, .requests) ∧
    l.accounts.read (some q, .responseBytes) = ((asked l q).filterMap v.reply).sum := by
  have hnone : ∀ d, (q, d) ∈ l.parties.map Party.state → d.current = none := by
    intro d hmem
    obtain ⟨p, hp, hpd⟩ := List.mem_map.mp hmem
    have hnone := hq p hp
    rwa [hpd] at hnone
  have hcounted := fun d hd hmem => counted_quiet hm hd (hnone d hmem)
  have hrequests := read_rest_of h hi q .requests fun d hd hmem => (hcounted d hd hmem).1
  have hbytes := read_rest_of h hi q .requestBytes fun d hd hmem => (hcounted d hd hmem).2.1
  have hresponses := read_rest_of h hi q .responses fun d hd hmem => (hcounted d hd hmem).2.2.1
  have hreplies := read_rest_of h hi q .responseBytes fun d hd hmem => (hcounted d hd hmem).2.2.2
  have hsum : ∀ (ds : List (Dialogue Q)) (g : List Q → List ℕ), (∀ as bs, g (as ++ bs) = g as ++ g bs) →
      g [] = [] → (ds.map fun d => (g d.answered).sum).sum = (g (ds.flatMap Dialogue.answered)).sum := by
    intro ds g happ hnil
    induction ds with
    | nil => rw [List.flatMap_nil, hnil]; rfl
    | cons d ds ih =>
      rw [List.map_cons, List.sum_cons, ih, List.flatMap_cons, happ, List.sum_append]
  refine ⟨?_, ?_, hresponses.trans hrequests.symm, ?_⟩
  · rw [hrequests, asked, List.length_flatMap]
  · rw [hbytes]
    exact hsum _ (List.map v.size) (fun _ _ => List.map_append) rfl
  · rw [hreplies]
    exact hsum _ (List.filterMap v.reply) (fun _ _ => List.filterMap_append) rfl

/-- A server with one connection, on which one request was answered. -/
theorem server_one {v : Service Q} (p : Port ports) {a : Q} {n : ℕ} (h : v.reply a = some n) :
    ∃ l : State (Dialogue Q) ports, Reachable v.kind l ∧ l.Idle ∧ (∀ p ∈ l.parties, p.state.2.current = none) ∧
      asked l p = [a] := by
  obtain ⟨l, hl, hidle, hstate⟩ := reachable_client p (Service.reachable_one h)
  refine ⟨l, hl, hidle, fun p hp => ?_, by simp [asked, hstate, onPort]⟩
  have hmem := List.mem_map_of_mem (f := Party.state) hp
  rw [hstate, List.mem_singleton] at hmem
  rw [hmem]

end Rest

/-! ### The services of tokio and smol -/

section Hyper

open Http Http1 Conn

variable {map : HeaderMap} {rt : HyperRuntime} {hyper : HyperServer} {config : ServerConfig}

/-- What they record for a request, with its body if it could be collected;
`reason` is `canonical_reason`. -/
def hyperService (map : HeaderMap) (rt : HyperRuntime) (reason : ℕ → Option Bytes) (config : ServerConfig)
    (meter : Bool) : Service (HttpRequest × Option Bytes) where
  meter := meter
  size a := requestBytesTotal a.1 a.2
  reply a := recordedResponse map rt reason a.1 config

/-- What is recorded and not sent: the body where none is expected, and after a
`HEAD` the length of an empty one. -/
def unsent (config : ServerConfig) (isHead : Bool) : ℕ :=
  if config.body ≠ [] then if Bodiless isHead config.status then config.body.length else 0
  else if isHead = true ∧ canHaveContentLength config.status = true then headersSize [contentLengthField 0]
  else 0

/-- The body that is sent, and what is recorded of it without being sent. -/
theorem sentBody_length (hc : Custom config.headers) {r : HttpResponse} (h : serviceResponse map config = some r)
    {isHead : Bool} {wire : Bytes} (hsent : SentBody isHead r (fullFrames r.body) wire) :
    wire.length + unsent config isHead =
      config.body.length + if addsContentLength r = true ∧ isHead = true then 19 else 0 := by
  obtain ⟨-, hstatus, hbody⟩ := serviceResponse_some h
  have hframing := serviceResponse_framing hc h
  have hno : ¬ InChunks r.headers := by
    by_cases hb : r.body = []
    · rw [if_pos hb] at hframing
      exact not_inChunks_nil hframing
    · rw [if_neg hb] at hframing
      exact (contentLength_framing hframing).2
  have hadds : addsContentLength r = true ↔ canHaveContentLength config.status = true ∧ config.body = [] := by
    rw [adds_iff, hframing, hstatus, hbody]
    simp
  have hwire : wire.length = if Bodiless isHead config.status then 0 else config.body.length := by
    rw [← hstatus, ← hbody]
    split_ifs with hb
    · rw [hsent.eq_nil hb, List.length_nil]
    · rw [hsent.eq_flatten hb hno, fullFrames_flatten]
  rw [hwire, unsent]
  by_cases hb : config.body = []
  · have hadded : addsContentLength r = true ∧ isHead = true ↔
        isHead = true ∧ canHaveContentLength config.status = true := by
      rw [hadds, and_iff_left hb, and_comm]
    have hfield : headersSize [contentLengthField 0] = 19 := by decide
    rw [if_neg (not_not.mpr hb), hb, hfield, List.length_nil, ite_self]
    simp only [hadded]
  · have hnone : ¬ (addsContentLength r = true ∧ isHead = true) := fun h => hb (hadds.mp h.1).2
    rw [if_pos hb, if_neg hnone]
    split_ifs
    · exact Nat.zero_add _
    · rfl

/-- What is recorded in a visit. -/
theorem recorded_visit (h200 : 200 ≤ config.status) (h999 : config.status ≤ 999) (hc : Custom config.headers)
    (hl : Lasting config.headers) (hreason : hyper.reason config.status ≠ none) (rt : HyperRuntime)
    (t : Visit map hyper config) :
    recordedResponse map rt hyper.reason t.req config = some (t.text.length + unsent config t.req.isHead) := by
  obtain ⟨reason, hr⟩ := Option.ne_none_iff_exists'.mp hreason
  obtain ⟨hstatus, hbody, hadds⟩ := serviceResponse_adds t.built
  obtain ⟨d⟩ := hyper.documented t.plain (regular_service h200 h999 hc hl t.built t.req.isHead) t.writes
  rw [hstatus, hr, Option.getD_some] at d
  have hlength := d.length_text (by omega) (by omega) (n := config.body.length) fun h => by
    rw [← hbody, hadds h]
    rfl
  have hsent := sentBody_length hc t.built d.sent
  have hversion : rt.version t.req.version = .http11 := by rw [t.plain.version, rt.version_http11]
  have hrecorded : recordedResponse map rt hyper.reason t.req config =
      some (responseHeadSize .http11 (some reason) t.response config.body.length + config.body.length) := by
    rw [recordedResponse, t.built, ← hr, ← hstatus, ← hversion]
    rfl
  rw [hrecorded, Option.some_inj]
  omega

/-- At every moment the counters are consistent. With nothing left to post and
no request being answered, those of a port are the sizes of the requests
answered on it and of what hyper writes for them, and of what it leaves out.
Where no response can be built none is counted, and each connection has one
request at most. -/
theorem services_counted (map : HeaderMap) (rt : HyperRuntime) (hyper : HyperServer) (config : ServerConfig)
    (h200 : 200 ≤ config.status) (h999 : config.status ≤ 999) (hc : Custom config.headers)
    (hl : Lasting config.headers) (hreason : hyper.reason config.status ≠ none) (ports : List UInt16)
    (l : State (Dialogue (HttpRequest × Option Bytes)) ports)
    (h : Reachable (hyperService map rt hyper.reason config true).kind l) :
    Consistent l ∧
    (l.Idle → (∀ p ∈ l.parties, p.state.2.current = none) → ∀ q,
      l.accounts.read (some q, .requests) = (asked l q).length ∧
      l.accounts.read (some q, .requestBytes) = ((asked l q).map fun a => requestBytesTotal a.1 a.2).sum ∧
      l.accounts.read (some q, .responses) = l.accounts.read (some q, .requests) ∧
      ∀ ts : List (Visit map hyper config), ts.map (fun t => (t.req, t.body)) = asked l q →
        l.accounts.read (some q, .responseBytes) =
          (ts.map Visit.text).flatten.length + (ts.map fun t => unsent config t.req.isHead).sum) ∧
    (serviceResponse map config = none →
      l.accounts.read (none, .responses) = 0 ∧ l.accounts.read (none, .requests) ≤ l.parties.length) := by
  have hconsistent := reachable_consistent h
  refine ⟨hconsistent, fun hi hquiet q => ?_, fun hnone => ?_⟩
  · obtain ⟨h1, h2, h3, h4⟩ := Service.read_rest rfl h hi hquiet q
    refine ⟨h1, h2, h3, fun ts hts => ?_⟩
    have hreply : (asked l q).filterMap (hyperService map rt hyper.reason config true).reply =
        ts.map fun t => t.text.length + unsent config t.req.isHead := by
      rw [← hts, List.filterMap_map, ← List.filterMap_eq_map]
      exact List.filterMap_congr fun t _ => recorded_visit h200 h999 hc hl hreason rt t
    rw [h4, hreply, List.sum_map_add, List.length_flatten, List.map_map]
    rfl
  · -- no request is ever answered
    have hzero : l.accounts.read (none, .responses) = 0 := by
      refine (read_off h .responses fun d hd => ?_).1
      have hreply : ∀ a, (hyperService map rt hyper.reason config true).reply a = none := fun a => by
        show recordedResponse map rt hyper.reason a.1 config = none
        rw [recordedResponse, hnone]
        rfl
      have hnil : d.answered.filterMap (hyperService map rt hyper.reason config true).reply = [] :=
        List.filterMap_eq_nil_iff.mpr fun a _ => hreply a
      show (d.answered.filterMap (hyperService map rt hyper.reason config true).reply).length = 0
      rw [hnil]
      rfl
    have hle := hconsistent.le_responses
    rw [hzero, Nat.zero_add] at hle
    exact ⟨hzero, hle⟩

/-- After a `HEAD` the body, of one byte, is recorded and not sent. -/
theorem services_counted_head : ∃ l : State (Dialogue (HttpRequest × Option Bytes)) [80],
    Reachable (hyperService plainHeaders .tokio sampleReason sampleConfig true).kind l ∧
      l.accounts.read (some eighty, .requests) = 1 ∧
      l.accounts.read (some eighty, .responseBytes) = (sampleVisit "HEAD").text.length + 1 := by
  obtain ⟨l, hl, hidle, hquiet, hasked⟩ := server_one
    (v := hyperService plainHeaders .tokio sampleReason sampleConfig true) eighty
    (a := ((sampleVisit "HEAD").req, (sampleVisit "HEAD").body))
    (recorded_visit (by decide) (by decide) sample_custom sample_lasting (by decide) .tokio (sampleVisit "HEAD"))
  obtain ⟨h1, -, -, h4⟩ := (services_counted plainHeaders .tokio sampleServer sampleConfig (by decide) (by decide)
    sample_custom sample_lasting (by decide) [80] l hl).2.1 hidle hquiet eighty
  rw [hasked] at h1 h4
  have h4 := h4 [sampleVisit "HEAD"] rfl
  rw [List.map_singleton, List.map_singleton, List.flatten_singleton, List.sum_singleton] at h4
  exact ⟨l, hl, h1, h4⟩

end Hyper

/-! ### The service of the mock -/

section Mock

open Http Http1 Mcp

variable {F : Type}

/-- What `handle_conn` records in a round. -/
def mockService (hyper : HyperServer) (full : FullOf F) (conn : ConnConfig) : Service (Round hyper full conn) where
  meter := conn.meter
  size t := (t.served.recorded.getD (0, 0)).1
  reply t := some (t.served.recorded.getD (0, 0)).2

/-- At every moment the counters are consistent. With nothing left to post and
no request being answered, those of a port are the sizes of the requests
answered on it, as far as they were read, and the number of bytes that hyper
sends for them. -/
theorem mock_counted (hyper : HyperServer) (full : FullOf F) (conn : ConnConfig) (mcpSse : Option ℕ)
    (hconn : Configured conn mcpSse) (hmeter : conn.meter = true)
    (hreason : ∀ status ∈ [200, 202, 400, 404, 405], hyper.reason status ≠ none) (ports : List UInt16)
    (l : State (Dialogue (Round hyper full conn)) ports) (h : Reachable (mockService hyper full conn).kind l) :
    Consistent l ∧
    (l.Idle → (∀ p ∈ l.parties, p.state.2.current = none) → ∀ q,
      (∀ t ∈ asked l q, ∀ body ∈ t.req.collected, body.length < 2 ^ 63) →
        l.accounts.read (some q, .requests) = (asked l q).length ∧
        l.accounts.read (some q, .requestBytes) = ((asked l q).map fun t => requestSize conn t.req).sum ∧
        l.accounts.read (some q, .responses) = l.accounts.read (some q, .requests) ∧
        l.accounts.read (some q, .responseBytes) = ((asked l q).map Round.text).flatten.length) := by
  refine ⟨reachable_consistent h, fun hi hquiet q hfits => ?_⟩
  obtain ⟨h1, h2, h3, h4⟩ := Service.read_rest hmeter h hi hquiet q
  have hrecorded := fun t ht => Round.recorded_eq hconn hmeter hreason t (hfits t ht)
  refine ⟨h1, ?_, h3, ?_⟩
  · rw [h2]
    apply congrArg List.sum
    refine List.map_congr_left fun t ht => ?_
    show (t.served.recorded.getD (0, 0)).1 = _
    rw [hrecorded t ht]
    rfl
  · rw [h4, List.length_flatten, List.map_map]
    have hsome : (asked l q).filterMap (mockService hyper full conn).reply =
        (asked l q).map fun t => (t.served.recorded.getD (0, 0)).2 :=
      congrFun List.filterMap_eq_map' _
    rw [hsome]
    apply congrArg List.sum
    refine List.map_congr_left fun t ht => ?_
    rw [hrecorded t ht]
    rfl

/-- A `GET`, which is answered with 405. -/
def mockGet : McpRequest := ⟨⟨ascii "GET", ascii "/mcp", .http11, []⟩, ascii "/mcp", some []⟩

theorem mock_counted_get : ∃ t : Round sampleServer sampleFull mockConn, t.req = mockGet ∧
    ∃ l : State (Dialogue (Round sampleServer sampleFull mockConn)) [80],
      Reachable (mockService sampleServer sampleFull mockConn).kind l ∧
        l.accounts.read (some eighty, .responseBytes) = t.text.length := by
  have hplain : KeepsOpen mockGet.toHttpRequest mockGet.collected :=
    { mockRequest_keepsOpen [] with method := show ascii "GET" ≠ ascii "CONNECT" by decide }
  obtain ⟨t, ht⟩ := round_exists hplain
  obtain ⟨l, hl, hidle, hquiet, hasked⟩ := server_one (v := mockService sampleServer sampleFull mockConn)
    eighty (a := t) rfl
  have h := (mock_counted sampleServer sampleFull mockConn (some 2) mockConn_configured rfl (by decide) [80] l
    hl).2 hidle hquiet eighty
  rw [hasked] at h
  have hfits : ∀ u ∈ [t], ∀ body ∈ u.req.collected, body.length < 2 ^ 63 := by
    intro u hu body hb
    rw [List.mem_singleton.mp hu, ht] at hb
    cases hb
    decide
  refine ⟨t, ht, l, hl, ?_⟩
  rw [(h hfits).2.2.2, List.map_singleton, List.flatten_singleton]

end Mock

end Server
end Statico
