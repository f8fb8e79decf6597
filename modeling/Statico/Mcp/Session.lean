/-
# A connection of the mock

A connection that stays open carries requests one after another, and hyper
sends what the service answers to each. The service answers whatever is asked,
a client reads one reply for each request with the status and the body of its
answer (`session_replies`), finds the id of its request in it
(`session_correlated`), and for a well-formed request the answer that its tree
has (`session_answers`). What is recorded is what was sent (`session_metered`).

Key definitions: `Sends`, `Round`, `AnsweredBy`, `wantsAnswer`, `payload`,
`Conveys`.
Key theorems: `replies_of`, `session_metered`, `session_replies`,
`session_correlated`, `session_answers`.
-/
import Statico.Lib.Json.Compact
import Statico.Mcp.Size
import Statico.Mcp.Sse
import Statico.Mcp.WellFormed
import Statico.Mcp.Wire

namespace Statico
namespace Mcp

open Http Http1 Conn Json

/-! ### Rounds -/

section Round

variable {F : Type} (hyper : HyperServer) (full : FullOf F) (conn : ConnConfig)

/-- The service makes this of a request, and hyper writes this text for it. -/
def Sends (req : McpRequest) (served : Served F) (text : Bytes) : Prop :=
  service .release full hyper.reason conn req = .ok served ∧
    ∃ frames, Yields full.toFullBody served.response.body frames ∧
      hyper.Writes req.toHttpRequest req.collected served.response.head frames text

/-- A request on a connection that stays open, and what is sent for it. -/
structure Round where
  req : McpRequest
  served : Served F
  text : Bytes
  plain : KeepsOpen req.toHttpRequest req.collected
  sends : Sends hyper full conn req served text

variable {hyper full conn} {mcpSse : Option ℕ}

theorem Yields.unique {full : FullBody F} {body : McpBody F} {fs gs : List Bytes} (hf : Yields full body fs)
    (hg : Yields full body gs) : fs = gs := by
  have h := hf (fs.length + gs.length + 1) (by omega)
  rw [hg (fs.length + gs.length + 1) (by omega)] at h
  exact (Option.some.inj h).symm

/-- What the service makes of any request, and records for it, comes from the
answer. -/
theorem service_total (full : FullOf F) (reason : ℕ → Option Bytes) (hconn : Configured conn mcpSse)
    {req : McpRequest} (h11 : req.version = .http11) :
    ∃ out resp, outcome .release conn req = .ok out ∧ Proper conn.sseNotifications.isSome out ∧
      service .release full reason conn req = .ok ⟨resp, conn.record (requestSize conn req)
        (responseHeadSize .http11 (reason out.status) (headOf out) (bodyLen out) + wireSize conn out)⟩ ∧
      resp.head = headOf out ∧ Yields full.toFullBody resp.body (framesOf conn out) := by
  obtain ⟨out, hout, hproper⟩ := outcome_total conn req
  obtain ⟨resp, hresp, hhead, hversion, hyields⟩ := respond_spec full hconn hproper
  refine ⟨out, resp, hout, hproper, ?_, hhead, hyields⟩
  have hstatus : resp.status = out.status := congrArg HttpResponse.status hhead
  rw [service_eq .release full reason conn h11, hout, Scan.ok_bind, hresp, ← hhead, ← hstatus, ← hversion]
  rfl

/-- What a round records and sends comes from the answer. -/
theorem Round.cases (hconn : Configured conn mcpSse) (t : Round hyper full conn) :
    ∃ out, outcome .release conn t.req = .ok out ∧ Proper conn.sseNotifications.isSome out ∧
      t.served.recorded = conn.record (requestSize conn t.req)
        (responseHeadSize .http11 (hyper.reason out.status) (headOf out) (bodyLen out) + wireSize conn out) ∧
      Nonempty (Documented ((hyper.reason out.status).getD (ascii "<none>")) t.req.isHead (headOf out)
        (framesOf conn out) t.text) := by
  obtain ⟨out, resp, hout, hproper, hserved, hhead, hyields⟩ := service_total full hyper.reason hconn t.plain.version
  obtain ⟨hs, frames, hframes, hwrites⟩ := t.sends
  have hserved : t.served = _ := Scan.ok.inj (hs.symm.trans hserved)
  rw [hserved] at hframes hwrites
  rw [hframes.unique hyields, hhead] at hwrites
  have hregular := regular_out conn hproper fun h => outcome_head hout h
  exact ⟨out, hout, hproper, by rw [hserved], hyper.documented t.plain hregular hwrites⟩

/-- A reply with the status, the headers and the body of an answer, and a date. -/
structure AnsweredBy (conn : ConnConfig) (out : DispatchOutput) (reply : Reply) : Prop where
  status : reply.status = out.status
  body : reply.body = contentOf conn out
  fields : ∃ date, SameFields reply.fields (trimmed (fieldsOf out ++ [(ascii "date", date)]))

theorem answeredBy_of {out : DispatchOutput} {isHead : Bool} {reply : Reply}
    (hout : Proper conn.sseNotifications.isSome out) (hhead : isHead = true → ∃ status, out = .empty status)
    (h : ReplyTo isHead (headOf out) (framesOf conn out) reply) : AnsweredBy conn out reply := by
  refine ⟨h.status, ?_, ?_⟩
  · rw [h.body, framesOf_flatten]
    split_ifs with hb
    · obtain ⟨status, rfl⟩ := hhead ((bodiless_iff hout isHead).mp hb)
      rfl
    · rfl
  · obtain ⟨date, hfields⟩ := h.fields
    rw [addedLength_out, addedDate_out, List.nil_append] at hfields
    exact ⟨date, hfields⟩

/-- What holds of a round and any reply to its answer holds of all rounds of a
connection and the replies a client reads. -/
theorem replies_of (hconn : Configured conn mcpSse) {R : Round hyper full conn → Reply → Prop}
    (hR : ∀ t out reply, outcome .release conn t.req = .ok out → AnsweredBy conn out reply → R t reply)
    (ts : List (Round hyper full conn)) (rest : Bytes) :
    ∃ rs, cutReplies (ts.map fun t => t.req.isHead) ((ts.map Round.text).flatten ++ rest) = some (rs, rest) ∧
      List.Forall₂ R ts rs := by
  refine cutReplies_exchanges (fun t : Round hyper full conn => t.req.isHead) Round.text R (fun t _ => ?_) rest
  obtain ⟨out, hout, hproper, -, ⟨d⟩⟩ := t.cases hconn
  have hhead : t.req.isHead = true → ∃ status, out = .empty status := fun h => outcome_head hout h
  have hregular := regular_out conn hproper hhead
  obtain ⟨x, hx, htext, ha⟩ := d.exchange hregular (isField_fieldsOf out) (hyper.calm_phrase _)
  exact ⟨x, hx, htext, hR t out x.reply hout (answeredBy_of hproper hhead ha)⟩

end Round

/-- The request reaches the dispatcher with this body. -/
structure Posts (conn : ConnConfig) (req : McpRequest) (body : Bytes) : Prop where
  path : req.path = conn.endpoint
  method : req.method = ascii "POST"
  collected : req.collected = some body

theorem Posts.outcome {conn : ConnConfig} {req : McpRequest} {body : Bytes} (h : Posts conn req body) (p : Profile) :
    Mcp.outcome p conn req = dispatchRpc p body conn.sseNotifications.isSome := by
  rw [Mcp.outcome, if_neg (not_not.mpr h.path), if_neg (not_not.mpr h.method), h.collected]

/-! #### A connection at some moment -/

/-- A body with at most one frame. -/
def sampleFull : FullOf (Option Bytes) where
  pollFrame f := (f, none)
  isEndStream f := f.isNone
  new data := if data = [] then none else some data
  left f l := l = f.toList
  drains := by
    constructor
    · rintro f l rfl
      cases f <;> rfl
    · rintro f l rfl
      cases f <;> rfl
  ended := by
    rintro f l rfl
    cases f <;> simp
  start data := by
    split_ifs <;> rfl

/-- With `--mcp-sse 2`. -/
def mockConn : ConnConfig where
  endpoint := ascii "/mcp"
  useHttp2 := false
  meter := true
  sseNotifications := some (buildSseNotifications 2)
  sseNotifWireBytes := ((buildSseNotifications 2).flatMap Chunked.chunk).length

theorem mockConn_configured : Configured mockConn (some 2) where
  config := ⟨none, true, connConfig_eq none true fun n hn => by cases hn; decide⟩
  fits n hn := by
    cases hn
    decide

/-- A request with this body. -/
def mockRequest (body : Bytes) : McpRequest :=
  ⟨⟨ascii "POST", ascii "/mcp", .http11, []⟩, ascii "/mcp", some body⟩

theorem mockRequest_posts (body : Bytes) : Posts mockConn (mockRequest body) body := ⟨rfl, rfl, rfl⟩

/-- What is sent for any request on a connection that stays open. -/
theorem round_exists {req : McpRequest} (hplain : KeepsOpen req.toHttpRequest req.collected) :
    ∃ t : Round sampleServer sampleFull mockConn, t.req = req := by
  obtain ⟨out, resp, -, -, hserved, -, hyields⟩ := service_total sampleFull sampleServer.reason mockConn_configured
    hplain.version
  exact ⟨⟨req, _, _, hplain, hserved, _, hyields, rfl⟩, rfl⟩

theorem mockRequest_keepsOpen (body : Bytes) : KeepsOpen (mockRequest body).toHttpRequest (some body) where
  version := rfl
  method := show ascii "POST" ≠ ascii "CONNECT" by decide
  connection _ h := absurd h List.not_mem_nil
  expect := rfl
  upgrade := rfl
  body := rfl

theorem mockRound (body : Bytes) : ∃ t : Round sampleServer sampleFull mockConn, t.req = mockRequest body :=
  round_exists (mockRequest_keepsOpen body)

/-! ### Metering -/

section Metering

variable {F : Type} {hyper : HyperServer} {full : FullOf F} {conn : ConnConfig} {mcpSse : Option ℕ}
  {out : DispatchOutput}

/-- What is recorded for the body is as long as what is sent of it. -/
theorem wireSize_eq (hconn : Configured conn mcpSse) (hout : Proper conn.sseNotifications.isSome out) {isHead : Bool}
    (hhead : isHead = true → ∃ status, out = .empty status)
    (hfits : ∀ f, out = .sseToolsCall f → f.length < 2 ^ 64) {wire : Bytes}
    (h : SentBody isHead (headOf out) (framesOf conn out) wire) : wireSize conn out = wire.length := by
  rcases sent_out hconn hout hhead h with ⟨⟨f, rfl⟩, hcoded⟩ | ⟨hno, rfl⟩
  · have hf : f ≠ [] := framesOf_ne_nil hconn hout f (List.mem_append_right _ List.mem_cons_self)
    obtain ⟨ns, hns⟩ := Option.isSome_iff_exists.mp hout.1
    obtain ⟨hhttp, -, hwire⟩ := hconn.conn_eq
    have hnotifications : conn.notifications = ns := by rw [ConnConfig.notifications, hns]; rfl
    have hsum := hwire ns hns
    rw [sseNotifWireBytes_chunked (hnotifications ▸ hconn.notifications_fit), Option.some_inj] at hsum
    rw [hcoded.length, framesOf, Chunked.encode_append, List.length_append, hnotifications, hsum,
      ← chunkedBodyWireSize_eq hf (hfits f rfl), wireSize, if_neg (by rw [hhttp]; decide)]
  · cases out with
    | empty status => rfl
    | json status body => rfl
    | sseToolsCall f => exact absurd rfl (hno f)

/-- An event is not much longer than the body it answers. -/
theorem outcome_event {p : Profile} {req : McpRequest} {f : Bytes}
    (h : outcome p conn req = .ok (.sseToolsCall f)) : ∃ body ∈ req.collected, f.length ≤ body.length + 324 := by
  unfold outcome at h
  split_ifs at h with hp hm
  · cases h
  · cases h
  · cases hc : req.collected with
    | none =>
      rw [hc] at h
      cases h
    | some body =>
      rw [hc] at h
      exact ⟨body, rfl, dispatchRpc_size h⟩

/-- What is recorded in a round. -/
theorem Round.recorded_eq (hconn : Configured conn mcpSse) (hmeter : conn.meter = true)
    (hreason : ∀ status ∈ [200, 202, 400, 404, 405], hyper.reason status ≠ none) (t : Round hyper full conn)
    (hfits : ∀ body ∈ t.req.collected, body.length < 2 ^ 63) :
    t.served.recorded = some (requestSize conn t.req, t.text.length) := by
  obtain ⟨out, hout, hproper, hrec, ⟨d⟩⟩ := t.cases hconn
  have hevent : ∀ f, out = .sseToolsCall f → f.length < 2 ^ 64 := by
    rintro f rfl
    obtain ⟨body, hbody, hle⟩ := outcome_event hout
    calc f.length ≤ body.length + 324 := hle
      _ < 2 ^ 63 + 324 := Nat.add_lt_add_right (hfits body hbody) 324
      _ ≤ 2 ^ 64 := by norm_num
  have hhead : t.req.isHead = true → ∃ status, out = .empty status := fun h => outcome_head hout h
  have hwire := wireSize_eq hconn hproper hhead hevent d.sent
  have hrange : ∀ status ∈ [200, 202, 400, 404, 405], 100 ≤ status ∧ status ≤ 999 := by decide
  obtain ⟨h100, h999⟩ := hrange _ (status_mem hproper)
  obtain ⟨reason, hr⟩ := Option.ne_none_iff_exists'.mp (hreason _ (status_mem hproper))
  have hlength := d.length_text h100 h999 (n := bodyLen out) fun h => absurd h (adds_headOf out)
  rw [← hwire, if_neg fun h => adds_headOf out h.1, hr, Option.getD_some, Nat.add_zero] at hlength
  rw [hrec, hr, ConnConfig.record, if_pos hmeter, hlength]

/-- What is recorded on a connection is, round by round, the size of the request
as far as it was read and the number of bytes that hyper sent. -/
theorem session_metered (hyper : HyperServer) (full : FullOf F) (conn : ConnConfig) (mcpSse : Option ℕ)
    (hconn : Configured conn mcpSse) (hmeter : conn.meter = true)
    (hreason : ∀ status ∈ [200, 202, 400, 404, 405], hyper.reason status ≠ none)
    (ts : List (Round hyper full conn)) (hfits : ∀ t ∈ ts, ∀ body ∈ t.req.collected, body.length < 2 ^ 63) :
    ts.map (fun t => t.served.recorded) = ts.map (fun t => some (requestSize conn t.req, t.text.length)) ∧
      ((ts.map fun t => t.served.recorded).reduceOption.map Prod.snd).sum = (ts.map Round.text).flatten.length := by
  have hrecorded : ts.map (fun t => t.served.recorded) =
      ts.map (fun t => some (requestSize conn t.req, t.text.length)) :=
    List.map_congr_left fun t ht => t.recorded_eq hconn hmeter hreason (hfits t ht)
  refine ⟨hrecorded, ?_⟩
  have hsome : (ts.map fun t => some (requestSize conn t.req, t.text.length)).reduceOption =
      ts.map fun t => (requestSize conn t.req, t.text.length) := by
    rw [List.reduceOption, List.filterMap_map]
    exact congrFun List.filterMap_eq_map' ts
  rw [hrecorded, hsome, List.length_flatten, List.map_map, List.map_map]
  rfl

/-- A `ping`. -/
theorem session_metered_ping : ∃ t : Round sampleServer sampleFull mockConn,
    t.req = mockRequest (ascii "\x7b\"id\":1,\"method\":\"ping\"\x7d") ∧
      [t].map (fun t => t.served.recorded) = [t].map fun t => some (requestSize mockConn t.req, t.text.length) := by
  obtain ⟨t, ht⟩ := mockRound (ascii "\x7b\"id\":1,\"method\":\"ping\"\x7d")
  refine ⟨t, ht, (session_metered sampleServer sampleFull mockConn (some 2) mockConn_configured rfl (by decide)
    [t] fun u hu body hb => ?_).1⟩
  rw [List.mem_singleton.mp hu, ht] at hb
  cases hb
  decide

end Metering

/-! ### Replies -/

/-- Every request is served, whatever it is; and of those on a connection that
stays open a client reads one reply for each, in order, with the status, the
headers and the body of its answer, and nothing is left over. -/
theorem session_replies {F : Type} (hyper : HyperServer) (full : FullOf F) (conn : ConnConfig)
    (mcpSse : Option ℕ) (hconn : Configured conn mcpSse) :
    (∀ req : McpRequest, req.version = .http11 → ∃ served, service .release full hyper.reason conn req = .ok served) ∧
    ∀ (ts : List (Round hyper full conn)) (rest : Bytes),
      ∃ rs, cutReplies (ts.map fun t => t.req.isHead) ((ts.map Round.text).flatten ++ rest) = some (rs, rest) ∧
        List.Forall₂ (fun t r => ∃ out, outcome .release conn t.req = .ok out ∧ AnsweredBy conn out r) ts rs := by
  constructor
  · intro req h11
    obtain ⟨out, resp, hout, hproper, hserved, -⟩ := service_total full hyper.reason hconn h11
    exact ⟨_, hserved⟩
  · intro ts rest
    exact replies_of hconn (fun t out reply hout ha => ⟨out, hout, ha⟩) ts rest

/-- A request that is not for the endpoint. -/
theorem session_replies_other : ∃ (t : Round sampleServer sampleFull mockConn) (r : Reply),
    cutReplies [false] ([t.text].flatten ++ []) = some ([r], []) ∧ r.status = 404 ∧ r.body = [] := by
  obtain ⟨t, ht⟩ : ∃ t : Round sampleServer sampleFull mockConn, t.req = { mockRequest [] with path := ascii "/" } :=
    round_exists (mockRequest_keepsOpen [])
  obtain ⟨rs, hrs, hf⟩ := (session_replies sampleServer sampleFull mockConn (some 2) mockConn_configured).2 [t] []
  have h404 : outcome .release mockConn { mockRequest [] with path := ascii "/" } = .ok (.empty 404) :=
    if_pos (show ascii "/" ≠ ascii "/mcp" by decide)
  have hhead : t.req.isHead = false := by rw [ht]; decide
  cases hf with
  | @cons _ r _ rs hr h =>
    cases h
    obtain ⟨out, hout, ha⟩ := hr
    rw [ht, h404] at hout
    cases hout
    rw [List.map_singleton, hhead] at hrs
    exact ⟨t, r, hrs, ha.status, ha.body⟩

section Payload

variable {conn : ConnConfig} {mcpSse : Option ℕ} {reply : Reply}

/-- The events of a stream: as many as there are notifications, and the last. -/
theorem parse_stream (hconn : Configured conn mcpSse) {data : Bytes} (h : Calm data) :
    EventStream.parse (contentOf conn (.sseToolsCall (EventStream.frame data))) =
      (List.range' 1 (mcpSse.getD 0)).map (fun i => ⟨ascii "message", notificationData (mcpSse.getD 0) i⟩) ++
        [⟨ascii "message", data⟩] := by
  have hnotifications : conn.notifications = buildSseNotifications (mcpSse.getD 0) := by
    rw [ConnConfig.notifications, hconn.conn_eq.2.1]
    cases mcpSse <;> rfl
  have hlast : EventStream.events EventStream.fresh (EventStream.lines (EventStream.frame data)).dropLast =
      [⟨ascii "message", data⟩] := by
    rw [← List.append_nil (EventStream.frame data), EventStream.events_frame h]
    rfl
  rw [contentOf, hnotifications, EventStream.parse, dropMark_frames, events_notifications, hlast]

end Payload

/-! ### Ids -/

/-- A client has the answer to a request with `count` notifications before an
event: the status, and the answer's value in the body or the last event. -/
inductive Conveys (count : ℕ) (r : Reply) : Response UInt8 → Prop
  | empty : r.body = [] → Conveys count r (.empty r.status)
  | json {v : Value Bytes} : Document rfc v r.body → Conveys count r (.json r.status v)
  | event {v : Value Bytes} {data : Bytes} : r.status = 200 → Document rfc v data →
      EventStream.parse r.body =
        (List.range' 1 count).map (fun i => ⟨ascii "message", notificationData count i⟩) ++
          [⟨ascii "message", data⟩] →
      Conveys count r (.event v)

/-- The answer to a well-formed request is a text of its value. -/
theorem reference_texts {body : Slice} {ms : Tree} (h : Document rfc (.obj ms) body.bytes) (sse : Bool) :
    Answers rfc (reference ms sse) (reference ms sse) :=
  reference_names rfc_transparent (names_rfc h) plainWords_rfc sse

/-- A client that sends well-formed requests with scalar ids and string methods
in the bodies of some of the requests of a connection gets the answers that
their trees have. -/
theorem session_answers {F : Type} (hyper : HyperServer) (full : FullOf F) (conn : ConnConfig)
    (mcpSse : Option ℕ) (hconn : Configured conn mcpSse) (ts : List (Round hyper full conn)) (rest : Bytes) :
    ∃ rs, cutReplies (ts.map fun t => t.req.isHead) ((ts.map Round.text).flatten ++ rest) = some (rs, rest) ∧
      List.Forall₂ (fun t r => ∀ (body : Slice) (ms : Tree), Posts conn t.req body.bytes →
        Document rfc (.obj ms) body.bytes → StringMethods ms → ScalarIds ms →
        Conveys (mcpSse.getD 0) r (reference ms mcpSse.isSome)) ts rs := by
  have hsse : conn.sseNotifications.isSome = mcpSse.isSome := by
    rw [hconn.conn_eq.2.1, Option.isSome_map]
  apply replies_of hconn
  intro t out reply hout ha body ms hposts hdoc hm hid
  rw [hposts.outcome, dispatch_reference .release body ms _ hdoc hm hid, hsse] at hout
  have htexts := reference_texts hdoc mcpSse.isSome
  generalize reference ms mcpSse.isSome = answer at hout htexts ⊢
  cases htexts with
  | empty status =>
    cases hout
    rw [← show reply.status = status from ha.status]
    exact .empty ha.body
  | json status hv =>
    cases hout
    rw [← show reply.status = status from ha.status]
    exact .json (by rw [ha.body]; exact hv.document)
  | @event v _ hv =>
    cases hout
    exact .event ha.status hv.document (by rw [ha.body]; exact parse_stream hconn (calm_render hv))

/-- A request with an id alone. -/
theorem session_answers_id : ∃ (t : Round sampleServer sampleFull mockConn) (r : Reply),
    cutReplies [t.req.isHead] ([t.text].flatten ++ []) = some ([r], []) ∧
      Conveys 2 r (.json 400 (errorReply (.lit (ascii "true")) "-32600" "Invalid Request")) := by
  obtain ⟨t, ht⟩ := mockRound (oneMember "id" (.lit (ascii "true")))
  obtain ⟨rs, hrs, hall⟩ := session_answers sampleServer sampleFull mockConn (some 2)
    mockConn_configured [t] []
  cases hall with
  | @cons _ r _ rs hr h =>
    cases h
    exact ⟨t, r, hrs, hr ⟨_, by decide⟩ _ (ht ▸ mockRequest_posts _)
      (document_oneMember "id" (.lit (Or.inr (Or.inl rfl))))
      (by simp [StringMethods, show ascii "id" ≠ plain "method" by decide]) (by simp [ScalarIds, IsScalar])⟩

end Mcp
end Statico
