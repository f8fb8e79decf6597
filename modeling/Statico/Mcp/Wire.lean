/-
# What the mock sends

Over HTTP/1.1 hyper writes an answer of the mock as a head and, unless it is
empty, a body, the streamed one in chunks. The head says which and how long
the body is, whatever the answer is (`regular_out`), since an answer is one of
a few with a status of its own (`outcome_total`) and a `HEAD` gets no body
(`outcome_head`).

Key definitions: `connConfig`, `Configured`, `Proper`, `headOf`, `framesOf`,
`contentOf`.
Key theorems: `connConfig_eq`, `outcome_total`, `outcome_head`, `respond_spec`,
`regular_out`, `sent_out`.
-/
import Statico.Mcp.Service
import Statico.Mcp.Sse

namespace Statico
namespace Mcp

open Http Http1 Conn

/-- `run_thread` and `mcp_srv_with_tls`: what a connection is served with; a
notification too short for its size to be computed panics. -/
def connConfig (mcpEverything : Option Bytes) (http2 meter : Bool) (mcpSse : Option ℕ) : Option ConnConfig := do
  let sseNotifications := mcpSse.map buildSseNotifications
  let sseNotifWireBytes ←
    match sseNotifications with
    | some notifs => sseNotifWireBytes http2 notifs
    | none => some 0
  return {
    endpoint := mcpEverything.getD (ascii "/mcp")
    useHttp2 := http2
    meter := meter
    sseNotifications := sseNotifications
    sseNotifWireBytes := sseNotifWireBytes }

/-- Over HTTP/1.1 the server starts, whatever the options are. -/
theorem connConfig_eq (mcpEverything : Option Bytes) (meter : Bool) {mcpSse : Option ℕ}
    (h : ∀ n ∈ mcpSse, n < 2 ^ 64) : connConfig mcpEverything false meter mcpSse =
      some ⟨mcpEverything.getD (ascii "/mcp"), false, meter, mcpSse.map buildSseNotifications,
        (((mcpSse.map buildSseNotifications).getD []).flatMap Chunked.chunk).length⟩ := by
  cases mcpSse with
  | none => rfl
  | some n =>
    have hbytes := sseNotifWireBytes_chunked (notification_fits (h n rfl))
    rw [connConfig, Option.map_some]
    simp only [hbytes]
    rfl

/-- A connection over HTTP/1.1 of a server started with these options. -/
structure Configured (conn : ConnConfig) (mcpSse : Option ℕ) : Prop where
  config : ∃ endpoint meter, connConfig endpoint false meter mcpSse = some conn
  fits : ∀ n ∈ mcpSse, n < 2 ^ 64

section Configured

variable {conn : ConnConfig} {mcpSse : Option ℕ}

theorem Configured.conn_eq (h : Configured conn mcpSse) : conn.useHttp2 = false ∧
    conn.sseNotifications = mcpSse.map buildSseNotifications ∧
    ∀ ns ∈ conn.sseNotifications, sseNotifWireBytes false ns = some conn.sseNotifWireBytes := by
  obtain ⟨⟨endpoint, meter, hc⟩, -⟩ := h
  cases mcpSse with
  | none =>
    cases hc
    exact ⟨rfl, rfl, fun ns hns => by cases hns⟩
  | some n =>
    obtain ⟨w, hw, hc⟩ := Option.bind_eq_some_iff.mp hc
    cases hc
    refine ⟨rfl, rfl, fun ns hns => ?_⟩
    cases hns
    exact hw

/-- The notifications of a connection, none without `--mcp-sse`. -/
def ConnConfig.notifications (conn : ConnConfig) : List Bytes := conn.sseNotifications.getD []

theorem Configured.notifications_fit (h : Configured conn mcpSse) :
    ∀ b ∈ conn.notifications, b ≠ [] ∧ b.length < 2 ^ 64 := by
  rw [ConnConfig.notifications, h.conn_eq.2.1]
  cases hm : mcpSse with
  | none => exact fun b hb => by cases hb
  | some n => exact notification_fits (h.fits n hm)

end Configured

/-! ### What is answered -/

def DispatchOutput.status : DispatchOutput → ℕ
  | .empty status => status
  | .json status _ => status
  | .sseToolsCall _ => 200

/-- The answers a client understands without further knowledge. -/
def Proper (sse : Bool) : DispatchOutput → Prop
  | .empty status => status = 202 ∨ status = 404 ∨ status = 405
  | .json status _ => status = 200 ∨ status = 400
  | .sseToolsCall f => sse = true ∧ ∃ data, f = EventStream.frame data

theorem dispatchMethod_status (p : Profile) (m id : Bytes) (paramsRaw : Option Bytes) {out : DispatchOutput}
    (h : dispatchMethod p m id paramsRaw false = .ok out) : ∃ body, out = .json 200 body := by
  unfold dispatchMethod at h
  by_cases h1 : m = ascii "initialize"
  · rw [if_pos h1] at h
    obtain ⟨v, -, h⟩ := Scan.bind_eq_ok.mp h
    cases h
    exact ⟨_, rfl⟩
  · rw [if_neg h1] at h
    by_cases h4 : m = ascii "tools/call"
    · rw [h4, if_neg (by decide), if_neg (by decide), if_pos rfl] at h
      obtain ⟨v, -, h⟩ := Scan.bind_eq_ok.mp h
      cases v <;> cases h <;> exact ⟨_, rfl⟩
    · rw [if_neg h4] at h
      split_ifs at h <;> cases h <;> exact ⟨_, rfl⟩

/-- The dispatcher's own answers. -/
theorem dispatchRpc_status {p : Profile} {body : Bytes} {sse : Bool} {out : DispatchOutput}
    (h : dispatchRpc p body sse = .ok out) : Proper sse out := by
  have hplain : ∀ out, dispatchRpc p body false = .ok out → ∀ sse, Proper sse out := by
    intro out h sse
    cases hp : parseRpc p body with
    | fail =>
      rw [dispatchRpc_fail hp] at h
      cases h
      exact Or.inr rfl
    | halt w =>
      rw [dispatchRpc_halt hp] at h
      cases h
    | ok rpc =>
      rw [dispatchRpc_ok hp] at h
      rcases dispatchParsed_cases p rpc with ⟨m, id, -, -, -, e⟩ | ⟨id, -, -, -, e⟩ | e
      · rw [e] at h
        obtain ⟨b, rfl⟩ := dispatchMethod_status p m id _ h
        exact Or.inl rfl
      · rw [e] at h
        cases h
        exact Or.inr rfl
      · rw [e] at h
        cases h
        exact Or.inl rfl
  cases sse with
  | false => exact hplain out h false
  | true =>
    rcases dispatch_modes p body with e | ⟨id, params, data, hc, hout⟩
    · rw [e] at h
      exact hplain out h true
    · rw [(hc.answered hout).2] at h
      cases h
      exact ⟨rfl, data, rfl⟩

section Outcome

variable {conn : ConnConfig} {req : McpRequest}

theorem outcome_total (conn : ConnConfig) (req : McpRequest) : ∃ out, outcome .release conn req = .ok out ∧
    Proper conn.sseNotifications.isSome out := by
  unfold outcome
  split_ifs with hp hm
  · exact ⟨_, rfl, Or.inr (Or.inl rfl)⟩
  · exact ⟨_, rfl, Or.inr (Or.inr rfl)⟩
  · cases req.collected with
    | none => exact ⟨_, rfl, Or.inr rfl⟩
    | some collected =>
      obtain ⟨out, hout⟩ := dispatchRpc_total collected conn.sseNotifications.isSome
      exact ⟨out, hout, dispatchRpc_status hout⟩

/-- A `HEAD` is answered without a body. -/
theorem outcome_head {out : DispatchOutput} (h : outcome .release conn req = .ok out)
    (hhead : req.isHead = true) : ∃ status, out = .empty status := by
  have hpost : req.method ≠ ascii "POST" := by
    intro hm
    rw [HttpRequest.isHead, hm, decide_eq_true_eq] at hhead
    exact absurd hhead (by decide)
  unfold outcome at h
  rw [if_pos hpost] at h
  split_ifs at h
  · cases h
    exact ⟨404, rfl⟩
  · cases h
    exact ⟨405, rfl⟩

end Outcome

/-! ### What is sent -/

/-- The headers of the response to it. -/
def fieldsOf : DispatchOutput → List (Bytes × Bytes)
  | .empty _ => [contentLengthField 0]
  | .json _ body => [(ascii "content-type", ascii "application/json"), contentLengthField body.length]
  | .sseToolsCall _ => [(ascii "content-type", ascii "text/event-stream"),
      (ascii "cache-control", ascii "no-cache"), (ascii "transfer-encoding", ascii "chunked")]

def headOf (out : DispatchOutput) : HttpResponse := ⟨out.status, fieldsOf out, []⟩

/-- The frames of its body. -/
def framesOf (conn : ConnConfig) : DispatchOutput → List Bytes
  | .empty _ => []
  | .json _ body => if body = [] then [] else [body]
  | .sseToolsCall f => conn.notifications ++ [f]

/-- Its body. -/
def contentOf (conn : ConnConfig) : DispatchOutput → Bytes
  | .empty _ => []
  | .json _ body => body
  | .sseToolsCall f => conn.notifications.flatten ++ f

section Sent

variable {F : Type} (full : FullOf F) {conn : ConnConfig} {mcpSse : Option ℕ} (hconn : Configured conn mcpSse)
  {out : DispatchOutput}

include hconn in
theorem respond_spec (hout : Proper conn.sseNotifications.isSome out) :
    ∃ resp, respond full conn out = some resp ∧ resp.head = headOf out ∧ resp.version = .http11 ∧
      Yields full.toFullBody resp.body (framesOf conn out) := by
  cases out with
  | empty status => exact ⟨_, rfl, rfl, rfl, yields_full full []⟩
  | json status body => exact ⟨_, rfl, rfl, rfl, yields_full full body⟩
  | sseToolsCall f =>
    obtain ⟨ns, hns⟩ := Option.isSome_iff_exists.mp hout.1
    have hnotifications : conn.notifications = ns := by rw [ConnConfig.notifications, hns]; rfl
    refine ⟨streamResponse conn ns f, by rw [respond, hns]; rfl, ?_, rfl, ?_⟩
    · simp [streamResponse, McpResponse.head, headOf, fieldsOf, DispatchOutput.status, hconn.conn_eq.1]
    · rw [framesOf, hnotifications]
      exact yields_sse full ns f

theorem isField_fieldsOf (out : DispatchOutput) : ∀ f ∈ fieldsOf out, IsField f := by
  have hlength : ∀ n, IsField (contentLengthField n) := fun n => isField_named "content-length" (calm_decimal n)
  cases out <;> simp only [fieldsOf, List.forall_mem_cons, List.not_mem_nil, false_implies, implies_true, and_true]
  · exact hlength 0
  · exact ⟨isField_named "content-type" (calm_of_all (by decide)), hlength _⟩
  · exact ⟨isField_named "content-type" (calm_of_all (by decide)),
      isField_named "cache-control" (calm_of_all (by decide)),
      isField_named "transfer-encoding" (calm_of_all (by decide))⟩

/-- The statuses of the mock. -/
theorem status_mem {sse : Bool} (hout : Proper sse out) : out.status ∈ [200, 202, 400, 404, 405] := by
  cases out with
  | empty status => rcases hout with rfl | rfl | rfl <;> simp [DispatchOutput.status]
  | json status body => rcases hout with rfl | rfl <;> simp [DispatchOutput.status]
  | sseToolsCall f => simp [DispatchOutput.status]

/-- They are those of responses with a body, but after a `HEAD`. -/
theorem bodiless_iff {sse : Bool} (hout : Proper sse out) (isHead : Bool) :
    Bodiless isHead out.status ↔ isHead = true := by
  have hstatus : ∀ status ∈ [200, 202, 400, 404, 405], ¬ (status < 200 ∨ status = 204 ∨ status = 304) := by decide
  exact or_iff_left (hstatus _ (status_mem hout))

/-- How the body of an answer is framed. -/
theorem framing_fieldsOf (out : DispatchOutput) : framing (fieldsOf out) =
    match out with
    | .empty _ => [contentLengthField 0]
    | .json _ body => [contentLengthField body.length]
    | .sseToolsCall _ => [(ascii "transfer-encoding", ascii "chunked")] := by
  cases out with
  | empty status => exact framing_contentLength 0
  | json status body =>
    have htype : framing [(ascii "content-type", ascii "application/json")] = [] := by decide
    rw [fieldsOf, ← List.singleton_append, framing_append, htype, framing_contentLength, List.nil_append]
  | sseToolsCall f =>
    show framing (fieldsOf (.sseToolsCall [])) = [(ascii "transfer-encoding", ascii "chunked")]
    decide

/-- hyper adds no length to an answer. -/
theorem adds_headOf (out : DispatchOutput) : ¬ addsContentLength (headOf out) = true := by
  rw [adds_iff]
  rintro ⟨-, h⟩
  have hframing : framing (fieldsOf out) = [] := h
  rw [framing_fieldsOf] at hframing
  cases out <;> cases hframing

/-- The answers name nothing but what they are and how long. -/
theorem containsKey_fieldsOf {name : String} (hname : ascii name ∉ [ascii "content-type", ascii "cache-control",
    ascii "content-length", ascii "transfer-encoding"]) (out : DispatchOutput) :
    containsKey name (fieldsOf out) = false := by
  have hother : ∀ f ∈ fieldsOf out, ¬ Named name f := by
    intro f hf hn
    apply hname
    rw [← show f.1.map lower = ascii name from hn]
    cases out with
    | empty status =>
      rw [List.mem_singleton.mp hf]
      exact show (ascii "content-length").map lower ∈ _ by decide
    | json status body =>
      rcases List.mem_pair.mp hf with rfl | rfl
      · exact show (ascii "content-type").map lower ∈ _ by decide
      · exact show (ascii "content-length").map lower ∈ _ by decide
    | sseToolsCall data =>
      have hall : ∀ f ∈ fieldsOf (.sseToolsCall []), f.1.map lower ∈ [ascii "content-type", ascii "cache-control",
          ascii "content-length", ascii "transfer-encoding"] := by decide
      exact hall f hf
  rw [containsKey, List.any_eq_false]
  exact fun f hf => by simpa using hother f hf

include hconn in
/-- The frames are never empty. -/
theorem framesOf_ne_nil (hout : Proper conn.sseNotifications.isSome out) : ∀ c ∈ framesOf conn out, c ≠ [] := by
  intro c hc
  cases out with
  | empty status => cases hc
  | json status body =>
    rw [framesOf] at hc
    split_ifs at hc with hb
    · cases hc
    · rwa [List.mem_singleton.mp hc]
  | sseToolsCall f =>
    rcases List.mem_append.mp hc with hc | hc
    · exact (hconn.notifications_fit c hc).1
    · obtain ⟨-, data, rfl⟩ := hout
      rw [List.mem_singleton.mp hc]
      simp [EventStream.frame, ascii]

theorem framesOf_flatten (conn : ConnConfig) (out : DispatchOutput) :
    (framesOf conn out).flatten = contentOf conn out := by
  cases out with
  | empty status => rfl
  | json status body =>
    rw [framesOf]
    split_ifs with hb
    · exact hb.symm
    · exact List.flatten_singleton
  | sseToolsCall f => rw [framesOf, List.flatten_append, List.flatten_singleton]; rfl

/-- The head says how the body is sent. -/
theorem regular_out (conn : ConnConfig) (hout : Proper conn.sseNotifications.isSome out) {isHead : Bool}
    (hhead : isHead = true → ∃ status, out = .empty status) : Regular isHead (headOf out) (framesOf conn out) where
  status := by
    have hrange : ∀ status ∈ [200, 202, 400, 404, 405], 200 ≤ status ∧ status ≤ 999 := by decide
    exact hrange _ (status_mem hout)
  connection := containsKey_fieldsOf (by decide) out
  trailer := containsKey_fieldsOf (by decide) out
  framing := by
    have hframing : framing (headOf out).headers = _ := framing_fieldsOf out
    have hcan : canHaveContentLength (headOf out).status = true := by
      have hall : ∀ status ∈ [200, 202, 400, 404, 405], canHaveContentLength status = true := by decide
      exact hall _ (status_mem hout)
    rw [hframing, framesOf_flatten]
    cases out with
    | empty status => exact Or.inr (Or.inl ⟨rfl, fun _ => hcan⟩)
    | json status body => exact Or.inr (Or.inl ⟨rfl, fun _ => hcan⟩)
    | sseToolsCall f =>
      refine Or.inr (Or.inr ⟨rfl, hcan, Bool.eq_false_iff.mpr fun h => ?_⟩)
      obtain ⟨status, hs⟩ := hhead h
      cases hs

include hconn in
/-- A stream is sent in chunks, one for each frame, and any other body at once. -/
theorem sent_out (hout : Proper conn.sseNotifications.isSome out) {isHead : Bool}
    (hhead : isHead = true → ∃ status, out = .empty status) {wire : Bytes}
    (h : SentBody isHead (headOf out) (framesOf conn out) wire) :
    (∃ f, out = .sseToolsCall f) ∧ Chunked.Coded (framesOf conn out) wire ∨
      (∀ f, out ≠ .sseToolsCall f) ∧ wire = contentOf conn out := by
  have hfilter : (framesOf conn out).filter (· ≠ []) = framesOf conn out :=
    List.filter_eq_self.mpr fun c hc => decide_eq_true (framesOf_ne_nil hconn hout c hc)
  have hframing : framing (headOf out).headers = _ := framing_fieldsOf out
  have hbodiless : Bodiless isHead (headOf out).status → ∃ status, out = .empty status :=
    fun hb => hhead ((bodiless_iff hout isHead).mp hb)
  cases out with
  | empty status =>
    refine Or.inr ⟨nofun, ?_⟩
    by_cases hb : Bodiless isHead (headOf (.empty status)).status
    · exact h.eq_nil hb
    · exact h.eq_flatten hb (contentLength_framing hframing).2
  | json status body =>
    have hb : ¬ Bodiless isHead (headOf (.json status body)).status := fun hb => by
      obtain ⟨s, hs⟩ := hbodiless hb
      cases hs
    refine Or.inr ⟨nofun, ?_⟩
    rw [h.eq_flatten hb (contentLength_framing hframing).2, framesOf_flatten]
  | sseToolsCall f =>
    have hb : ¬ Bodiless isHead (headOf (.sseToolsCall f)).status := fun hb => by
      obtain ⟨s, hs⟩ := hbodiless hb
      cases hs
    have hcoded := h.coded hb (inChunks_framing hframing).1
    rw [hfilter] at hcoded
    exact Or.inl ⟨⟨f, rfl⟩, hcoded⟩

/-- hyper adds the date alone. -/
theorem addedLength_out (isHead : Bool) (out : DispatchOutput) : addedLength isHead (headOf out) = [] :=
  if_neg fun h => adds_headOf out h.1

theorem addedDate_out (date : Bytes) (out : DispatchOutput) :
    addedDate date (headOf out) = [(ascii "date", date)] := by
  have hdate : containsKey "date" (headOf out).headers = false := containsKey_fieldsOf (by decide) out
  rw [addedDate, hdate]
  rfl

end Sent

end Mcp
end Statico
