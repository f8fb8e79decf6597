/-
# The service of the mock

`handle_conn` gives hyper one response for each request: for another path or
method an empty one, and else what the dispatcher says, as JSON, as a stream
of events, or without a body. It records the request as far as it read it, and
the response with the size of its head and of its body on the wire.

Key definitions: `ConnConfig`, `McpRequest`, `McpResponse`, `service`,
`FullOf`, `Yields`.
Key theorems: `yields_full`, `yields_sse`, `service_eq`.
-/
import Statico.Http.Session
import Statico.Mcp.Positions
import Statico.Mcp.SseBody

namespace Statico
namespace Mcp

open Http Http1 Conn

/-- What `handle_conn` is given; there are counters exactly with `meter`. -/
structure ConnConfig where
  endpoint : Bytes
  useHttp2 : Bool
  meter : Bool
  sseNotifications : Option (List Bytes)
  sseNotifWireBytes : ℕ

/-- A request as the service gets it: the path of its URI, and its body if it
can be collected. -/
structure McpRequest extends HttpRequest where
  path : Bytes
  collected : Option Bytes

structure McpResponse (F : Type) where
  version : Version
  status : ℕ
  headers : List (Bytes × Bytes)
  body : McpBody F

/-! ### Bodies -/

/-- `Full` with its constructor: it yields its data, if there is any, and knows
its end. -/
structure FullOf (F : Type) extends FullBody F where
  new : Bytes → F
  left : F → List Bytes → Prop
  drains : Drains pollFrame left
  ended : ∀ f l, left f l → (isEndStream f = true ↔ l = [])
  start : ∀ data, left (new data) (if data = [] then [] else [data])

/-- hyper gets these frames of the body. -/
def Yields {F : Type} (full : FullBody F) (body : McpBody F) (frames : List Bytes) : Prop :=
  ∀ n, frames.length < n → drive (Mcp.pollFrame full) (Mcp.isEndStream full) n body = some frames

section Bodies

variable {F : Type} (full : FullOf F)

theorem yields_full (data : Bytes) :
    Yields full.toFullBody (.full (full.new data)) (if data = [] then [] else [data]) := by
  intro n hn
  have hdrains : Drains (Mcp.pollFrame full.toFullBody)
      fun body l => ∃ f, body = .full f ∧ full.left f l := by
    constructor
    · rintro _ l ⟨f, rfl, hf⟩
      exact full.drains.head hf
    · rintro _ l ⟨f, rfl, hf⟩
      exact ⟨_, rfl, full.drains.tail hf⟩
  refine hdrains.drive ?_ ⟨_, rfl, full.start data⟩ hn
  rintro _ l ⟨f, rfl, hf⟩
  exact full.ended f l hf

theorem yields_sse (notifications : List Bytes) (finalEvent : Bytes) :
    Yields full.toFullBody (sseBody notifications finalEvent) (notifications ++ [finalEvent]) := by
  intro n hn
  exact (Mcp.drains full.toFullBody).drive (fun _ _ h => h.ended_iff full.toFullBody) Left.start hn

end Bodies

/-! ### The service -/

/-- `empty_response` -/
def emptyResponse {F : Type} (full : FullOf F) (status : ℕ) : McpResponse F :=
  ⟨.http11, status, [(ascii "content-length", decimal 0)], .full (full.new [])⟩

/-- `json_response` -/
def jsonResponse {F : Type} (full : FullOf F) (status : ℕ) (body : Bytes) : McpResponse F :=
  ⟨.http11, status, [(ascii "content-type", ascii "application/json"),
    (ascii "content-length", decimal body.length)], .full (full.new body)⟩

section Service

variable {F : Type}

/-- A response without its body, as `response_head_size` looks at it. -/
def McpResponse.head (resp : McpResponse F) : HttpResponse := ⟨resp.status, resp.headers, []⟩

/-- `response_head_size` -/
def McpResponse.headSize (reason : ℕ → Option Bytes) (resp : McpResponse F) (bodyLen : ℕ) : ℕ :=
  responseHeadSize resp.version (reason resp.status) resp.head bodyLen

/-- A response, and the arguments of `record_request` and `record_response`. -/
structure Served (F : Type) where
  response : McpResponse F
  recorded : Option (ℕ × ℕ)

/-- Records a request and its response if there are counters. -/
def ConnConfig.record (conn : ConnConfig) (request response : ℕ) : Option (ℕ × ℕ) :=
  if conn.meter then some (request, response) else none

/-- The service closure of `handle_conn`. The `unwrap` of the notifications is
reached only where there are some. -/
def service (p : Profile) (full : FullOf F) (reason : ℕ → Option Bytes) (conn : ConnConfig)
    (req : McpRequest) : Scan (Served F) :=
  let (headSize, isChunked) :=
    if conn.meter then (requestHeadSize req.toHttpRequest, Http.isChunked req.headers) else (0, false)
  if req.path ≠ conn.endpoint then
    let resp := emptyResponse full 404
    return ⟨resp, conn.record headSize (resp.headSize reason 0)⟩
  else if req.method ≠ ascii "POST" then
    let resp := emptyResponse full 405
    return ⟨resp, conn.record headSize (resp.headSize reason 0)⟩
  else
    match req.collected with
    | none =>
      let resp := jsonResponse full 400 errParse
      return ⟨resp, conn.record headSize (resp.headSize reason errParse.length + errParse.length)⟩
    | some collected => do
      let bodySize := if isChunked then chunkedBodyWireSize collected.length else collected.length
      let request := headSize + bodySize
      match ← dispatchRpc p collected conn.sseNotifications.isSome with
      | .json status body =>
        let resp : McpResponse F := { jsonResponse full status body with version := req.version }
        return ⟨resp, conn.record request (resp.headSize reason body.length + body.length)⟩
      | .sseToolsCall finalEvent =>
        let notifications ← Scan.ofOption conn.sseNotifications
        let headers := [(ascii "content-type", ascii "text/event-stream"), (ascii "cache-control", ascii "no-cache")]
        let resp : McpResponse F := {
          version := req.version
          status := 200
          headers := if conn.useHttp2 then headers else headers ++ [(ascii "transfer-encoding", ascii "chunked")]
          body := sseBody notifications finalEvent }
        let bodyWire :=
          if conn.useHttp2 then conn.sseNotifWireBytes + finalEvent.length
          else conn.sseNotifWireBytes + chunkedBodyWireSize finalEvent.length
        return ⟨resp, conn.record request (resp.headSize reason 0 + bodyWire)⟩
      | .empty status =>
        let resp : McpResponse F := { emptyResponse full status with version := req.version }
        return ⟨resp, conn.record request (resp.headSize reason 0)⟩

/-! ### By what is answered -/

/-- What a request is answered with, from wherever in the service. -/
def outcome (p : Profile) (conn : ConnConfig) (req : McpRequest) : Scan DispatchOutput :=
  if req.path ≠ conn.endpoint then .ok (.empty 404)
  else if req.method ≠ ascii "POST" then .ok (.empty 405)
  else
    match req.collected with
    | none => .ok (.json 400 errParse)
    | some collected => dispatchRpc p collected conn.sseNotifications.isSome

/-- The streamed response of the service. -/
def streamResponse (conn : ConnConfig) (notifications : List Bytes) (finalEvent : Bytes) : McpResponse F where
  version := .http11
  status := 200
  headers :=
    let headers := [(ascii "content-type", ascii "text/event-stream"), (ascii "cache-control", ascii "no-cache")]
    if conn.useHttp2 then headers else headers ++ [(ascii "transfer-encoding", ascii "chunked")]
  body := sseBody notifications finalEvent

/-- The response to it, over HTTP/1.1. -/
def respond (full : FullOf F) (conn : ConnConfig) : DispatchOutput → Option (McpResponse F)
  | .empty status => some (emptyResponse full status)
  | .json status body => some (jsonResponse full status body)
  | .sseToolsCall finalEvent => conn.sseNotifications.map fun ns => streamResponse conn ns finalEvent

/-- What is recorded for the request: its head, and its body if it was read. -/
def requestSize (conn : ConnConfig) (req : McpRequest) : ℕ :=
  if req.path ≠ conn.endpoint ∨ req.method ≠ ascii "POST" then requestHeadSize req.toHttpRequest
  else requestBytesTotal req.toHttpRequest req.collected

/-- What is recorded for the body of the response. -/
def wireSize (conn : ConnConfig) : DispatchOutput → ℕ
  | .empty _ => 0
  | .json _ body => body.length
  | .sseToolsCall finalEvent =>
    if conn.useHttp2 then conn.sseNotifWireBytes + finalEvent.length
    else conn.sseNotifWireBytes + chunkedBodyWireSize finalEvent.length

/-- The length `response_head_size` is given. -/
def bodyLen : DispatchOutput → ℕ
  | .json _ body => body.length
  | _ => 0

/-- The service answers with the outcome and records it. -/
theorem service_eq (p : Profile) (full : FullOf F) (reason : ℕ → Option Bytes) (conn : ConnConfig)
    {req : McpRequest} (h11 : req.version = .http11) : service p full reason conn req = do
      let out ← outcome p conn req
      let resp ← Scan.ofOption (respond full conn out)
      return ⟨resp, conn.record (requestSize conn req)
        (resp.headSize reason (bodyLen out) + wireSize conn out)⟩ := by
  unfold service outcome
  by_cases hp : req.path ≠ conn.endpoint
  · have hsize : requestSize conn req = requestHeadSize req.toHttpRequest := if_pos (Or.inl hp)
    simp only [if_pos hp, hsize]
    cases hm : conn.meter <;> simp [respond, bodyLen, wireSize, ConnConfig.record, hm]
  · simp only [if_neg hp]
    by_cases hpost : req.method ≠ ascii "POST"
    · have hsize : requestSize conn req = requestHeadSize req.toHttpRequest := if_pos (Or.inr hpost)
      simp only [if_pos hpost, hsize]
      cases hm : conn.meter <;> simp [respond, bodyLen, wireSize, ConnConfig.record, hm]
    · have hsize : requestSize conn req = requestBytesTotal req.toHttpRequest req.collected :=
        if_neg (not_or.mpr ⟨hp, hpost⟩)
      simp only [if_neg hpost, hsize]
      cases req.collected with
      | none => cases hm : conn.meter <;> simp [respond, bodyLen, wireSize, ConnConfig.record, requestBytesTotal, hm]
      | some collected =>
        dsimp only
        cases dispatchRpc p collected conn.sseNotifications.isSome with
        | fail => rfl
        | halt w => rfl
        | ok out =>
          cases out with
          | empty status =>
            cases hm : conn.meter <;>
              simp [respond, bodyLen, wireSize, ConnConfig.record, requestBytesTotal, hm, h11, emptyResponse]
          | json status body =>
            cases hm : conn.meter <;>
              simp [respond, bodyLen, wireSize, ConnConfig.record, requestBytesTotal, hm, h11, jsonResponse]
          | sseToolsCall finalEvent =>
            cases hns : conn.sseNotifications <;> cases hm : conn.meter <;>
              simp [respond, bodyLen, wireSize, ConnConfig.record, requestBytesTotal, streamResponse, hm, h11, hns]

end Service

end Mcp
end Statico
