/-
# The log of the mock

At a verbosity above 0 the service prints each request and its response: the
head alone of a request it does not read, and nothing if reading it fails. A
streamed response is printed with the sizes of its chunks. From verbosity 3 on
the entry of a response reads back to its status line, its headers and, but for
the case of letters in the sizes of chunks, what hyper sends after the head
(`exchange_logged`).

Key definitions: `logged`, `logRequestHead`, `logResponse`, `serviceLog`,
`SameBody`.
Key theorems: `serviceLog_eq`, `printed_sent`, `exchange_logged`.
-/
import Statico.Lib.Utf8
import Statico.Mcp.Session
import Statico.Pretty.Message

namespace Statico
namespace Mcp

open Http Http1 Conn Pretty

/-! ### The printers -/

section Printers

variable {F : Type} (style : Style)

/-- A line with an arrow and the kind of message in bold, and the message. -/
def logged (arrow : String) (kind : String) (entry : Bytes) : Bytes :=
  utf8 arrow.toList ++ ascii " " ++ style.bold.1 ++ ascii kind ++ style.bold.2 ++ ascii ":\n" ++ entry ++ [byte '\n']

/-- The headers from verbosity 2 on, as `Pretty<HeaderMap>` prints them. -/
def headerLines (verbose : ℕ) (headers : List (Bytes × Bytes)) : Bytes :=
  if 1 < verbose then (shownHeaders headers).flatMap headerLine else []

/-- `log_request_head` -/
def logRequestHead (verbose : ℕ) (req : HttpRequest) : Bytes :=
  logged style "↩" "request" (requestLine style req) ++ headerLines verbose req.headers

/-- A status as it is displayed, without its number. -/
def statusText (reason : ℕ → Option Bytes) (status : ℕ) : Bytes :=
  (reason status).getD (ascii "<unknown status code>")

/-- `log_response` -/
def logResponse (reason : ℕ → Option Bytes) (verbose : ℕ) (resp : McpResponse F) (body : Bytes) : Bytes :=
  logged style "↪" "response" (prettyResponse style verbose resp.version (statusText reason resp.status)
    { resp.head with body := body })

/-- What the service prints for a request, whose body may have had trailers. -/
def serviceLog (p : Profile) (full : FullOf F) (reason : ℕ → Option Bytes) (conn : ConnConfig) (verbose : ℕ)
    (req : McpRequest) (trailers : Option (List (Bytes × Bytes))) : Scan Bytes :=
  if verbose = 0 then .ok []
  else if req.path ≠ conn.endpoint then
    return logRequestHead style verbose req.toHttpRequest ++
      logResponse style reason verbose (emptyResponse full 404) []
  else if req.method ≠ ascii "POST" then
    return logRequestHead style verbose req.toHttpRequest ++
      logResponse style reason verbose (emptyResponse full 405) []
  else
    match req.collected with
    | none => .ok []
    | some collected => do
      let printed := logged style "↩" "request" (prettyRequest style verbose req.toHttpRequest collected) ++
        (trailers.map fun ts => headerLines verbose ts ++ [byte '\n']).getD []
      match ← dispatchRpc p collected conn.sseNotifications.isSome with
      | .json status body =>
        let resp : McpResponse F := { jsonResponse full status body with version := req.version }
        return printed ++ logResponse style reason verbose resp body
      | .sseToolsCall finalEvent =>
        let notifications ← Scan.ofOption conn.sseNotifications
        let resp : McpResponse F := { streamResponse conn notifications finalEvent with version := req.version }
        return printed ++ logResponse style reason verbose resp
          (concatSseForLog notifications finalEvent (!conn.useHttp2))
      | .empty status =>
        let resp : McpResponse F := { emptyResponse full status with version := req.version }
        return printed ++ logResponse style reason verbose resp []

/-! ### By what is answered -/

/-- What is printed of a request. -/
def printedRequest (conn : ConnConfig) (verbose : ℕ) (req : McpRequest)
    (trailers : Option (List (Bytes × Bytes))) : Bytes :=
  if req.path ≠ conn.endpoint ∨ req.method ≠ ascii "POST" then logRequestHead style verbose req.toHttpRequest
  else logged style "↩" "request" (prettyRequest style verbose req.toHttpRequest (req.collected.getD [])) ++
    (trailers.map fun ts => headerLines verbose ts ++ [byte '\n']).getD []

/-- The body that is printed of a response. -/
def printedBody (conn : ConnConfig) : DispatchOutput → Bytes
  | .empty _ => []
  | .json _ body => body
  | .sseToolsCall finalEvent => concatSseForLog conn.notifications finalEvent (!conn.useHttp2)

/-- The request has a body to read, and reading it failed. -/
def Unreadable (conn : ConnConfig) (req : McpRequest) : Prop :=
  req.path = conn.endpoint ∧ req.method = ascii "POST" ∧ req.collected = none

instance (conn : ConnConfig) (req : McpRequest) : Decidable (Unreadable conn req) :=
  inferInstanceAs (Decidable (_ ∧ _ ∧ _))

variable {style}

/-- The response to the outcome is printed behind the request. -/
theorem serviceLog_eq (p : Profile) (full : FullOf F) (reason : ℕ → Option Bytes) (conn : ConnConfig)
    {verbose : ℕ} (hv : 0 < verbose) {req : McpRequest} (h11 : req.version = .http11)
    (trailers : Option (List (Bytes × Bytes))) :
    serviceLog style p full reason conn verbose req trailers =
      if Unreadable conn req then .ok [] else do
        let out ← outcome p conn req
        let resp ← Scan.ofOption (respond full conn out)
        return printedRequest style conn verbose req trailers ++
          logResponse style reason verbose resp (printedBody conn out) := by
  unfold serviceLog outcome
  rw [if_neg (Nat.ne_of_gt hv)]
  by_cases hp : req.path ≠ conn.endpoint
  · have hread : ¬ Unreadable conn req := fun h => hp h.1
    have hprinted : printedRequest style conn verbose req trailers =
        logRequestHead style verbose req.toHttpRequest := if_pos (Or.inl hp)
    rw [if_pos hp, if_neg hread, if_pos hp, hprinted]
    rfl
  · by_cases hpost : req.method ≠ ascii "POST"
    · have hread : ¬ Unreadable conn req := fun h => hpost h.2.1
      have hprinted : printedRequest style conn verbose req trailers =
          logRequestHead style verbose req.toHttpRequest := if_pos (Or.inr hpost)
      rw [if_neg hp, if_pos hpost, if_neg hread, if_neg hp, if_pos hpost, hprinted]
      rfl
    · have hprinted : printedRequest style conn verbose req trailers = _ := if_neg (not_or.mpr ⟨hp, hpost⟩)
      rw [if_neg hp, if_neg hpost, if_neg hp, if_neg hpost, hprinted]
      cases hc : req.collected with
      | none =>
        rw [if_pos ⟨not_not.mp hp, not_not.mp hpost, hc⟩]
      | some collected =>
        rw [if_neg fun h => by rw [Unreadable, hc] at h; cases h.2.2]
        dsimp only
        cases dispatchRpc p collected conn.sseNotifications.isSome with
        | fail => rfl
        | halt w => rfl
        | ok out =>
          cases out with
          | empty status => simp [respond, emptyResponse, printedBody, h11]
          | json status body => simp [respond, jsonResponse, printedBody, h11]
          | sseToolsCall f =>
            cases hns : conn.sseNotifications <;>
              simp [respond, streamResponse, printedBody, ConnConfig.notifications, hns, h11]

end Printers

/-! ### The log and the wire -/

section Exchange

variable {F : Type} {style : Style} {hyper : HyperServer} {full : FullOf F} {conn : ConnConfig} {mcpSse : Option ℕ}
  {out : DispatchOutput}

theorem toStr_visible {v : Bytes} (h : v.all (fun b => b = byte '\t' || 32 ≤ b && b < 127) = true) :
    toStr v = some v := if_pos h

/-- The headers of the mock are shown as they are. -/
theorem shownHeaders_fieldsOf (out : DispatchOutput) : shownHeaders (fieldsOf out) = fieldsOf out := by
  have hshown : ∀ name : String, ∀ v : Bytes, toStr v = some v →
      (ascii name, (toStr v).getD (ascii "<binary>")) = (ascii name, v) := by
    intro name v hv
    rw [hv]
    rfl
  have hdecimal : ∀ n, toStr (decimal n) = some (decimal n) := by
    intro n
    have hdigit : ∀ b : UInt8, isDecimal b = true → (b = byte '\t' || 32 ≤ b && b < 127) = true := by decide +kernel
    exact toStr_visible (List.all_eq_true.mpr fun b hb => hdigit b (mem_decimal hb))
  have hlength : ∀ n, (ascii "content-length", (toStr (decimal n)).getD (ascii "<binary>")) = contentLengthField n :=
    fun n => hshown "content-length" (decimal n) (hdecimal n)
  have htext : ∀ name v : String, (ascii v).all (fun b => b = byte '\t' || 32 ≤ b && b < 127) = true →
      (ascii name, (toStr (ascii v)).getD (ascii "<binary>")) = (ascii name, ascii v) :=
    fun name v hv => hshown name (ascii v) (toStr_visible hv)
  cases out with
  | empty status => exact congrArg (· :: []) (hlength 0)
  | json status body =>
    simp only [shownHeaders, fieldsOf, List.map_cons, List.map_nil, contentLengthField]
    rw [htext "content-type" "application/json" (by decide), hlength]
    rfl
  | sseToolsCall f =>
    simp only [shownHeaders, fieldsOf, List.map_cons, List.map_nil]
    rw [htext "content-type" "text/event-stream" (by decide), htext "cache-control" "no-cache" (by decide),
      htext "transfer-encoding" "chunked" (by decide)]

/-- The same bytes, or the same chunks, with letters of either case in their
sizes. -/
inductive SameBody : Bytes → Bytes → Prop
  | bytes (body : Bytes) : SameBody body body
  | chunks {cs : List Bytes} {wire : Bytes} : Chunked.Coded cs wire → SameBody (Chunked.encode cs) wire

/-- What is printed of the body is what is sent after the head. -/
theorem printed_sent (hconn : Configured conn mcpSse) (hout : Proper conn.sseNotifications.isSome out)
    {isHead : Bool} (hhead : isHead = true → ∃ status, out = .empty status) {wire : Bytes}
    (h : SentBody isHead (headOf out) (framesOf conn out) wire) : SameBody (printedBody conn out) wire := by
  rcases sent_out hconn hout hhead h with ⟨⟨f, rfl⟩, hcoded⟩ | ⟨hno, rfl⟩
  · rw [printedBody, hconn.conn_eq.1]
    have hprinted : concatSseForLog conn.notifications f true = Chunked.encode (conn.notifications ++ [f]) :=
      concatSseForLog_chunked conn.notifications f
    show SameBody (concatSseForLog conn.notifications f true) wire
    rw [hprinted]
    exact .chunks hcoded
  · cases out with
    | empty status => exact .bytes _
    | json status body => exact .bytes _
    | sseToolsCall f => exact absurd rfl (hno f)

/-- Nothing is printed of a request whose body cannot be read. From verbosity 3
on the entry of a response reads back to its status line, its headers, and the
bytes that are sent after the head; that of a request that is read, to its head
and its body. -/
theorem exchange_logged (style : Style) (hyper : HyperServer) {F : Type} (full : FullOf F)
    (conn : ConnConfig) (mcpSse : Option ℕ) (hconn : Configured conn mcpSse) (verbose : ℕ) (hv : 2 < verbose)
    (trailers : Option (List (Bytes × Bytes))) :
    (∀ req : McpRequest, req.version = .http11 → Unreadable conn req →
      serviceLog style .release full hyper.reason conn verbose req trailers = .ok []) ∧
    ∀ t : Round hyper full conn,
      (∃ out entry body date fields wire, outcome .release conn t.req = .ok out ∧
        serviceLog style .release full hyper.reason conn verbose t.req trailers =
          .ok (printedRequest style conn verbose t.req trailers ++ logged style "↪" "response" entry) ∧
        t.text = statusLine out.status ((hyper.reason out.status).getD (ascii "<none>")) ++
          (crlf ++ (fieldLines fields ++ wire)) ∧
        SameFields fields (fieldsOf out ++ [(ascii "date", date)]) ∧ SameBody body wire ∧
        ((3 < verbose → body.length < 2 ^ 32) → readLog style [byte '\n'] verbose entry =
          some (responseLine style .http11 (statusText hyper.reason out.status) (headOf out), fieldsOf out, body))) ∧
      ∀ collected, Posts conn t.req collected → (Pretty.Message.request t.req.toHttpRequest collected).Parsed →
        (3 < verbose → collected.length < 2 ^ 32) → ∃ entry after,
          printedRequest style conn verbose t.req trailers = logged style "↩" "request" entry ++ after ∧
          readLog style [byte '\n'] verbose entry =
            some (requestLine style t.req.toHttpRequest, shownHeaders t.req.headers, collected) := by
  have hlog : ∀ req : McpRequest, req.version = .http11 →
      serviceLog style .release full hyper.reason conn verbose req trailers = _ := fun req h11 =>
    serviceLog_eq .release full hyper.reason conn (by omega) h11 trailers
  refine ⟨fun req h11 hread => by rw [hlog req h11, if_pos hread],
    fun t => ⟨?_, fun collected hposts hparsed hlen => ?_⟩⟩
  · have hread : ¬ Unreadable conn t.req := by
      rintro ⟨-, -, hnone⟩
      have hsome := t.plain.body
      rw [hnone] at hsome
      cases hsome
    obtain ⟨out, hout, hproper, -, ⟨d⟩⟩ := t.cases hconn
    obtain ⟨resp, hresp, hhead, hversion, -⟩ := respond_spec full hconn hproper
    have hstatus : resp.status = out.status := congrArg HttpResponse.status hhead
    have hfields := d.same
    rw [addedLength_out, addedDate_out, List.nil_append] at hfields
    refine ⟨out, prettyResponse style verbose resp.version (statusText hyper.reason resp.status)
      { resp.head with body := printedBody conn out }, printedBody conn out, d.date, d.fields, d.wire, hout, ?_,
      d.text_eq, hfields, printed_sent hconn hproper (fun h => outcome_head hout h) d.sent, fun hlen => ?_⟩
    · rw [hlog t.req t.plain.version, if_neg hread, hout, Scan.ok_bind, hresp]
      rfl
    · have hcalm : Calm (statusText hyper.reason out.status) := by
        unfold statusText
        cases hr : hyper.reason out.status with
        | none => exact calm_of_all (by decide)
        | some reason => exact hyper.calm_reason hr
      set m : Pretty.Message := .response .http11 (statusText hyper.reason out.status)
        { headOf out with body := printedBody conn out }
      have hparsed : m.Parsed := ⟨hcalm, isField_fieldsOf out⟩
      rw [hversion, hstatus, hhead, ← shownHeaders_fieldsOf out]
      exact prettyMessage_reads style hv (calm_firstLine hparsed) (isField_shown hparsed) (Or.inr rfl) hlen
  · have hprinted : printedRequest style conn verbose t.req trailers = _ :=
      if_neg (not_or.mpr ⟨not_not.mpr hposts.path, not_not.mpr hposts.method⟩)
    rw [hposts.collected] at hprinted
    exact ⟨_, _, hprinted,
      prettyMessage_reads style hv (calm_firstLine hparsed) (isField_shown hparsed) (Or.inr rfl) hlen⟩

/-- An empty body, which is answered with an error. -/
theorem exchange_logged_empty : ∃ (t : Round sampleServer sampleFull mockConn) (entry body wire : Bytes),
    serviceLog ansi .release sampleFull sampleServer.reason mockConn 3 t.req none =
      .ok (printedRequest ansi mockConn 3 t.req none ++ logged ansi "↪" "response" entry) ∧
    wire <:+ t.text ∧ SameBody body wire ∧
    readLog ansi [byte '\n'] 3 entry = some (responseLine ansi .http11 (ascii "Bad Request")
      (headOf (.json 400 errParse)), fieldsOf (.json 400 errParse), body) := by
  obtain ⟨t, ht⟩ := mockRound []
  obtain ⟨out, entry, body, date, fields, wire, hout, hlog, htext, -, hbody, hentry⟩ := ((exchange_logged ansi
    sampleServer sampleFull mockConn (some 2) mockConn_configured 3 (by decide) none).2 t).1
  rw [ht, (mockRequest_posts _).outcome] at hout
  cases hout
  refine ⟨t, entry, body, wire, hlog, ?_, hbody, hentry fun h => absurd h (by decide)⟩
  rw [htext, ← List.append_assoc, ← List.append_assoc]
  exact List.suffix_append _ _

end Exchange

end Mcp
end Statico
