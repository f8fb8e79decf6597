/-
# The dispatcher of `mcp.rs`

`dispatch_rpc` and the builders of its responses. A response is spliced from
constant fragments and slices of the request, copied as they are.

Key definitions: `DispatchOutput`, `handleToolsCall`, `dispatchMethod`,
`dispatchRpc`, `buildSseNotifications`.
Key theorems: `dispatchRpc_ok`, `dispatchRpc_fail`, `dispatchRpc_halt`.
-/
import Statico.Lib.Ascii
import Statico.Mcp.Rpc

namespace Statico
namespace Mcp

def defaultProtocolVersion : Bytes := ascii "2025-06-18"
def serverName : Bytes := ascii "statico-everything"
/-- `env!("CARGO_PKG_VERSION")` -/
def cargoPkgVersion : Bytes := ascii "0.21.1"

/-- `PREFIX` -/
def rpcPrefix : Bytes := ascii "\x7b\"jsonrpc\":\"2.0\",\"id\":"
def sseEventPrefix : Bytes := ascii "event: message\ndata: "
def sseEventSuffix : Bytes := ascii "\n\n"

def initResultPrefix : Bytes := ascii ",\"result\":\x7b\"protocolVersion\":\""
def initResultMid : Bytes :=
  ascii "\",\"capabilities\":\x7b\"tools\":\x7b\"listChanged\":false\x7d\x7d,\"serverInfo\":\x7b\"name\":\""
def initResultMid2 : Bytes := ascii "\",\"version\":\""
def initResultSuffix : Bytes :=
  ascii "\"\x7d,\"instructions\":\"Minimal everything mock for benchmarking\"\x7d\x7d"

def toolsListResult : Bytes :=
  ascii ",\"result\":\x7b\"tools\":[\x7b\"name\":\"answer\",\"description\":\"Always answers 42\"," ++
  ascii "\"inputSchema\":\x7b\"type\":\"object\",\"properties\":\x7b\x7d\x7d\x7d,\x7b\"name\":\"echo\"," ++
  ascii "\"description\":\"Echoes back the input text\",\"inputSchema\":\x7b\"type\":\"object\"," ++
  ascii "\"properties\":\x7b\"text\":\x7b\"type\":\"string\",\"description\":\"Text to echo\"\x7d\x7d," ++
  ascii "\"required\":[\"text\"]\x7d\x7d]\x7d\x7d"

def pingResult : Bytes := ascii ",\"result\":\x7b\x7d\x7d"

def toolsCallAnswerResult : Bytes :=
  ascii ",\"result\":\x7b\"content\":[\x7b\"type\":\"text\",\"text\":\"42\"\x7d],\"isError\":false\x7d\x7d"
def toolsCallTextPrefix : Bytes := ascii ",\"result\":\x7b\"content\":[\x7b\"type\":\"text\",\"text\":\""
def toolsCallTextSuffix : Bytes := ascii "\"\x7d],\"isError\":false\x7d\x7d"
def toolsCallUnknownPrefix : Bytes :=
  ascii ",\"result\":\x7b\"content\":[\x7b\"type\":\"text\",\"text\":\"unknown tool "
def toolsCallUnknownSuffix : Bytes := ascii "\"\x7d],\"isError\":true\x7d\x7d"

def errParse : Bytes :=
  ascii "\x7b\"jsonrpc\":\"2.0\",\"id\":null,\"error\":\x7b\"code\":-32700,\"message\":\"Parse error\"\x7d\x7d"
def errInvalidSuffix : Bytes :=
  ascii ",\"error\":\x7b\"code\":-32600,\"message\":\"Invalid Request\"\x7d\x7d"
def errInvalidParamsSuffix : Bytes :=
  ascii ",\"error\":\x7b\"code\":-32602,\"message\":\"Invalid params\"\x7d\x7d"
def errMethodPrefix : Bytes := ascii "\x7b\"jsonrpc\":\"2.0\",\"id\":"
def errMethodSuffix : Bytes :=
  ascii ",\"error\":\x7b\"code\":-32601,\"message\":\"Method not found\"\x7d\x7d"

/-! ### The builders -/

def buildFramedWithId (pre id resultFragment suf : Bytes) : Bytes :=
  pre ++ rpcPrefix ++ id ++ resultFragment ++ suf

def buildWithId (id resultFragment : Bytes) : Bytes := buildFramedWithId [] id resultFragment []

def buildTextResult (pre id text suf : Bytes) : Bytes :=
  pre ++ rpcPrefix ++ id ++ toolsCallTextPrefix ++ text ++ toolsCallTextSuffix ++ suf

def buildUnknownTool (pre id nameInner suf : Bytes) : Bytes :=
  pre ++ rpcPrefix ++ id ++ toolsCallUnknownPrefix ++ nameInner ++ toolsCallUnknownSuffix ++ suf

def buildInitialize (id version : Bytes) : Bytes :=
  rpcPrefix ++ id ++ initResultPrefix ++ version ++ initResultMid ++ serverName ++ initResultMid2 ++
    cargoPkgVersion ++ initResultSuffix

def buildErrorWithId (id suffix : Bytes) : Bytes := errMethodPrefix ++ id ++ suffix

/-! ### The dispatch -/

def hasId : Option Bytes → Bool
  | none => false
  | some id => id ≠ ascii "null"

def isNotifications (method : Bytes) : Bool :=
  14 < method.length && (ascii "notifications/").isPrefixOf method

/-- `tools/call`: `answer`, `echo`, or an error result for any other name. -/
def handleToolsCall (p : Profile) (id : Bytes) (paramsRaw : Option Bytes) (sse : Bool) : Scan Bytes := do
  let (nameRaw, argumentsRaw) ← findCallTarget p (← Scan.ofOption paramsRaw)
  let nameInner ← stringInner nameRaw
  let (pre, suf) := if sse then (sseEventPrefix, sseEventSuffix) else ([], [])
  if nameInner = ascii "answer" then
    return buildFramedWithId pre id toolsCallAnswerResult suf
  else if nameInner = ascii "echo" then
    let textInner ← stringInner (← findRawValue p (← Scan.ofOption argumentsRaw) (ascii "text"))
    return buildTextResult pre id textInner suf
  else
    return buildUnknownTool pre id nameInner suf

inductive DispatchOutput
  | empty (status : ℕ)
  | json (status : ℕ) (body : Bytes)
  | sseToolsCall (body : Bytes)
  deriving DecidableEq, Repr

/-- `dispatch_rpc` on a request that wants an answer, by its method. -/
def dispatchMethod (p : Profile) (method id : Bytes) (paramsRaw : Option Bytes) (sseToolsCall : Bool) :
    Scan DispatchOutput := do
  if method = ascii "initialize" then
    let version ← (do findProtocolVersion p (← Scan.ofOption paramsRaw)).attempt
    return .json 200 (buildInitialize id (version.getD defaultProtocolVersion))
  else if method = ascii "tools/list" then return .json 200 (buildWithId id toolsListResult)
  else if method = ascii "ping" then return .json 200 (buildWithId id pingResult)
  else if method = ascii "tools/call" then
    match ← (handleToolsCall p id paramsRaw sseToolsCall).attempt with
    | some body => if sseToolsCall then return .sseToolsCall body else return .json 200 body
    | none => return .json 200 (buildErrorWithId id errInvalidParamsSuffix)
  else return .json 200 (buildErrorWithId id errMethodSuffix)

/-- `dispatch_rpc` after `parse_rpc`. -/
def dispatchParsed (p : Profile) (rpc : Rpc) (sseToolsCall : Bool) : Scan DispatchOutput :=
  let id := rpc.idRaw.getD (ascii "null")
  match rpc.method with
  | none =>
    if hasId rpc.idRaw then return .json 400 (buildErrorWithId id errInvalidSuffix)
    else return .empty 202
  | some method =>
    if isNotifications method then return .empty 202
    else if !hasId rpc.idRaw then return .empty 202
    else dispatchMethod p method id rpc.paramsRaw sseToolsCall

def dispatchRpc (p : Profile) (body : Bytes) (sseToolsCall : Bool) : Scan DispatchOutput := do
  if body = [] then return .json 400 errParse
  else match ← (parseRpc p body).attempt with
  | none => return .json 400 errParse
  | some rpc => dispatchParsed p rpc sseToolsCall

section Dispatch

variable {p : Profile} {body : Bytes}

/-- A body that does not parse, the empty one too, is a parse error. -/
theorem dispatchRpc_fail (h : parseRpc p body = .fail) (sse : Bool) :
    dispatchRpc p body sse = .ok (.json 400 errParse) := by
  unfold dispatchRpc
  rw [h]
  split_ifs <;> rfl

theorem parseRpc_nil (p : Profile) : parseRpc p [] = .fail := by
  unfold parseRpc scanObject
  rw [skipWs, dif_neg (by simp)]
  rfl

theorem dispatchRpc_ok {rpc : Rpc} (h : parseRpc p body = .ok rpc) (sse : Bool) :
    dispatchRpc p body sse = dispatchParsed p rpc sse := by
  have hne : body ≠ [] := by
    rintro rfl
    rw [parseRpc_nil] at h
    cases h
  unfold dispatchRpc
  rw [h, if_neg hne]
  rfl

theorem dispatchRpc_halt {w : Halt} (h : parseRpc p body = .halt w) (sse : Bool) :
    dispatchRpc p body sse = .halt w := by
  have hne : body ≠ [] := by
    rintro rfl
    rw [parseRpc_nil] at h
    cases h
  unfold dispatchRpc
  rw [h, if_neg hne]
  rfl

/-- A parsed request is answered by its method, is invalid, or wants no answer. -/
theorem dispatchParsed_cases (p : Profile) (rpc : Rpc) :
    (∃ m id, rpc.method = some m ∧ rpc.idRaw = some id ∧ id ≠ ascii "null" ∧
      ∀ sse, dispatchParsed p rpc sse = dispatchMethod p m id rpc.paramsRaw sse) ∨
    (∃ id, rpc.method = none ∧ rpc.idRaw = some id ∧ id ≠ ascii "null" ∧
      ∀ sse, dispatchParsed p rpc sse = .ok (.json 400 (buildErrorWithId id errInvalidSuffix))) ∨
    ∀ sse, dispatchParsed p rpc sse = .ok (.empty 202) := by
  obtain ⟨method, idRaw, paramsRaw⟩ := rpc
  unfold dispatchParsed
  cases idRaw with
  | none =>
    refine Or.inr (Or.inr fun sse => ?_)
    cases method with
    | none => rfl
    | some m => cases hn : isNotifications m <;> simp [hn, hasId]
  | some id =>
    by_cases hid : id = ascii "null"
    · have hh : hasId (some id) = false := by rw [hid]; rfl
      refine Or.inr (Or.inr fun sse => ?_)
      cases method with
      | none => simp [hh]
      | some m => cases hn : isNotifications m <;> simp [hn, hh]
    · have hh : hasId (some id) = true := by rw [hasId, decide_eq_true_eq]; exact hid
      cases method with
      | none => exact Or.inr (Or.inl ⟨id, rfl, rfl, hid, fun sse => by simp [hh]⟩)
      | some m =>
        cases hn : isNotifications m with
        | true => exact Or.inr (Or.inr fun sse => by simp [hn])
        | false => exact Or.inl ⟨m, id, rfl, rfl, hid, fun sse => by simp [hn, hh]⟩

end Dispatch

/-! ### The notifications of a stream -/

/-- The `i`-th of `count` notifications. -/
def sseNotification (count i : ℕ) : Bytes :=
  ascii "event: message\ndata: \x7b\"jsonrpc\":\"2.0\",\"method\":\"notifications/message\",\"params\":" ++
  ascii "\x7b\"level\":\"info\",\"data\":\"step " ++ decimal i ++ ascii "/" ++ decimal count ++
  ascii "\"\x7d\x7d\n\n"

def buildSseNotifications (count : ℕ) : List Bytes := (List.range' 1 count).map (sseNotification count)

end Mcp
end Statico
