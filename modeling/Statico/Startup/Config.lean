/-
# From the command line to the client

`main` makes the addresses and the configuration of the server from the
options, or stops with an error or in a panic, and each worker runs the code
of the runtime it was asked for. What is accepted is served by code that
supports it (`options_accepted`). The texts of the header options are cut at
their first colon and trimmed, and a client of `tokio` or `smol` reads them as
they are then, those of each name in their order, before the headers the
server adds, with the status and the body of the options (`options_replied`).

Key definitions: `ServerOptions`, `parseHeaders`, `loadBodyContent`,
`Refusal`, `configure`, `runThread`, `Accepted`.
Key theorems: `configure_ok`, `options_accepted`, `options_replied`.
-/
import Statico.Http.Session
import Statico.Lib.Utf8
import Statico.Startup.Counters

namespace Statico
namespace Startup

open Http Http1 Conn

/-- A text of the command line. -/
abbrev Text : Type := List Char

inductive Runtime
  | tokio | tokioUring | monoio | glommio | smol | compio
  deriving DecidableEq

/-- The ports of the command line; `from_str` refuses an empty list. -/
structure Ports where
  list : List UInt16
  nonempty : list ≠ []

/-- The options that make the configuration. -/
structure ServerOptions where
  threads : ℕ
  ports : Ports
  bindAll : Bool
  address : Option Text
  status : ℕ
  body : Option Text
  header : List Text
  http2 : Bool
  runtime : Runtime
  cert : Option Text
  key : Option Text
  mcpEverything : Option Text
  mcpSse : Option ℕ

/-! ### Headers -/

/-- `char::is_whitespace`: the property `White_Space` of Unicode. -/
def isWhitespace (c : Char) : Bool :=
  (0x09 ≤ c.toNat && c.toNat ≤ 0x0D) || c.toNat = 0x20 || c.toNat = 0x85 || c.toNat = 0xA0 || c.toNat = 0x1680 ||
    (0x2000 ≤ c.toNat && c.toNat ≤ 0x200A) || c.toNat = 0x2028 || c.toNat = 0x2029 || c.toNat = 0x202F ||
    c.toNat = 0x205F || c.toNat = 0x3000

/-- `str::trim` -/
def trimText (s : Text) : Text := trimBoth isWhitespace s

/-- `split_once` -/
def splitOnce (s : Text) (delimiter : Char) : Option (Text × Text) :=
  match s.dropWhile (· ≠ delimiter) with
  | [] => none
  | _ :: v => some (s.takeWhile (· ≠ delimiter), v)

/-- The loop over the header options; one without a colon is ignored. -/
def parseHeaders (header : List Text) : List (Text × Text) :=
  header.filterMap fun h => (splitOnce h ':').map fun (k, v) => (trimText k, trimText v)

theorem splitOnce_append {k : Text} {d : Char} (h : d ∉ k) (v : Text) : splitOnce (k ++ d :: v) d = some (k, v) := by
  have hne : ∀ c ∈ k, decide (c ≠ d) = true := fun c hc => decide_eq_true fun e => h (e ▸ hc)
  have hdrop : (k ++ d :: v).dropWhile (· ≠ d) = d :: v := by
    rw [List.dropWhile_append_of_pos hne, List.dropWhile_cons, if_neg (by simp)]
  have htake : (k ++ d :: v).takeWhile (· ≠ d) = k := by
    rw [List.takeWhile_append_of_pos hne, List.takeWhile_cons, if_neg (by simp), List.append_nil]
  rw [splitOnce, hdrop, htake]

/-- A trimmed text is encoded without blanks around it. -/
theorem trim_trimText (s : Text) : trim (utf8 (trimText s)) = utf8 (trimText s) := by
  have hwhite : ∀ c : Char, isWhitespace c = false → ¬ (c.toNat = 0x20 ∨ c.toNat = 0x09) := by
    intro c hc h
    rcases h with h | h <;> simp [isWhitespace, h] at hc
  exact trim_utf8 (fun c hc => hwhite c (head_trimBoth s c hc)) fun c hc => hwhite c (last_trimBoth s c hc)

/-! ### The configuration -/

/-- How `main` stops before it serves. -/
inductive Refusal
  | error (message : Text)
  | panic

def orPanic {α : Type} : Option α → Except Refusal α
  | some a => .ok a
  | none => .error .panic

/-- What the workers are given. -/
structure Prepared (T : Type) where
  cell : Option Counters
  addrs : List (List SocketAddr)
  config : ServerConfig
  tls : Option T

section Configure

variable {T : Type} (parseIp : Text → Option IpAddr) (readFile : Text → Option Bytes)
  (loadServerConfig : Text → Text → Bool → Except Refusal T)

/-- The address to listen on; `parseIp` is the parser of `IpAddr`. -/
def parseAddress (address : Option Text) : Except Refusal (Option IpAddr) :=
  match address with
  | some address =>
    match parseIp address with
    | some ip => .ok (some ip)
    | none => .error (.error ("Invalid address: ".toList ++ address))
  | none => .ok none

def loadBodyContent (body : Option Text) : Except Refusal Bytes :=
  match body with
  | some ('@' :: filePath) =>
    match readFile filePath with
    | some fileContent => .ok fileContent
    | none => .error (.error ("Failed to read body from ".toList ++ filePath))
  | some content => .ok (utf8 content)
  | none => .ok []

/-- `StatusCode::from_u16` -/
def statusCode (status : ℕ) : Except Refusal ℕ :=
  if 100 ≤ status ∧ status ≤ 999 then .ok status else .error (.error "Invalid status code".toList)

def loadTls (cert key : Option Text) (http2 : Bool) : Except Refusal (Option T) :=
  match cert, key with
  | some cert, some key => some <$> loadServerConfig cert key http2
  | none, none => .ok none
  | _, _ => .error (.error "Both --cert and --key must be provided to enable HTTPS".toList)

def checkMcp (opts : ServerOptions) : Except Refusal Unit :=
  if opts.mcpSse.isSome && opts.mcpEverything.isNone then
    .error (.error "--mcp-sse requires --mcp-everything to be enabled".toList)
  else
    match opts.mcpEverything with
    | none => .ok ()
    | some ep =>
      if ep.head? ≠ some '/' then
        .error (.error ("MCP endpoint must start with '/': got '".toList ++ ep ++ "'".toList))
      else if opts.runtime ≠ .tokio then
        .error (.error "--mcp-everything currently supports only --runtime tokio".toList)
      else .ok ()

def checkHttp2 (opts : ServerOptions) : Except Refusal Unit :=
  if opts.http2 then
    match opts.runtime with
    | .tokio => .ok ()
    | .tokioUring => .error (.error "HTTP/2 is not currently supported with tokio-uring".toList)
    | .monoio => .error (.error "HTTP/2 is not currently supported with monoio".toList)
    | .glommio => .error (.error "HTTP/2 is not currently supported with glommio".toList)
    | .smol => .error (.error "HTTP/2 is not currently supported with smol".toList)
    | .compio => .error (.error "HTTP/2 is not currently supported with compio".toList)
  else .ok ()

/-- `main` up to the workers. -/
def configure (opts : ServerOptions) : Except Refusal (Prepared T) := do
  let cell := initPortCounters none opts.ports.list
  let chunks ← orPanic (balancePorts opts.ports.list opts.threads opts.bindAll)
  let ip ← parseAddress parseIp opts.address
  let addrs := addresses ip chunks
  let parsedHeaders := parseHeaders opts.header
  let bodyContent ← loadBodyContent readFile opts.body
  let status ← statusCode opts.status
  let tls ← loadTls loadServerConfig opts.cert opts.key opts.http2
  checkMcp opts
  checkHttp2 opts
  return {
    cell := cell
    addrs := addrs
    config := ⟨status, parsedHeaders.map fun (k, v) => (utf8 k, utf8 v), bodyContent⟩
    tls := tls }

end Configure

/-! ### What is accepted -/

section Accepted

variable {T : Type} {parseIp : Text → Option IpAddr} {readFile : Text → Option Bytes}
  {loadServerConfig : Text → Text → Bool → Except Refusal T} {opts : ServerOptions}

/-- What the options have to be like. -/
structure Accepted (parseIp : Text → Option IpAddr) (readFile : Text → Option Bytes)
    (loadServerConfig : Text → Text → Bool → Except Refusal T) (opts : ServerOptions) : Prop where
  threads : opts.bindAll = true ∨ 1 ≤ opts.threads
  address : ∀ address, opts.address = some address → (parseIp address).isSome = true
  body : ∀ path, opts.body = some ('@' :: path) → (readFile path).isSome = true
  status : 100 ≤ opts.status ∧ opts.status ≤ 999
  tls : opts.cert = none ∧ opts.key = none ∨
    ∃ cert key config, opts.cert = some cert ∧ opts.key = some key ∧
      loadServerConfig cert key opts.http2 = .ok config
  sse : opts.mcpSse.isSome = true → opts.mcpEverything.isSome = true
  mcp : ∀ ep, opts.mcpEverything = some ep → ep.head? = some '/' ∧ opts.runtime = .tokio
  http2 : opts.http2 = true → opts.runtime = .tokio

theorem bind_ok {ε α β : Type} {x : Except ε α} {f : α → Except ε β} {b : β} :
    (x >>= f) = .ok b ↔ ∃ a, x = .ok a ∧ f a = .ok b := by
  cases x with
  | error e => exact ⟨nofun, fun ⟨_, h, _⟩ => nomatch h⟩
  | ok a => exact ⟨fun h => ⟨a, rfl, h⟩, fun ⟨_, h, hf⟩ => by cases h; exact hf⟩

theorem orPanic_ok {α : Type} {x : Option α} {a : α} : orPanic x = .ok a ↔ x = some a := by
  cases x with
  | none => exact ⟨nofun, nofun⟩
  | some b => exact ⟨fun h => congrArg some (Except.ok.inj h), fun h => congrArg Except.ok (Option.some.inj h)⟩

/-- The ports are spread over the threads unless there are none to divide by. -/
theorem balancePorts_ok (ports : Ports) (n : ℕ) (bindAll : Bool) :
    (∃ chunks, balancePorts ports.list n bindAll = some chunks) ↔ bindAll = true ∨ 1 ≤ n := by
  rcases Nat.eq_zero_or_pos n with rfl | hn
  · cases bindAll with
    | true => exact iff_of_true ⟨[], rfl⟩ (Or.inl rfl)
    | false =>
      have hlen : ports.list.length ≠ 0 := fun h => ports.nonempty (List.length_eq_zero_iff.mp h)
      simp [balancePorts, hlen, chunksBalanced]
  · obtain ⟨chunks, hchunks, -⟩ := balancePorts_length ports.nonempty hn bindAll
    exact iff_of_true ⟨chunks, hchunks⟩ (Or.inr hn)

/-- There is a list of ports for each worker. -/
theorem length_chunks {ports : Ports} {n : ℕ} {bindAll : Bool} {chunks : List (List UInt16)}
    (h : balancePorts ports.list n bindAll = some chunks) : chunks.length = n := by
  rcases (balancePorts_ok ports n bindAll).mp ⟨chunks, h⟩ with rfl | hn
  · cases h
    exact List.length_replicate
  · obtain ⟨lists, hlists, hlen⟩ := balancePorts_length ports.nonempty hn bindAll
    rw [h] at hlists
    rwa [Option.some.inj hlists]

theorem statusCode_ok {status s : ℕ} : statusCode status = .ok s ↔ (100 ≤ status ∧ status ≤ 999) ∧ s = status := by
  unfold statusCode
  split_ifs with h
  · exact ⟨fun e => ⟨h, (Except.ok.inj e).symm⟩, fun e => by rw [e.2]⟩
  · exact ⟨nofun, fun e => absurd e.1 h⟩

/-- The options that `startup` reads, with the address parsed. -/
def ServerOptions.listening (opts : ServerOptions) (ip : Option IpAddr) : Options :=
  ⟨opts.threads, opts.ports.list, opts.bindAll, ip⟩

/-- What the workers are given, where there are any. -/
theorem configure_ok {p : Prepared T} : configure parseIp readFile loadServerConfig opts = .ok p ↔
    (∃ ip, parseAddress parseIp opts.address = .ok ip ∧ startup (opts.listening ip) = some (p.cell, p.addrs)) ∧
      loadBodyContent readFile opts.body = .ok p.config.body ∧ (100 ≤ opts.status ∧ opts.status ≤ 999) ∧
      p.config.status = opts.status ∧
      p.config.headers = (parseHeaders opts.header).map (fun (k, v) => (utf8 k, utf8 v)) ∧
      loadTls loadServerConfig opts.cert opts.key opts.http2 = .ok p.tls ∧ checkMcp opts = .ok () ∧
      checkHttp2 opts = .ok () := by
  obtain ⟨cell, addrs, ⟨status, headers, body⟩, tls⟩ := p
  simp only [configure, startup, ServerOptions.listening, bind_ok, orPanic_ok, statusCode_ok, Option.bind_eq_bind,
    Option.bind_eq_some_iff]
  constructor
  · rintro ⟨chunks, hchunks, ip, hip, content, hbody, s, ⟨hs, rfl⟩, t, htls, ⟨⟩, hmcp, ⟨⟩, hhttp2, h⟩
    cases h
    exact ⟨⟨ip, hip, chunks, hchunks, rfl⟩, hbody, hs, rfl, rfl, htls, hmcp, hhttp2⟩
  · rintro ⟨⟨ip, hip, chunks, hchunks, h⟩, hbody, hs, rfl, rfl, htls, hmcp, hhttp2⟩
    cases h
    exact ⟨chunks, hchunks, ip, hip, _, hbody, _, ⟨hs, rfl⟩, _, htls, (), hmcp, (), hhttp2, rfl⟩

end Accepted

/-- A header as a client reads it. -/
def asRead (h : Text × Text) : Bytes × Bytes := ((utf8 h.1).map lower, utf8 h.2)

theorem trimmed_parseHeaders (header : List Text) :
    trimmed (((parseHeaders header).map fun (k, v) => (utf8 k, utf8 v)).map field) =
      (parseHeaders header).map asRead := by
  rw [trimmed, List.map_map, List.map_map]
  refine List.map_congr_left fun h hh => ?_
  obtain ⟨t, -, ht⟩ := List.mem_filterMap.mp hh
  obtain ⟨⟨k, v⟩, -, rfl⟩ := Option.map_eq_some_iff.mp ht
  simp only [Function.comp_apply, field, asRead, trim_trimText]

theorem mem_parseHeaders {header : List Text} {k v : Text} (hk : ':' ∉ k) (h : k ++ ':' :: v ∈ header) :
    (trimText k, trimText v) ∈ parseHeaders header :=
  List.mem_filterMap.mpr ⟨_, h, by rw [splitOnce_append hk]; rfl⟩

/-- A reply with the status and the body of the options, and the header
options, those of each name in their order, before a length and a date. -/
structure Requested (opts : ServerOptions) (content : Bytes) (isHead : Bool) (reply : Reply) : Prop where
  status : reply.status = opts.status
  body : reply.body = if Bodiless isHead opts.status then [] else content
  fields : ∃ added, SameFields reply.fields ((parseHeaders opts.header).map asRead ++ added) ∧
    ∀ f ∈ added, f.1 = ascii "content-length" ∨ f.1 = ascii "date"
  headers : ∀ k v, ':' ∉ k → k ++ ':' :: v ∈ opts.header → asRead (trimText k, trimText v) ∈ reply.fields

/-- Whatever requests a connection to `tokio` or `smol` that stays open carries,
a client reads one reply for each, with what the options ask for, and nothing is
left over. -/
theorem options_replied {T : Type} (parseIp : Text → Option IpAddr) (readFile : Text → Option Bytes)
    (loadServerConfig : Text → Text → Bool → Except Refusal T) (opts : ServerOptions) (p : Prepared T)
    (hconfig : configure parseIp readFile loadServerConfig opts = .ok p) (h200 : 200 ≤ opts.status)
    (hc : Custom p.config.headers) (hl : Lasting p.config.headers) (map : HeaderMap) (hyper : HyperServer)
    (ts : List (Visit map hyper p.config)) (rest : Bytes) :
    ∃ rs content, loadBodyContent readFile opts.body = .ok content ∧
      cutReplies (ts.map fun t => t.req.isHead) ((ts.map Visit.text).flatten ++ rest) = some (rs, rest) ∧
      List.Forall₂ (fun t reply => Requested opts content t.req.isHead reply) ts rs := by
  obtain ⟨-, hbody, ⟨-, h999⟩, hstatus, hheaders, -⟩ := configure_ok.mp hconfig
  obtain ⟨rs, hread, hrs⟩ := Visit.replies (hstatus ▸ h200) (hstatus ▸ h999) hc hl ts rest
  refine ⟨rs, p.config.body, hbody, hread, hrs.imp fun t reply ha => ?_⟩
  have hreply := ha.replied t.built
  obtain ⟨added, hsame, hadded⟩ := hreply.fields
  rw [hheaders, trimmed_parseHeaders] at hsame
  refine ⟨hreply.status.trans hstatus, ?_, ⟨added, hsame, hadded⟩, fun k v hk hkv => ?_⟩
  · rw [hreply.body, hstatus]
  · exact hsame.perm.symm.subset (List.mem_append_left _ (List.mem_map_of_mem (mem_parseHeaders hk hkv)))

/-! #### A server on port 80 -/

/-- With a header and a body. -/
def sampleOptions : ServerOptions :=
  ⟨1, ⟨[80], List.cons_ne_nil _ _⟩, false, none, 200, some "x".toList, ["X-A :  b ".toList], false, .tokio,
    none, none, none, none⟩

def samplePrepared : Prepared Unit :=
  ⟨initPortCounters none [80], [[.v4 0 80]], ⟨200, [(ascii "X-A", ascii "b")], ascii "x"⟩, none⟩

theorem sampleOptions_configure :
    configure (fun _ => none) (fun _ => none) (fun _ _ _ => .ok ()) sampleOptions = .ok samplePrepared :=
  configure_ok.mpr ⟨⟨none, rfl, rfl⟩, rfl, by decide, rfl, by decide, rfl, rfl, rfl⟩

/-- A `GET` of it. -/
def preparedVisit : Visit plainHeaders sampleServer samplePrepared.config where
  req := ⟨ascii "GET", ascii "/", .http11, []⟩
  body := some []
  response := ⟨200, [(ascii "x-a", ascii "b"), contentLengthField 1], ascii "x"⟩
  text := sampleText false ⟨200, [(ascii "x-a", ascii "b"), contentLengthField 1], ascii "x"⟩ [ascii "x"]
  built := rfl
  plain := plain_request "GET" (by decide) []
  writes := rfl

theorem options_replied_sample : ∃ reply,
    cutReplies [false] ([preparedVisit.text].flatten ++ []) = some ([reply], []) ∧ reply.status = 200 ∧ reply.body = ascii "x" ∧ (ascii "x-a", ascii "b") ∈ reply.fields := by
  obtain ⟨rs, content, hcontent, hread, hrs⟩ := options_replied (fun _ => none) (fun _ => none) (fun _ _ _ => .ok ())
    sampleOptions samplePrepared sampleOptions_configure (by decide) (custom_iff.mpr (by decide))
    ⟨by decide, by decide⟩ plainHeaders sampleServer [preparedVisit] []
  cases hrs with
  | cons h hrs =>
    cases hrs
    have hx : content = ascii "x" := (Except.ok.inj hcontent).symm
    have hread' : asRead (trimText "X-A ".toList, trimText "  b ".toList) = (ascii "x-a", ascii "b") := by decide
    refine ⟨_, hread, h.status, ?_, ?_⟩
    · rw [h.body, if_neg (by decide), hx]
    · rw [← hread']
      exact h.headers "X-A ".toList "  b ".toList (by decide) (by decide)

end Startup
end Statico
