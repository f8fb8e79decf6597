/-
# A connection of the hyper services

On a connection that stays open `tokio` and `smol` answer one request after
another, each with a response of its own that hyper writes. hyper leaves out
the body where the client expects none, so whatever the methods are, the
status and the configured headers, a client reads one reply for each request
(`service_replies`), which the runtimes with a pre-built response do not
achieve. Where no `HEAD` is asked, it reads the same from both
(`runtimes_agree`).

Key definitions: `Lasting`, `Visit`, `Replied`, `Agree`.
Key theorems: `regular_service`, `Visit.replies`, `service_replies`,
`runtimes_agree`.
-/
import Statico.Http.HyperServer

namespace Statico
namespace Http

open Http1 Conn

/-! ### Visits -/

/-- The frames that `Full` gives for these data. -/
def fullFrames (data : Bytes) : List Bytes := if data = [] then [] else [data]

theorem fullFrames_flatten (data : Bytes) : (fullFrames data).flatten = data := by
  unfold fullFrames
  split_ifs with h
  · exact h.symm
  · exact List.flatten_singleton

/-- No custom header is about the connection or the fields after the body. -/
def Lasting (headers : List (Bytes × Bytes)) : Prop :=
  containsKey "connection" headers = false ∧ containsKey "trailer" headers = false

/-- A request on a connection that stays open, the response of the service to
it, and what hyper writes. -/
structure Visit (map : HeaderMap) (hyper : HyperServer) (config : ServerConfig) where
  req : HttpRequest
  body : Option Bytes
  response : HttpResponse
  text : Bytes
  built : serviceResponse map config = some response
  plain : KeepsOpen req body
  writes : hyper.Writes req body response (fullFrames response.body) text

section Service

variable {map : HeaderMap} {hyper : HyperServer} {config : ServerConfig} {r : HttpResponse}

/-- The configured headers, and the length of a body that is not empty. -/
theorem serviceResponse_headers (h : serviceResponse map config = some r) :
    SameFields r.headers (config.headers.map field ++
      if config.body ≠ [] then [contentLengthField config.body.length] else []) := by
  have hsame := addHeaders_same (serviceResponse_some h).1
  rw [serviceHeaders, List.map_append] at hsame
  split_ifs at hsame ⊢
  · rwa [List.map_singleton, field_contentLength] at hsame
  · exact hsame

theorem regular_service (h200 : 200 ≤ config.status) (h999 : config.status ≤ 999) (hc : Custom config.headers)
    (hl : Lasting config.headers) (h : serviceResponse map config = some r) (isHead : Bool) :
    Regular isHead r (fullFrames r.body) := by
  obtain ⟨hh, hstatus, hbody⟩ := serviceResponse_some h
  have hframing := serviceResponse_framing hc h
  have hkey : ∀ name : String, containsKey name config.headers = false → ascii name ≠ ascii "content-length" →
      containsKey name r.headers = false := by
    intro name hname hne
    have hlength : containsKey name [contentLengthField config.body.length] = false := by
      have hnot : (contentLengthField config.body.length).1.map lower ≠ ascii name := by
        show (ascii "content-length").map lower ≠ ascii name
        rw [show (ascii "content-length").map lower = ascii "content-length" by decide]
        exact hne.symm
      simp [containsKey, Named, hnot]
    rw [containsKey_addHeaders _ hh, serviceHeaders, containsKey_append, hname]
    split_ifs
    · exact hlength
    · rfl
  refine ⟨by omega, hkey _ hl.1 (by decide), hkey _ hl.2 (by decide), ?_⟩
  rw [fullFrames_flatten]
  by_cases hb : r.body = []
  · rw [if_pos hb] at hframing
    exact Or.inl ⟨hframing, hb⟩
  · rw [if_neg hb] at hframing
    exact Or.inr (Or.inl ⟨hframing, fun h0 => absurd h0 hb⟩)

/-- A reply with the configured status and body, without the body where none is
expected, and with the configured headers, those of each name in their order,
before a length and a date. -/
structure Replied (config : ServerConfig) (isHead : Bool) (reply : Reply) : Prop where
  status : reply.status = config.status
  body : reply.body = if Bodiless isHead config.status then [] else config.body
  fields : ∃ added, SameFields reply.fields (trimmed (config.headers.map field) ++ added) ∧
    ∀ f ∈ added, f.1 = ascii "content-length" ∨ f.1 = ascii "date"

theorem addedLength_name {isHead : Bool} {f : Bytes × Bytes} (h : f ∈ addedLength isHead r) :
    f.1 = ascii "content-length" := by
  unfold addedLength at h
  split_ifs at h
  · rw [List.mem_singleton.mp h]
    rfl
  · cases h

theorem addedDate_name {date : Bytes} {f : Bytes × Bytes} (h : f ∈ addedDate date r) : f.1 = ascii "date" := by
  unfold addedDate at h
  split_ifs at h
  · cases h
  · rw [List.mem_singleton.mp h]

theorem ReplyTo.replied {isHead : Bool} {reply : Reply} (ha : ReplyTo isHead r (fullFrames r.body) reply)
    (h : serviceResponse map config = some r) : Replied config isHead reply := by
  obtain ⟨-, hstatus, hbody⟩ := serviceResponse_some h
  obtain ⟨date, hfields⟩ := ha.fields
  set own := if config.body ≠ [] then [contentLengthField config.body.length] else [] with hown
  refine ⟨ha.status.trans hstatus, ?_, trimmed (own ++ (addedLength isHead r ++ addedDate date r)), ?_, ?_⟩
  · rw [ha.body, fullFrames_flatten, hstatus, hbody]
  · have hsame := ((serviceResponse_headers h).append_right (addedLength isHead r ++ addedDate date r)).map trim
    rw [List.append_assoc] at hsame
    rw [trimmed, trimmed, ← List.map_append]
    exact hfields.trans hsame
  · intro f hf
    obtain ⟨g, hg, rfl⟩ := List.mem_map.mp hf
    rcases List.mem_append.mp hg with hg | hg
    · rw [hown] at hg
      split_ifs at hg
      · exact Or.inl (by rw [List.mem_singleton.mp hg]; rfl)
      · cases hg
    · rcases List.mem_append.mp hg with hg | hg
      · have hname := addedLength_name hg
        exact Or.inl hname
      · have hname := addedDate_name hg
        exact Or.inr hname

theorem HyperServer.calm_phrase (hyper : HyperServer) (status : ℕ) :
    Calm ((hyper.reason status).getD (ascii "<none>")) := by
  cases h : hyper.reason status with
  | none => exact calm_of_all (by decide)
  | some text => exact hyper.calm_reason h

/-- What is written for a visit is one reply. -/
theorem Visit.exchange (h200 : 200 ≤ config.status) (h999 : config.status ≤ 999) (hc : Custom config.headers)
    (hl : Lasting config.headers) (t : Visit map hyper config) : ∃ x : Exchange, x.isHead = t.req.isHead ∧
      x.text = t.text ∧ ReplyTo t.req.isHead t.response (fullFrames t.response.body) x.reply := by
  have hregular := regular_service h200 h999 hc hl t.built t.req.isHead
  obtain ⟨d⟩ := hyper.documented t.plain hregular t.writes
  exact d.exchange hregular (addHeaders_isField (serviceResponse_some t.built).1) (hyper.calm_phrase _)

/-- The replies to the visits of a connection are read one by one. -/
theorem Visit.replies (h200 : 200 ≤ config.status) (h999 : config.status ≤ 999) (hc : Custom config.headers)
    (hl : Lasting config.headers) (ts : List (Visit map hyper config)) (rest : Bytes) :
    ∃ rs, cutReplies (ts.map fun t => t.req.isHead) ((ts.map Visit.text).flatten ++ rest) = some (rs, rest) ∧
      List.Forall₂ (fun t reply => ReplyTo t.req.isHead t.response (fullFrames t.response.body) reply) ts rs :=
  cutReplies_exchanges (fun t : Visit map hyper config => t.req.isHead) Visit.text _
    (fun t _ => t.exchange h200 h999 hc hl) rest

/-- Whatever requests a connection that stays open carries, one after another,
a client reads one reply for each, with the configured status, headers and body,
but without the body where the method or the status forbids one, and nothing is
left over. -/
theorem service_replies (map : HeaderMap) (hyper : HyperServer) (config : ServerConfig)
    (h200 : 200 ≤ config.status) (h999 : config.status ≤ 999) (hc : Custom config.headers)
    (hl : Lasting config.headers) (ts : List (Visit map hyper config)) (rest : Bytes) :
    ∃ rs, cutReplies (ts.map fun t => t.req.isHead) ((ts.map Visit.text).flatten ++ rest) = some (rs, rest) ∧
      List.Forall₂ (fun t reply => Replied config t.req.isHead reply) ts rs := by
  obtain ⟨rs, hread, hrs⟩ := Visit.replies h200 h999 hc hl ts rest
  exact ⟨rs, hread, hrs.imp fun t reply ha => ha.replied t.built⟩

end Service

/-! #### A visit -/

theorem sample_lasting : Lasting sampleConfig.headers := ⟨rfl, rfl⟩

theorem plain_request (m : String) (hm : ascii m ≠ ascii "CONNECT" := by decide) (body : Bytes) :
    KeepsOpen ⟨ascii m, ascii "/", .http11, []⟩ (some body) where
  version := rfl
  method := hm
  connection _ h := absurd h List.not_mem_nil
  expect := rfl
  upgrade := rfl
  body := rfl

/-- A request without body, with this method. -/
def sampleVisit (m : String) (hm : ascii m ≠ ascii "CONNECT" := by decide) :
    Visit plainHeaders sampleServer sampleConfig where
  req := ⟨ascii m, ascii "/", .http11, []⟩
  body := some []
  response := ⟨200, [contentLengthField 1], ascii "x"⟩
  text := sampleText (decide (ascii m = ascii "HEAD")) ⟨200, [contentLengthField 1], ascii "x"⟩ [ascii "x"]
  built := rfl
  plain := plain_request m hm []
  writes := rfl

/-- A `HEAD` before a `GET`. -/
theorem service_replies_head : ∃ r r', cutReplies [true, false]
      ([(sampleVisit "HEAD").text, (sampleVisit "GET").text].flatten ++ []) = some ([r, r'], []) ∧
    Replied sampleConfig true r ∧ Replied sampleConfig false r' := by
  obtain ⟨rs, hread, hrs⟩ := service_replies plainHeaders sampleServer sampleConfig (by decide) (by decide)
    sample_custom sample_lasting [sampleVisit "HEAD", sampleVisit "GET"] []
  cases hrs with
  | cons h hrs =>
    cases hrs with
    | cons h' hrs =>
      cases hrs
      exact ⟨_, _, hread, h, h'⟩

/-! ### What the loops send -/

section Agreement

variable {ε R : Type} {env : Env ε R} {map : HeaderMap} {wire : WireEncode} {hyper : HyperServer}
  {config : ServerConfig} {p : HttpResponse}

/-- Two replies that differ in their date and in the order of their headers. -/
structure Agree (a b : Reply) : Prop where
  status : a.status = b.status
  fields : (undated a.fields).Perm (undated b.fields)
  body : a.body = b.body

theorem undated_trimmed (fs : List (Bytes × Bytes)) : undated (trimmed fs) = trimmed (undated fs) := by
  rw [undated, trimmed, List.filter_map]
  rfl

/-- With a status that allows a length, only a `HEAD` forbids a body. -/
theorem bodiless_of_length {isHead : Bool} {status : ℕ} (h : canHaveContentLength status = true) :
    Bodiless isHead status ↔ isHead = true := by
  simp only [canHaveContentLength, Bool.not_eq_true', Bool.or_eq_false_iff, decide_eq_false_iff_not] at h
  obtain ⟨⟨h1, h2⟩, h3⟩ := h
  simp [Bodiless, h1, h2, h3]

/-- The pre-built response is read back after any method but `HEAD`. -/
theorem prebuilt_exchange {response : Bytes} (hresponse : buildResponse map wire config = some response)
    (hc : Custom config.headers) (hstatus : canHaveContentLength config.status = true) :
    ∃ headers fields, addHeaders map config.headers = some headers ∧
      fields.Perm (headers ++ [contentLengthField config.body.length]) ∧
      ∃ x : Exchange, x.isHead = false ∧ x.text = response ∧
        x.reply = ⟨config.status, trimmed fields, config.body⟩ := by
  obtain ⟨headers, head, hh, hperm, hs, htext, hlength⟩ := buildResponse_head hresponse hc
  have hbodiless : ¬ Bodiless false head.status := by
    rw [hs, bodiless_of_length hstatus]
    exact Bool.false_ne_true
  have htransfer : Transfer false head.status (trimmed head.fields) config.body config.body :=
    .length hbodiless (not_inChunks hlength) hlength
  refine ⟨headers, head.fields, hh, hperm, .of head htransfer, rfl, htext.symm, ?_⟩
  rw [← hs]
  rfl

/-- With the length that hyper adds, the service names what `build_response`
names. -/
theorem service_length {headers : List (Bytes × Bytes)} {r : HttpResponse} (hc : Custom config.headers)
    (hstatus : canHaveContentLength config.status = true) (hh : addHeaders map config.headers = some headers)
    (hr : serviceResponse map config = some r) :
    r.headers ++ addedLength false r = headers ++ [contentLengthField config.body.length] := by
  have hframing := serviceResponse_framing hc hr
  obtain ⟨hall, hs, hbody⟩ := serviceResponse_some hr
  rw [serviceHeaders, addHeaders_append, hh, Option.bind_some] at hall
  by_cases hb : config.body = []
  · rw [if_neg (not_not.mpr hb)] at hall
    rw [if_pos (hbody.trans hb)] at hframing
    have hadded : addedLength false r = [contentLengthField 0] :=
      if_pos ⟨adds_iff.mpr ⟨hs ▸ hstatus, hframing⟩, rfl⟩
    cases hall
    rw [hadded, hb]
    rfl
  · rw [if_pos hb, HeaderMap.appendAll_singleton] at hall
    rw [if_neg (hbody ▸ hb)] at hframing
    have hadded := addedLength_framed (by rw [hframing]; exact List.cons_ne_nil _ _) false
    rw [hadded, List.append_nil, hc.append_length hh hall]

/-- A reply from hyper agrees with that of a loop. -/
theorem ReplyTo.agree {headers fields : List (Bytes × Bytes)} {r : HttpResponse} {reply : Reply}
    (ha : ReplyTo false r (fullFrames r.body) reply) (hc : Custom config.headers)
    (hstatus : canHaveContentLength config.status = true) (hh : addHeaders map config.headers = some headers)
    (hr : serviceResponse map config = some r)
    (hperm : fields.Perm (headers ++ [contentLengthField config.body.length])) :
    Agree ⟨config.status, trimmed fields, config.body⟩ reply := by
  obtain ⟨-, hs, hbody⟩ := serviceResponse_some hr
  obtain ⟨date, hsame⟩ := ha.fields
  refine ⟨(ha.status.trans hs).symm, ?_, ?_⟩
  · have hreply : (undated reply.fields).Perm
        (undated (trimmed (r.headers ++ (addedLength false r ++ addedDate date r)))) := hsame.perm.filter _
    have hundated : undated (r.headers ++ (addedLength false r ++ addedDate date r)) =
        undated (headers ++ [contentLengthField config.body.length]) := by
      rw [← List.append_assoc, service_length hc hstatus hh hr, undated_append, undated_addedDate, List.append_nil]
    rw [undated_trimmed, hundated] at hreply
    rw [undated_trimmed]
    exact ((hperm.filter _).map _).trans hreply.symm
  · have hbodiless : ¬ Bodiless false r.status := by
      rw [hs, bodiless_of_length hstatus]
      exact Bool.false_ne_true
    rw [ha.body, if_neg hbodiless, fullFrames_flatten, hbody]

/-- With a status that allows a length, where no `HEAD` is asked, a client reads
the same from a loop as from hyper for the same requests, apart from the date
and the order of the headers. -/
theorem runtimes_agree (map : HeaderMap) (wire : WireEncode) (hyper : HyperServer) (config : ServerConfig)
    (h999 : config.status ≤ 999) (hstatus : canHaveContentLength config.status = true)
    (hc : Custom config.headers) (hl : Lasting config.headers) (env : Env ε R)
    (hresponse : buildResponse map wire config = some env.response) (method : R → Bytes) (s : State R)
    (h : Reachable env s) (hp : s.phase = .reading ∨ s.phase = .closed)
    (hheads : ∀ q ∈ s.served, method q.1 ≠ ascii "HEAD") (ts : List (Visit map hyper config))
    (hts : ts.map (fun t => t.req.method) = s.served.map fun q => method q.1) :
    ∃ fromLoop fromHyper, cutReplies (heads method s) s.written.flatten = some (fromLoop, []) ∧
      cutReplies (heads method s) (ts.map Visit.text).flatten = some (fromHyper, []) ∧
      List.Forall₂ Agree fromLoop fromHyper := by
  obtain ⟨headers, fields, hh, hperm, x, hx, htext, hreply⟩ := prebuilt_exchange hresponse hc hstatus
  have h200 : 200 ≤ config.status := by
    by_contra hlt
    simp [canHaveContentLength, Nat.lt_of_not_le hlt] at hstatus
  have hisHead : heads method s = ts.map fun t => t.req.isHead := by
    have hmap := congrArg (List.map fun m : Bytes => decide (m = ascii "HEAD")) hts
    rw [List.map_map, List.map_map] at hmap
    exact hmap.symm
  have hnone : ∀ t ∈ ts, t.req.isHead = false := by
    intro t ht
    obtain ⟨q, hq, hmethod⟩ := List.mem_map.mp (hts ▸ List.mem_map_of_mem (f := fun t : Visit map hyper config =>
      t.req.method) ht)
    rw [HttpRequest.isHead, ← hmethod]
    exact decide_eq_false (hheads q hq)
  -- the replies of the loop, which has written the response for each of the visits
  have hwritten : s.written = ts.map fun _ => env.response := by
    have hlen := congrArg List.length hts
    rw [List.length_map, List.length_map] at hlen
    rw [written_replicate h hp, List.map_const', hlen]
  obtain ⟨fromLoop, hloop, hfromLoop⟩ := cutReplies_exchanges (fun t : Visit map hyper config => t.req.isHead)
    (fun _ => env.response) (fun _ reply => (⟨config.status, trimmed fields, config.body⟩ : Reply) = reply)
    (fun t ht => ⟨x, hx.trans (hnone t ht).symm, htext, hreply.symm⟩) []
  obtain ⟨fromHyper, hhyper, hfromHyper⟩ := Visit.replies h200 h999 hc hl ts []
  rw [List.append_nil, ← hisHead] at hloop hhyper
  rw [← hwritten] at hloop
  refine ⟨fromLoop, fromHyper, hloop, hhyper, ?_⟩
  rw [← List.forall₂_map_left_iff, List.forall₂_eq_eq_eq] at hfromLoop
  rw [← hfromLoop, List.forall₂_map_left_iff]
  refine (List.forall₂_iff_zip.mpr ⟨hfromHyper.length_eq, fun {t reply} hmem => ?_⟩)
  have ha := (List.forall₂_iff_zip.mp hfromHyper).2 hmem
  rw [hnone t (List.of_mem_zip hmem).1] at ha
  exact ha.agree hc hstatus hh t.built hperm

end Agreement

/-- One `GET`. -/
theorem runtimes_agree_get : ∃ s fromLoop fromHyper, Reachable (sampleEnv (ascii "GET") sampleResponse) s ∧
    s.served.length = 1 ∧ cutReplies (heads id s) s.written.flatten = some (fromLoop, []) ∧
      cutReplies (heads id s) [(sampleVisit "GET").text].flatten = some (fromHyper, []) ∧
      List.Forall₂ Agree fromLoop fromHyper := by
  obtain ⟨s, n, hs, hp, hserved⟩ := sample_run (ascii "GET") sampleResponse (by decide)
  have hget : ∀ q ∈ s.served, id q.1 ≠ ascii "HEAD" := by
    rw [hserved]
    intro q hq
    rw [List.mem_singleton.mp hq]
    show ascii "GET" ≠ ascii "HEAD"
    decide
  have hmethods : [sampleVisit "GET"].map (fun t => t.req.method) = s.served.map fun q => id q.1 := by
    rw [hserved]
    rfl
  obtain ⟨fromLoop, fromHyper, h⟩ := runtimes_agree plainHeaders plainWire sampleServer sampleConfig (by decide)
    (by decide) sample_custom sample_lasting (sampleEnv (ascii "GET") sampleResponse) rfl id s hs (Or.inl hp) hget
    [sampleVisit "GET"] hmethods
  exact ⟨s, fromLoop, fromHyper, hs, by rw [hserved]; rfl, h⟩

end Http
end Statico
