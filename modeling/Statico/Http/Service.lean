/-
# The response of the hyper services

`tokio` and `smol` build the response for each request and leave it to hyper
to write it. They name the length of a body that is not empty, and hyper, as
`response_head_size` documents it, that of an empty one unless the status
forbids it, whereas `build_response` names the length always. The two send the
same response exactly if the status allows a length and no custom header gives
another (`same_response_iff`). What the services record for a response is the
size of its head and its body, which is what hyper writes unless the body is
left out (`response_metered_iff`).

Key definitions: `serviceResponse`, `Hyper`, `Hyper.complete`, `Sending`,
`responseHeadSize`, `recordedResponse`.
Key theorems: `same_response_iff`, `responseHeadSize_eq`,
`response_metered_iff`.
-/
import Statico.Conn.Response
import Statico.Http.Metering

namespace Statico
namespace Http

open Http1 Conn

/-! ### Headers -/

/-- `contains_key` -/
def containsKey (name : String) (headers : List (Bytes × Bytes)) : Bool :=
  headers.any (Named name ·)

theorem containsKey_append (name : String) (hs fs : List (Bytes × Bytes)) :
    containsKey name (hs ++ fs) = (containsKey name hs || containsKey name fs) :=
  List.any_append

/-- Adding headers keeps their names. -/
theorem containsKey_addHeaders (name : String) {map : HeaderMap} {hs fs : List (Bytes × Bytes)}
    (h : addHeaders map hs = some fs) : containsKey name fs = containsKey name hs := by
  have hnamed : (fun f => decide (Named name f)) ∘ field = fun f => decide (Named name f) :=
    funext fun f => decide_eq_decide.mpr named_field
  rw [containsKey, (addHeaders_same h).perm.any_eq, List.any_map, hnamed, containsKey]

theorem custom_iff {headers : List (Bytes × Bytes)} : Custom headers ↔
    containsKey "content-length" headers = false ∧ containsKey "transfer-encoding" headers = false := by
  simp only [Custom, containsKey, List.any_eq_false, decide_eq_true_eq]
  exact forall₂_and

/-! ### Building -/

theorem contentLengthField_names (n : ℕ) :
    containsKey "content-length" [contentLengthField n] = true ∧
      containsKey "transfer-encoding" [contentLengthField n] = false ∧
      containsKey "date" [contentLengthField n] = false := by
  obtain ⟨h1, h2, h3⟩ := named_contentLength n
  simp [containsKey, h1, h2, h3]

/-- The response of the services of `tokio` and `smol`. -/
def serviceResponse (map : HeaderMap) (config : ServerConfig) : Option HttpResponse := do
  let headers ← addHeaders map config.headers
  let headers ←
    if config.body ≠ [] then map.append headers (contentLengthField config.body.length) else some headers
  return {
    status := config.status
    headers := headers
    body := config.body }

/-- The response that `build_response` encodes. -/
def prebuilt (map : HeaderMap) (config : ServerConfig) : Option HttpResponse := do
  let headers ← addHeaders map config.headers
  let headers ← map.append headers (contentLengthField config.body.length)
  return {
    status := config.status
    headers := headers
    body := config.body }

/-- The headers that the services add. -/
def serviceHeaders (config : ServerConfig) : List (Bytes × Bytes) :=
  config.headers ++ if config.body ≠ [] then [contentLengthField config.body.length] else []

section Building

variable {map : HeaderMap} {config : ServerConfig} {r : HttpResponse}

/-- What `build_response` encodes is `prebuilt`. -/
theorem buildResponse_eq (map : HeaderMap) (wire : WireEncode) (config : ServerConfig) :
    buildResponse map wire config = (prebuilt map config).map wire.encode := by
  unfold buildResponse prebuilt
  cases addHeaders map config.headers with
  | none => rfl
  | some headers =>
    simp only [Option.bind_eq_bind, Option.bind_some]
    cases map.append headers (contentLengthField config.body.length) <;> rfl

theorem serviceResponse_eq (map : HeaderMap) (config : ServerConfig) : serviceResponse map config =
    (addHeaders map (serviceHeaders config)).map fun headers => ⟨config.status, headers, config.body⟩ := by
  unfold serviceResponse serviceHeaders
  rw [addHeaders_append]
  cases addHeaders map config.headers with
  | none => rfl
  | some headers =>
    simp only [Option.bind_eq_bind, Option.bind_some]
    split_ifs
    · rw [HeaderMap.appendAll_singleton]
      cases map.append headers (contentLengthField config.body.length) <;> rfl
    · rfl

theorem prebuilt_eq (map : HeaderMap) (config : ServerConfig) : prebuilt map config =
    (addHeaders map (config.headers ++ [contentLengthField config.body.length])).map
      fun headers => ⟨config.status, headers, config.body⟩ := by
  unfold prebuilt
  rw [addHeaders_append]
  cases addHeaders map config.headers with
  | none => rfl
  | some headers =>
    simp only [Option.bind_eq_bind, Option.bind_some, HeaderMap.appendAll_singleton]
    cases map.append headers (contentLengthField config.body.length) <;> rfl

/-- With a body, both build the same response. -/
theorem serviceResponse_body (hb : config.body ≠ []) : serviceResponse map config = prebuilt map config := by
  rw [serviceResponse_eq, prebuilt_eq, serviceHeaders, if_pos hb]

theorem serviceResponse_some (h : serviceResponse map config = some r) :
    addHeaders map (serviceHeaders config) = some r.headers ∧ r.status = config.status ∧ r.body = config.body := by
  rw [serviceResponse_eq] at h
  obtain ⟨headers, hh, rfl⟩ := Option.map_eq_some_iff.mp h
  exact ⟨hh, rfl, rfl⟩

/-- The fields that say how a body is framed. -/
def framing (fs : List (Bytes × Bytes)) : List (Bytes × Bytes) :=
  fs.filter fun f => decide (Named "content-length" f ∨ Named "transfer-encoding" f)

theorem framing_eq_nil {fs : List (Bytes × Bytes)} : framing fs = [] ↔
    containsKey "content-length" fs = false ∧ containsKey "transfer-encoding" fs = false := by
  rw [← custom_iff]
  simp [framing, Custom, List.filter_eq_nil_iff, not_or]

theorem framing_append (fs gs : List (Bytes × Bytes)) : framing (fs ++ gs) = framing fs ++ framing gs :=
  List.filter_append _ _

theorem framing_contentLength (n : ℕ) : framing [contentLengthField n] = [contentLengthField n] := by
  simp [framing, (named_contentLength n).1]

theorem length_framing_addHeaders {hs fs : List (Bytes × Bytes)} (h : addHeaders map hs = some fs) :
    (framing fs).length = (framing hs).length :=
  length_filter_addHeaders h fun _ => decide_eq_decide.mpr (or_congr named_field named_field)

/-- Without other framing headers, the length of a body comes last. -/
theorem prebuilt_headers (hc : Custom config.headers) (h : prebuilt map config = some r) :
    ∃ headers, addHeaders map config.headers = some headers ∧ framing headers = [] ∧
      r = ⟨config.status, headers ++ [contentLengthField config.body.length], config.body⟩ := by
  obtain ⟨headers, hh, h⟩ := Option.bind_eq_some_iff.mp h
  obtain ⟨fields, hf, h⟩ := Option.bind_eq_some_iff.mp h
  cases h
  have hnone : framing headers = [] := by
    rw [framing_eq_nil, containsKey_addHeaders _ hh, containsKey_addHeaders _ hh]
    exact custom_iff.mp hc
  exact ⟨headers, hh, hnone, by rw [hc.append_length hh hf]⟩

end Building

/-! ### What hyper adds -/

/-- The statuses that allow a `Content-Length`. -/
def canHaveContentLength (status : ℕ) : Bool := !(status < 200 || status = 204 || status = 304)

/-- hyper's HTTP/1.1 server at some moment, as `response_head_size` documents it:
the date it sends, and `canonical_reason`. -/
structure Hyper where
  date : Bytes
  length_date : date.length = 29
  reason : ℕ → Option Bytes

/-- The condition under which hyper adds the length of the body. -/
def addsContentLength (r : HttpResponse) : Bool :=
  canHaveContentLength r.status && !containsKey "content-length" r.headers &&
    !containsKey "transfer-encoding" r.headers

/-- The date that is added, if there is none. -/
def addedDate (date : Bytes) (r : HttpResponse) : List (Bytes × Bytes) :=
  if containsKey "date" r.headers then [] else [(ascii "date", date)]

namespace Hyper

variable (hyper : Hyper)

/-- The length that `response_head_size` documents. -/
def lengthFields (r : HttpResponse) : List (Bytes × Bytes) :=
  if addsContentLength r then [contentLengthField r.body.length] else []

/-- The date that `response_head_size` documents. -/
def dateFields (r : HttpResponse) : List (Bytes × Bytes) := addedDate hyper.date r

/-- The response with the headers that `response_head_size` takes hyper to add. -/
def complete (r : HttpResponse) : HttpResponse :=
  { r with headers := r.headers ++ (lengthFields r ++ hyper.dateFields r) }

/-- The status line with this reason, and the headers. -/
def writeHead (reason : Bytes) (r : HttpResponse) : Bytes :=
  statusLine r.status reason ++ (crlf ++ fieldLines (hyper.complete r).headers)

/-- What is written with this head: no body after a `HEAD` request or for the
statuses without one. -/
def write (reason method : Bytes) (r : HttpResponse) : Bytes :=
  hyper.writeHead reason r ++ (if Bodiless (decide (method = ascii "HEAD")) r.status then [] else r.body)

end Hyper

/-! ### The same response -/

/-- The headers without their date. -/
def undated (fs : List (Bytes × Bytes)) : List (Bytes × Bytes) := fs.filter fun f => !decide (Named "date" f)

/-- A response apart from its date. -/
def dateless (r : HttpResponse) : HttpResponse := { r with headers := undated r.headers }

theorem undated_append (fs gs : List (Bytes × Bytes)) : undated (fs ++ gs) = undated fs ++ undated gs :=
  List.filter_append _ _

theorem undated_addedDate (date : Bytes) (r : HttpResponse) : undated (addedDate date r) = [] := by
  have hname : Named "date" (ascii "date", date) := show (ascii "date").map lower = ascii "date" by decide
  unfold addedDate
  split_ifs
  · rfl
  · simp [undated, hname]

/-- A length is no date. -/
theorem undated_contentLength (n : ℕ) : undated [contentLengthField n] = [contentLengthField n] := by
  have hname : Named "date" (contentLengthField n) ↔ False := by
    have h := (contentLengthField_names n).2.2
    simpa [containsKey] using h
  simp [undated, hname]

theorem dateless_complete (hyper : Hyper) (r : HttpResponse) :
    dateless (hyper.complete r) = dateless { r with headers := r.headers ++ Hyper.lengthFields r } := by
  simp only [dateless, Hyper.complete, Hyper.dateFields, undated_append, undated_addedDate, List.append_nil]

theorem lengthFields_none {r : HttpResponse} (h : addsContentLength r = false) :
    Hyper.lengthFields r = [] := by
  rw [Hyper.lengthFields, h]
  rfl

theorem adds_iff {r : HttpResponse} : addsContentLength r = true ↔
    canHaveContentLength r.status = true ∧ framing r.headers = [] := by
  rw [framing_eq_nil]
  simp [addsContentLength, and_assoc]

/-- The response that hyper sends for a `GET`: the body is left out where the
status forbids it. -/
def Hyper.sent (hyper : Hyper) (r : HttpResponse) : HttpResponse :=
  { hyper.complete r with body := if Bodiless false r.status then [] else r.body }

/-- What hyper sends for a `GET`, if anything: a response that has no framing
header, or that of its body alone, as it is documented; and never two framing
headers. -/
structure Sending (hyper : Hyper) where
  send : HttpResponse → Option HttpResponse
  documented : ∀ r, 200 ≤ r.status → r.status ≤ 999 →
    (framing r.headers = if r.body = [] then [] else [contentLengthField r.body.length]) →
    send r = some (hyper.sent r)
  single : ∀ r q, send r = some q → (framing q.headers).length ≤ 1

/-- Leaving out the date keeps the framing. -/
theorem framing_dateless (r : HttpResponse) : framing (dateless r).headers = framing r.headers := by
  rw [framing, dateless, undated, List.filter_filter, framing]
  refine List.filter_congr fun f _ => ?_
  have hdate : Named "date" f → ¬ (Named "content-length" f ∨ Named "transfer-encoding" f) := by
    rintro hd (hn | hn)
    · exact absurd (hd.symm.trans hn) (by decide)
    · exact absurd (hd.symm.trans hn) (by decide)
  by_cases hd : Named "date" f
  · simp [hdate hd]
  · simp [hd]

section Same

variable {map : HeaderMap} {hyper : Hyper} {config : ServerConfig} {p r : HttpResponse}

/-- The service names the length of its body, unless that is empty. -/
theorem serviceResponse_framing (hc : Custom config.headers) (h : serviceResponse map config = some r) :
    framing r.headers = if r.body = [] then [] else [contentLengthField r.body.length] := by
  by_cases hb : config.body = []
  · obtain ⟨hh, -, hbody⟩ := serviceResponse_some h
    rw [serviceHeaders, if_neg (not_not.mpr hb), List.append_nil] at hh
    rw [if_pos (hbody.trans hb), framing_eq_nil, containsKey_addHeaders _ hh, containsKey_addHeaders _ hh]
    exact custom_iff.mp hc
  · rw [serviceResponse_body hb] at h
    obtain ⟨headers, -, hnone, rfl⟩ := prebuilt_headers hc h
    rw [framing_append, hnone, framing_contentLength, if_neg hb]
    rfl

/-- Both name the same headers, but the service not the length of an empty
body. -/
theorem serviceResponse_custom (hc : Custom config.headers) (hp : prebuilt map config = some p) :
    ∃ r, serviceResponse map config = some r ∧ r.status = config.status ∧ r.body = config.body ∧
      p = { r with headers := r.headers ++ if r.body = [] then [contentLengthField 0] else [] } := by
  obtain ⟨headers, hh, hnone, rfl⟩ := prebuilt_headers hc hp
  by_cases hb : config.body = []
  · exact ⟨⟨config.status, headers, config.body⟩, by simp [serviceResponse, hh, hb], rfl, rfl, by simp [hb]⟩
  · exact ⟨_, (serviceResponse_body hb).trans hp, rfl, rfl, by rw [if_neg hb, List.append_nil]⟩

/-- hyper adds the length of an empty body, where the status allows it. -/
theorem lengthFields_eq (hf : framing r.headers = if r.body = [] then [] else [contentLengthField r.body.length]) :
    Hyper.lengthFields r =
      if canHaveContentLength r.status = true ∧ r.body = [] then [contentLengthField 0] else [] := by
  by_cases hb : r.body = []
  · rw [if_pos hb] at hf
    have hadds : addsContentLength r = true ↔ canHaveContentLength r.status = true ∧ r.body = [] := by
      rw [adds_iff, hf]
      simp [hb]
    simp only [Hyper.lengthFields, hadds, hb, List.length_nil]
  · rw [if_neg hb] at hf
    have hadds : ¬ addsContentLength r = true := by
      rw [adds_iff, hf]
      simp
    rw [lengthFields_none (Bool.eq_false_iff.mpr hadds), if_neg fun h => hb h.2]

/-- The framing of what is sent. -/
theorem framing_complete (hyper : Hyper) (r : HttpResponse) :
    framing (hyper.complete r).headers = framing r.headers ++ framing (Hyper.lengthFields r) := by
  have hdate := congrArg (fun q => framing q.headers) (dateless_complete hyper r)
  simp only [framing_dateless] at hdate
  rw [hdate, framing_append]

theorem length_framing_sent
    (hf : framing r.headers = if r.body = [] then [] else [contentLengthField r.body.length]) :
    (framing (hyper.sent r).headers).length ≤ 1 := by
  show (framing (hyper.complete r).headers).length ≤ 1
  rw [framing_complete, hf, lengthFields_eq hf]
  by_cases hb : r.body = []
  · split_ifs
    · simp [framing_contentLength]
    · simp [framing]
  · rw [if_neg hb, if_neg fun h => hb h.2]
    simp [framing]

/-- For a `GET` with a status that forbids a body. -/
theorem bodiless_get {status : ℕ} (h200 : 200 ≤ status) : Bodiless false status ↔ status = 204 ∨ status = 304 := by
  have hnot : ¬ status < 200 := by omega
  simp [Bodiless, hnot]

theorem canHaveContentLength_iff {status : ℕ} (h200 : 200 ≤ status) :
    canHaveContentLength status = true ↔ ¬ (status = 204 ∨ status = 304) := by
  have hnot : ¬ status < 200 := by omega
  simp [canHaveContentLength, hnot]

/-- The service's response is sent as the pre-built one, apart from the date,
exactly if the status allows a body and a length. -/
theorem dateless_sent_iff (hf : framing r.headers = if r.body = [] then [] else [contentLengthField r.body.length])
    (h200 : 200 ≤ r.status) :
    dateless { r with headers := r.headers ++ if r.body = [] then [contentLengthField 0] else [] } =
      dateless (hyper.sent r) ↔ r.status ≠ 204 ∧ r.status ≠ 304 := by
  have hsent : dateless (hyper.sent r) = { dateless (hyper.complete r) with body := (hyper.sent r).body } := rfl
  rw [← not_or, ← bodiless_get h200, hsent, dateless_complete, lengthFields_eq hf, Hyper.sent]
  constructor
  · intro h hless
    have hcan : ¬ canHaveContentLength r.status = true := by
      rw [canHaveContentLength_iff h200, not_not]
      exact (bodiless_get h200).mp hless
    by_cases hb : r.body = []
    · -- without the field that hyper adds, one header is missing
      have hlen := congrArg (fun q => q.headers.length) h
      rw [if_pos hb, if_neg fun hc => hcan hc.1, List.append_nil] at hlen
      simp only [dateless, undated_append, undated_contentLength, List.length_append, List.length_singleton] at hlen
      exact Nat.succ_ne_self _ hlen
    · have hbody := congrArg HttpResponse.body h
      rw [if_pos hless] at hbody
      exact hb hbody
  · intro hless
    have hcan : canHaveContentLength r.status = true := by
      rw [canHaveContentLength_iff h200, ← bodiless_get h200]
      exact hless
    simp only [hcan, true_and, if_neg hless]
    rfl

/-- Both send nothing, or the same response apart from the date, exactly if no
response can be built, or the status allows a length and no custom header
frames the response. The map has room for the length. -/
theorem same_response_iff (map : HeaderMap) (hyper : Hyper) (sending : Sending hyper) (config : ServerConfig)
    (h200 : 200 ≤ config.status) (h999 : config.status ≤ 999)
    (hroom : addHeaders map config.headers ≠ none → prebuilt map config ≠ none) :
    (prebuilt map config).map dateless = ((serviceResponse map config).bind sending.send).map dateless ↔
      addHeaders map config.headers = none ∨
        (config.status ≠ 204 ∧ config.status ≠ 304 ∧ Custom config.headers) := by
  cases hh : addHeaders map config.headers with
  | none => simp [prebuilt, serviceResponse, hh]
  | some headers =>
    obtain ⟨p, hp⟩ := Option.ne_none_iff_exists'.mp (hroom (by rw [hh]; exact Option.some_ne_none _))
    have hprebuilt : addHeaders map (config.headers ++ [contentLengthField config.body.length]) = some p.headers := by
      rw [prebuilt_eq] at hp
      obtain ⟨fields, hf, rfl⟩ := Option.map_eq_some_iff.mp hp
      exact hf
    simp only [reduceCtorEq, false_or]
    constructor
    · intro h
      obtain ⟨q, hq, hsame⟩ : ∃ q, (serviceResponse map config).bind sending.send = some q ∧
          dateless q = dateless p := by
        rw [hp, Option.map_some] at h
        exact Option.map_eq_some_iff.mp h.symm
      obtain ⟨r, hr, hsend⟩ := Option.bind_eq_some_iff.mp hq
      have hc : Custom config.headers := by
        have hone := sending.single r q hsend
        rw [← framing_dateless, hsame, framing_dateless, length_framing_addHeaders hprebuilt, framing_append,
          framing_contentLength, List.length_append, List.length_singleton] at hone
        exact custom_iff.mpr (framing_eq_nil.mp (List.length_eq_zero_iff.mp (by omega)))
      obtain ⟨r', hr', hstatus, -, rfl⟩ := serviceResponse_custom hc hp
      cases hr.symm.trans hr'
      have hf := serviceResponse_framing hc hr
      rw [sending.documented r (by omega) (by omega) hf] at hsend
      cases hsend
      obtain ⟨h204, h304⟩ := (dateless_sent_iff hf (by omega)).mp hsame.symm
      rw [hstatus] at h204 h304
      exact ⟨h204, h304, hc⟩
    · rintro ⟨h204, h304, hc⟩
      obtain ⟨r, hr, hstatus, -, rfl⟩ := serviceResponse_custom hc hp
      have hf := serviceResponse_framing hc hr
      rw [← hstatus] at h204 h304
      rw [hp, hr, Option.bind_some, sending.documented r (by omega) (by omega) hf, Option.map_some, Option.map_some,
        (dateless_sent_iff hf (by omega)).mpr ⟨h204, h304⟩]

end Same

/-- A server of hyper at some moment. -/
def sampleHyper : Hyper where
  date := ascii "Sun, 06 Nov 1994 08:49:37 GMT"
  length_date := by decide
  reason status := if status = 200 then some (ascii "OK") else
    if status = 204 then some (ascii "No Content") else none

/-- hyper, but for responses with two framing headers, which it does not send. -/
def sampleSending : Sending sampleHyper where
  send r := if (framing (sampleHyper.sent r).headers).length ≤ 1 then some (sampleHyper.sent r) else none
  documented r _ _ hf := if_pos (length_framing_sent hf)
  single r q h := by
    split_ifs at h with hle
    cases h
    exact hle

/-- With a body of one byte. -/
theorem same_response_ok :
    (prebuilt plainHeaders sampleConfig).map dateless =
      ((serviceResponse plainHeaders sampleConfig).bind sampleSending.send).map dateless :=
  (same_response_iff plainHeaders sampleHyper sampleSending sampleConfig (by decide) (by decide)
    fun _ => Option.some_ne_none _).mpr (Or.inr ⟨by decide, by decide, sample_custom⟩)

/-- For `204 No Content`, `build_response` sends `content-length: 0` and hyper
does not. -/
theorem same_response_no_content :
    (prebuilt plainHeaders ⟨204, [], []⟩).map dateless ≠
      ((serviceResponse plainHeaders ⟨204, [], []⟩).bind sampleSending.send).map dateless := by
  intro h
  have hlen := congrArg (Option.map fun r => r.headers.length) h
  exact absurd hlen (by decide)

/-! ### Metering responses -/

/-- `response_head_size` for a response of this version and with this reason. -/
def responseHeadSize (version : Version) (reason : Option Bytes) (r : HttpResponse) (bodyLen : ℕ) : ℕ :=
  let statusLineSize := httpVersionLen version + 1 + 3 + 1 + (reason.map List.length).getD 0 + 2
  let dateSize := if containsKey "date" r.headers then 0 else 4 + 2 + 29 + 2
  let contentLengthSize :=
    if addsContentLength r then
      if bodyLen = 0 then 14 + 2 + 1 + 2
      else
        let lenDigits := (Float.ofNat bodyLen).log10.floor.toUSize.toNat + 1
        14 + 2 + lenDigits + 2
    else 0
  statusLineSize + headersSize r.headers + dateSize + contentLengthSize + 2

/-- The runtimes that leave HTTP to hyper. -/
inductive HyperRuntime
  | tokio | smol

/-- `tokio` gives the response the version of the request, `smol` the
builder's. -/
def HyperRuntime.version : HyperRuntime → Version → Version
  | .tokio, reqVersion => reqVersion
  | .smol, _ => .http11

/-- What the service passes to `record_response`; `reason` is `canonical_reason`. -/
def recordedResponse (map : HeaderMap) (rt : HyperRuntime) (reason : ℕ → Option Bytes) (req : HttpRequest)
    (config : ServerConfig) : Option ℕ := do
  let resp ← serviceResponse map config
  let headSize := responseHeadSize (rt.version req.version) (reason resp.status) resp config.body.length
  return headSize + config.body.length

theorem headersSize_append (hs fs : List (Bytes × Bytes)) :
    headersSize (hs ++ fs) = headersSize hs + headersSize fs := by
  induction hs with
  | nil => simp [headersSize]
  | cons h hs ih =>
    simp only [List.cons_append, headersSize, ih]
    omega

theorem length_fieldLines (fs : List (Bytes × Bytes)) :
    (fieldLines fs).length = headersSize fs + 2 := by
  induction fs with
  | nil => rfl
  | cons f fs ih =>
    simp only [fieldLines, fieldLine, List.length_append, ih, headersSize,
      show crlf.length = 2 by decide, show (ascii ": ").length = 2 by decide]
    omega

theorem length_decimal_status {n : ℕ} (h : 100 ≤ n) (h' : n ≤ 999) : (decimal n).length = 3 := by
  have h3 : (decimal n).length ≤ 3 := (length_decimal_le (by decide)).mpr (by omega)
  have h2 : ¬ (decimal n).length ≤ 2 := (length_decimal_le (by decide)).not.mpr (by omega)
  omega

theorem headersSize_addedDate {date : Bytes} (h : date.length = 29) (r : HttpResponse) :
    headersSize (addedDate date r) = if containsKey "date" r.headers then 0 else 4 + 2 + 29 + 2 := by
  unfold addedDate
  split_ifs
  · rfl
  · simp only [headersSize, h, show (ascii "date").length = 4 by decide]

/-- The parts of the size, where a length is added for empty bodies only. -/
theorem responseHeadSize_parts (reason : Bytes) {r : HttpResponse} (h100 : 100 ≤ r.status) (h999 : r.status ≤ 999)
    {n : ℕ} (hadds : addsContentLength r = true → n = 0) : responseHeadSize .http11 (some reason) r n =
      (statusLine r.status reason).length + 2 + headersSize r.headers +
        (if containsKey "date" r.headers then 0 else 4 + 2 + 29 + 2) +
          (if addsContentLength r then 19 else 0) + 2 := by
  have hline : (statusLine r.status reason).length = 8 + 1 + 3 + 1 + reason.length := by
    simp only [statusLine, List.length_append, List.length_cons, length_decimal_status h100 h999,
      show (ascii "HTTP/1.1 ").length = 9 by decide]
    omega
  rw [hline, responseHeadSize]
  by_cases h : addsContentLength r = true
  · simp only [if_pos h, if_pos (hadds h)]
    rfl
  · simp only [if_neg h]
    rfl

/-- The size of the head is what hyper writes for it, where it adds a length
for empty bodies only. -/
theorem responseHeadSize_eq (hyper : Hyper) (reason : Bytes) {r : HttpResponse} (h100 : 100 ≤ r.status)
    (h999 : r.status ≤ 999) (hadds : addsContentLength r = true → r.body = []) :
    responseHeadSize .http11 (some reason) r r.body.length = (hyper.writeHead reason r).length := by
  have hdate : headersSize (hyper.dateFields r) = _ := headersSize_addedDate hyper.length_date r
  have hlength : headersSize (Hyper.lengthFields r) = if addsContentLength r then 19 else 0 := by
    unfold Hyper.lengthFields
    split_ifs with h
    · rw [hadds h]
      decide
    · rfl
  have hfields := length_fieldLines (hyper.complete r).headers
  simp only [Hyper.complete, headersSize_append, hdate, hlength] at hfields
  rw [responseHeadSize_parts reason h100 h999 fun h => by rw [hadds h]; rfl, Hyper.writeHead, List.length_append,
    List.length_append, show crlf.length = 2 by decide, Hyper.complete, hfields]
  omega

/-- The services leave it to hyper to add the length of empty bodies only. -/
theorem serviceResponse_adds {map : HeaderMap} {config : ServerConfig} {r : HttpResponse}
    (h : serviceResponse map config = some r) :
    r.status = config.status ∧ r.body = config.body ∧ (addsContentLength r = true → r.body = []) := by
  obtain ⟨hh, hstatus, hbody⟩ := serviceResponse_some h
  refine ⟨hstatus, hbody, fun hadds => ?_⟩
  by_contra hb
  rw [adds_iff, ← List.length_eq_zero_iff, length_framing_addHeaders hh, serviceHeaders, if_pos (hbody ▸ hb),
    framing_append, framing_contentLength, List.length_append] at hadds
  exact Nat.succ_ne_zero _ hadds.2

theorem HyperRuntime.version_http11 (rt : HyperRuntime) : rt.version .http11 = .http11 := by
  cases rt <;> rfl

/-- What is recorded for a response is the number of bytes hyper writes,
exactly if there is no response, or it has no body, or the body is sent. -/
theorem response_metered_iff (map : HeaderMap) (rt : HyperRuntime) (hyper : Hyper) (req : HttpRequest)
    (config : ServerConfig) (reason : Bytes) (h11 : req.version = .http11) (h200 : 200 ≤ config.status)
    (h999 : config.status ≤ 999) (hreason : hyper.reason config.status = some reason) :
    recordedResponse map rt hyper.reason req config =
        (serviceResponse map config).map (fun r => (hyper.write reason req.method r).length) ↔
      addHeaders map (serviceHeaders config) = none ∨ config.body = [] ∨
        (req.method ≠ ascii "HEAD" ∧ config.status ≠ 204 ∧ config.status ≠ 304) := by
  have hnone := serviceResponse_eq map config
  cases hr : serviceResponse map config with
  | none =>
    rw [hr] at hnone
    simp [recordedResponse, hr, Option.map_eq_none_iff.mp hnone.symm]
  | some r =>
    obtain ⟨hstatus, hbody, hadds⟩ := serviceResponse_adds hr
    have hsome : addHeaders map (serviceHeaders config) ≠ none := fun hh => by simp [hr, hh] at hnone
    have hversion : rt.version req.version = .http11 := by rw [h11, rt.version_http11]
    have hhead := responseHeadSize_eq hyper reason (by omega) (by omega) hadds
    have hbodiless : Bodiless (decide (req.method = ascii "HEAD")) config.status ↔
        ¬ (req.method ≠ ascii "HEAD" ∧ config.status ≠ 204 ∧ config.status ≠ 304) := by
      have h1 : ¬ config.status < 200 := by omega
      rw [Bodiless, decide_eq_true_eq]
      tauto
    have hrecorded : recordedResponse map rt hyper.reason req config =
        some ((hyper.writeHead reason r).length + config.body.length) := by
      rw [recordedResponse, hr, ← hhead, hbody, ← hreason, ← hstatus, ← hversion]
      rfl
    rw [hrecorded, Option.map_some, Option.some_inj, Hyper.write, List.length_append,
      Nat.add_left_cancel_iff, hstatus, hbody]
    by_cases hsent : req.method ≠ ascii "HEAD" ∧ config.status ≠ 204 ∧ config.status ≠ 304
    · rw [if_neg (hbodiless.not.mpr (not_not.mpr hsent))]
      exact ⟨fun _ => Or.inr (Or.inr hsent), fun _ => rfl⟩
    · rw [if_pos (hbodiless.mpr hsent), List.length_nil, List.length_eq_zero_iff]
      simp only [hsome, hsent, false_or, or_false]

/-- `GET` with a body. -/
theorem response_metered_get :
    recordedResponse plainHeaders .tokio sampleHyper.reason ⟨ascii "GET", ascii "/", .http11, []⟩ sampleConfig =
      (serviceResponse plainHeaders sampleConfig).map fun r =>
        (sampleHyper.write (ascii "OK") (ascii "GET") r).length :=
  (response_metered_iff plainHeaders .tokio sampleHyper ⟨ascii "GET", ascii "/", .http11, []⟩ sampleConfig
    (ascii "OK") rfl (by decide) (by decide) rfl).mpr (Or.inr (Or.inr (by decide)))

/-- After `HEAD` the body is recorded and not sent. -/
theorem response_metered_head :
    recordedResponse plainHeaders .tokio sampleHyper.reason ⟨ascii "HEAD", ascii "/", .http11, []⟩ sampleConfig ≠
      (serviceResponse plainHeaders sampleConfig).map fun r =>
        (sampleHyper.write (ascii "OK") (ascii "HEAD") r).length := by
  decide

end Http
end Statico
