/-
# What hyper writes

hyper is no part of the program. What is assumed of it is documented and holds
where nothing out of the ordinary happens: the request speaks HTTP/1.1, is no
`CONNECT`, asks neither to close the connection nor for an interim response,
and its body arrives whole (`KeepsOpen`); the response has a final status and says
how long its body is in at most one way (`Regular`). Then hyper writes the
status, the fields of the response and those it adds, and the body
(`Documented`). A client reads this as one reply (`Documented.exchange`), and
its head is as long as `response_head_size` says, but for the length that is
not written after a `HEAD` (`Documented.length_text`).

Key definitions: `KeepsOpen`, `Regular`, `Documented`, `HyperServer`, `ReplyTo`.
Key theorems: `Documented.exchange`, `Documented.length_text`.
-/
import Statico.Http.Service
import Statico.Lib.Transfer

namespace Statico
namespace Http

open Http1 Conn

/-! ### Assumptions -/

/-- The request was a `HEAD`. -/
def HttpRequest.isHead (req : HttpRequest) : Bool := decide (req.method = ascii "HEAD")

/-- A request that leaves its connection open, with its body, which arrived
whole. -/
structure KeepsOpen (req : HttpRequest) (body : Option Bytes) : Prop where
  version : req.version = .http11
  method : req.method ≠ ascii "CONNECT"
  connection : ∀ h ∈ req.headers, Named "connection" h → h.2.map lower = ascii "keep-alive"
  expect : containsKey "expect" req.headers = false
  upgrade : containsKey "upgrade" req.headers = false
  body : body.isSome = true

/-- A response that says how its body, in these frames, is sent: not at all if
it is empty, or by its length or as chunks, and that the status allows it. -/
structure Regular (isHead : Bool) (r : HttpResponse) (frames : List Bytes) : Prop where
  status : 200 ≤ r.status ∧ r.status ≤ 999
  connection : containsKey "connection" r.headers = false
  trailer : containsKey "trailer" r.headers = false
  framing : framing r.headers = [] ∧ frames.flatten = [] ∨
    framing r.headers = [contentLengthField frames.flatten.length] ∧
      (frames.flatten = [] → canHaveContentLength r.status = true) ∨
    framing r.headers = [(ascii "transfer-encoding", ascii "chunked")] ∧
      canHaveContentLength r.status = true ∧ isHead = false

/-- The length that is added: that of an empty body, unless after a `HEAD`. -/
def addedLength (isHead : Bool) (r : HttpResponse) : List (Bytes × Bytes) :=
  if addsContentLength r = true ∧ isHead = false then [contentLengthField 0] else []

/-- What is sent of a body in these frames. -/
inductive SentBody (isHead : Bool) (r : HttpResponse) (frames : List Bytes) : Bytes → Prop
  | none : Bodiless isHead r.status → SentBody isHead r frames []
  | length : ¬ Bodiless isHead r.status → ¬ InChunks r.headers → SentBody isHead r frames frames.flatten
  | chunks {wire : Bytes} : ¬ Bodiless isHead r.status → InChunks r.headers →
      Chunked.Coded (frames.filter (· ≠ [])) wire → SentBody isHead r frames wire

section SentBody

variable {isHead : Bool} {r : HttpResponse} {frames : List Bytes} {wire : Bytes}

theorem SentBody.eq_nil (h : SentBody isHead r frames wire) (hb : Bodiless isHead r.status) : wire = [] := by
  cases h with
  | none _ => rfl
  | length hno _ => exact absurd hb hno
  | chunks hno _ _ => exact absurd hb hno

theorem SentBody.eq_flatten (h : SentBody isHead r frames wire) (hb : ¬ Bodiless isHead r.status)
    (hc : ¬ InChunks r.headers) : wire = frames.flatten := by
  cases h with
  | none hyes => exact absurd hyes hb
  | length _ _ => rfl
  | chunks _ hyes _ => exact absurd hyes hc

theorem SentBody.coded (h : SentBody isHead r frames wire) (hb : ¬ Bodiless isHead r.status)
    (hc : InChunks r.headers) : Chunked.Coded (frames.filter (· ≠ [])) wire := by
  cases h with
  | none hyes => exact absurd hyes hb
  | length _ hno => exact absurd hc hno
  | chunks _ _ hcoded => exact hcoded

end SentBody

/-- A date, fields and a body that are sent for a response. -/
structure Documented (reason : Bytes) (isHead : Bool) (r : HttpResponse) (frames : List Bytes) (text : Bytes) where
  date : Bytes
  fields : List (Bytes × Bytes)
  wire : Bytes
  length_date : date.length = 29
  calm_date : Calm date
  same : SameFields fields (r.headers ++ (addedLength isHead r ++ addedDate date r))
  sent : SentBody isHead r frames wire
  text_eq : text = statusLine r.status reason ++ (crlf ++ (fieldLines fields ++ wire))

/-- hyper's HTTP/1.1 server: `canonical_reason`, and what it may write for a
request and a response with a body in frames. -/
structure HyperServer where
  reason : ℕ → Option Bytes
  Writes : HttpRequest → Option Bytes → HttpResponse → List Bytes → Bytes → Prop
  calm_reason : ∀ {status : ℕ} {text : Bytes}, reason status = some text → Calm text
  documented : ∀ {req : HttpRequest} {body : Option Bytes} {r : HttpResponse} {frames : List Bytes} {text : Bytes},
    KeepsOpen req body → Regular req.isHead r frames → Writes req body r frames text →
      Nonempty (Documented ((reason r.status).getD (ascii "<none>")) req.isHead r frames text)

/-! ### Framing -/

section Framing

variable {fs : List (Bytes × Bytes)}

/-- What the framing fields are, they are among themselves. -/
theorem filter_framing (fs : List (Bytes × Bytes)) :
    fs.filter (Named "content-length" ·) = (framing fs).filter (Named "content-length" ·) ∧
      fs.filter (Named "transfer-encoding" ·) = (framing fs).filter (Named "transfer-encoding" ·) := by
  rw [framing, List.filter_filter, List.filter_filter]
  constructor
  · refine List.filter_congr fun f _ => ?_
    by_cases h : Named "content-length" f <;> simp [h]
  · refine List.filter_congr fun f _ => ?_
    by_cases h : Named "transfer-encoding" f <;> simp [h]

theorem not_inChunks_nil (h : framing fs = []) : ¬ InChunks fs := by
  rintro ⟨-, ht⟩
  rw [(filter_framing fs).2, h] at ht
  cases ht

theorem contentLength_framing {n : ℕ} (h : framing fs = [contentLengthField n]) :
    contentLength (trimmed fs) = some n ∧ ¬ InChunks fs := by
  obtain ⟨hl, ht⟩ := filter_framing fs
  obtain ⟨hname, hnot, -⟩ := named_contentLength n
  rw [h, List.filter_singleton, decide_eq_true hname] at hl
  rw [h, List.filter_singleton, decide_eq_false hnot] at ht
  refine ⟨contentLength_decimal hl ht, ?_⟩
  rintro ⟨hnil, -⟩
  rw [hl] at hnil
  cases hnil

theorem inChunks_framing (h : framing fs = [(ascii "transfer-encoding", ascii "chunked")]) :
    InChunks fs ∧ InChunks (trimmed fs) := by
  obtain ⟨hl, ht⟩ := filter_framing fs
  rw [h] at hl ht
  have hchunked : InChunks [(ascii "transfer-encoding", ascii "chunked")] ∧
      InChunks (trimmed [(ascii "transfer-encoding", ascii "chunked")]) := by decide
  have htrimmed : ∀ name, (trimmed fs).filter (Named name ·) = trimmed (fs.filter (Named name ·)) :=
    fun name => filter_named_trim name fs
  constructor
  · rw [InChunks, hl, ht]
    exact hchunked.1
  · rw [InChunks, htrimmed, htrimmed, hl, ht]
    exact hchunked.2

end Framing

/-- No length is added to a response that says how its body is sent. -/
theorem addedLength_framed {r : HttpResponse} (h : framing r.headers ≠ []) (isHead : Bool) :
    addedLength isHead r = [] :=
  if_neg fun ha => h (adds_iff.mp ha.1).2

theorem framing_addedDate (date : Bytes) (r : HttpResponse) : framing (addedDate date r) = [] := by
  have hname : ¬ Named "content-length" (ascii "date", date) ∧ ¬ Named "transfer-encoding" (ascii "date", date) := by
    show (ascii "date").map lower ≠ ascii "content-length" ∧ (ascii "date").map lower ≠ ascii "transfer-encoding"
    decide
  unfold addedDate
  split_ifs
  · rfl
  · simp [framing, hname]

/-! ### What a client reads -/

/-- A field with a name of the source. -/
theorem isField_named (name : String) {v : Bytes} (hv : Calm v) (hname : ascii name ≠ [] ∧
    (ascii name).all (fun b => !isBreak b) = true ∧ byte ':' ∉ ascii name := by decide) :
    IsField (ascii name, v) :=
  ⟨hname.1, calm_of_all hname.2.1, hname.2.2, hv⟩

/-- The reply to a request: the status, the body unless none is expected, and
the fields with those that are added. -/
structure ReplyTo (isHead : Bool) (r : HttpResponse) (frames : List Bytes) (reply : Reply) : Prop where
  status : reply.status = r.status
  body : reply.body = if Bodiless isHead r.status then [] else frames.flatten
  fields : ∃ date, SameFields reply.fields (trimmed (r.headers ++ (addedLength isHead r ++ addedDate date r)))

namespace Documented

variable {reason text : Bytes} {isHead : Bool} {r : HttpResponse} {frames : List Bytes}

/-- The framing of what is sent. -/
theorem framing_fields (d : Documented reason isHead r frames text) :
    (framing d.fields).Perm (framing r.headers ++ addedLength isHead r) := by
  have hperm := d.same.perm.filter fun f => decide (Named "content-length" f ∨ Named "transfer-encoding" f)
  have hlength : framing (addedLength isHead r) = addedLength isHead r := by
    unfold addedLength
    split_ifs
    · exact framing_contentLength 0
    · rfl
  show (framing d.fields).Perm _
  change (framing d.fields).Perm (framing (r.headers ++ (addedLength isHead r ++ addedDate d.date r))) at hperm
  rwa [framing_append, framing_append, hlength, framing_addedDate, List.append_nil] at hperm

theorem flatten_filter (frames : List Bytes) : (frames.filter (· ≠ [])).flatten = frames.flatten := by
  induction frames with
  | nil => rfl
  | cons c cs ih =>
    rw [List.filter_cons]
    split_ifs with hc
    · rw [List.flatten_cons, List.flatten_cons, ih]
    · rw [ih, show c = [] by simpa using hc]
      rfl

/-- The fields that are sent say how the body is. -/
theorem transfer (d : Documented reason isHead r frames text) (hr : Regular isHead r frames) :
    Transfer isHead r.status (trimmed d.fields)
      (if Bodiless isHead r.status then [] else frames.flatten) d.wire := by
  have hperm := d.framing_fields
  by_cases hb : Bodiless isHead r.status
  · rw [if_pos hb, d.sent.eq_nil hb]
    exact .none hb
  · rw [if_neg hb]
    have hhead : isHead = false := Bool.eq_false_iff.mpr fun h => hb (Or.inl h)
    have hcan : canHaveContentLength r.status = true := by
      rw [canHaveContentLength_iff hr.status.1]
      exact fun h => hb (Or.inr (Or.inr h))
    rcases hr.framing with ⟨hnone, hempty⟩ | ⟨hlength, -⟩ | ⟨hchunks, -⟩
    · -- hyper adds the length of the empty body
      have hadded : addedLength isHead r = [contentLengthField 0] := if_pos ⟨adds_iff.mpr ⟨hcan, hnone⟩, hhead⟩
      rw [hnone, hadded, List.nil_append] at hperm
      have hzero := (contentLength_framing (List.perm_singleton.mp hperm)).1
      rw [d.sent.eq_flatten hb (not_inChunks_nil hnone), hempty]
      exact .length hb (not_inChunks hzero) hzero
    · have hadded := addedLength_framed (by rw [hlength]; exact List.cons_ne_nil _ _) isHead
      rw [hlength, hadded, List.append_nil] at hperm
      have hlen := (contentLength_framing (List.perm_singleton.mp hperm)).1
      rw [d.sent.eq_flatten hb (contentLength_framing hlength).2]
      exact .length hb (not_inChunks hlen) hlen
    · have hadded := addedLength_framed (by rw [hchunks]; exact List.cons_ne_nil _ _) isHead
      rw [hchunks, hadded, List.append_nil] at hperm
      have hcoded := d.sent.coded hb (inChunks_framing hchunks).1
      rw [← flatten_filter]
      exact .chunks hb (inChunks_framing (List.perm_singleton.mp hperm)).2
        (fun c hc => of_decide_eq_true (List.mem_filter.mp hc).2) hcoded

/-- hyper adds fields to fields. -/
theorem isField (d : Documented reason isHead r frames text) (hf : ∀ f ∈ r.headers, IsField f) :
    ∀ f ∈ d.fields, IsField f := by
  intro f hmem
  rcases List.mem_append.mp (d.same.perm.subset hmem) with h | h
  · exact hf f h
  · rcases List.mem_append.mp h with h | h
    · unfold addedLength at h
      split_ifs at h
      · rw [List.mem_singleton.mp h]
        exact isField_named "content-length" (calm_decimal 0)
      · cases h
    · unfold addedDate at h
      split_ifs at h
      · cases h
      · rw [List.mem_singleton.mp h]
        exact isField_named "date" d.calm_date

/-- What is written reads back as one reply, whatever follows. -/
theorem exchange (d : Documented reason isHead r frames text) (hr : Regular isHead r frames)
    (hf : ∀ f ∈ r.headers, IsField f) (hreason : Calm reason) :
    ∃ x : Exchange, x.isHead = isHead ∧ x.text = text ∧ ReplyTo isHead r frames x.reply := by
  set head : Head := ⟨r.status, reason, d.fields, hreason, d.isField hf⟩
  refine ⟨.of head (d.transfer hr), rfl, ?_, rfl, rfl, d.date, d.same.map trim⟩
  refine Eq.trans ?_ d.text_eq.symm
  show head.text ++ d.wire = _
  rw [Head.text, List.append_assoc, List.append_assoc]

end Documented

/-! ### Its size -/

theorem headersSize_perm {fs gs : List (Bytes × Bytes)} (h : fs.Perm gs) : headersSize fs = headersSize gs := by
  induction h with
  | nil => rfl
  | cons f _ ih => rw [headersSize, headersSize, ih]
  | swap f g fs =>
    simp only [headersSize]
    omega
  | trans _ _ ih ih' => exact ih.trans ih'

/-- What is written is as long as `response_head_size` and the body that is
sent, but for the length that is left out after a `HEAD`. -/
theorem Documented.length_text {reason text : Bytes} {isHead : Bool} {r : HttpResponse} {frames : List Bytes}
    (d : Documented reason isHead r frames text) (h100 : 100 ≤ r.status) (h999 : r.status ≤ 999) {n : ℕ}
    (hadds : addsContentLength r = true → n = 0) :
    responseHeadSize .http11 (some reason) r n + d.wire.length =
      text.length + if addsContentLength r = true ∧ isHead = true then 19 else 0 := by
  have hdate := headersSize_addedDate d.length_date r
  have hlength : headersSize (addedLength isHead r) + (if addsContentLength r = true ∧ isHead = true then 19 else 0) =
      if addsContentLength r then 19 else 0 := by
    unfold addedLength
    cases isHead <;> cases addsContentLength r <;> rfl
  have hfields := Http.length_fieldLines d.fields
  rw [headersSize_perm d.same.perm, headersSize_append, headersSize_append, hdate] at hfields
  have htext := congrArg List.length d.text_eq
  simp only [List.length_append, show crlf.length = 2 by decide, hfields] at htext
  rw [responseHeadSize_parts reason h100 h999 hadds]
  omega

/-! ### A server at some moment -/

/-- The statuses of the samples. -/
def sampleReason (status : ℕ) : Option Bytes :=
  if status = 200 then some (ascii "OK") else if status = 202 then some (ascii "Accepted") else
  if status = 400 then some (ascii "Bad Request") else if status = 404 then some (ascii "Not Found") else
  if status = 405 then some (ascii "Method Not Allowed") else none

/-- A body as it is sent, with small letters in the sizes of its chunks. -/
def sampleBody (isHead : Bool) (r : HttpResponse) (frames : List Bytes) : Bytes :=
  if Bodiless isHead r.status then []
  else if InChunks r.headers then Chunked.encode (frames.filter (· ≠ []))
  else frames.flatten

def sampleText (isHead : Bool) (r : HttpResponse) (frames : List Bytes) : Bytes :=
  statusLine r.status ((sampleReason r.status).getD (ascii "<none>")) ++
    (crlf ++ (fieldLines (r.headers ++ (addedLength isHead r ++ addedDate sampleHyper.date r)) ++
      sampleBody isHead r frames))

/-- hyper at the moment of the date of `sampleHyper`. -/
def sampleServer : HyperServer where
  reason := sampleReason
  Writes req _ r frames text := text = sampleText req.isHead r frames
  calm_reason h := by
    unfold sampleReason at h
    split_ifs at h <;> cases h <;> exact calm_of_all (by decide)
  documented {req body r frames text} _ _ h := by
    refine ⟨sampleHyper.date, _, sampleBody req.isHead r frames, sampleHyper.length_date, calm_of_all (by decide),
      .refl _, ?_, h⟩
    unfold sampleBody
    split_ifs with hb hc
    · exact .none hb
    · exact .chunks hb hc (Chunked.coded_encode _)
    · exact .length hb hc

end Http
end Statico
