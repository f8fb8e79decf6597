/-
# The pre-built response

`build_response` encodes one response when a connection starts: the
configured status and headers, a `Content-Length`, and the body. The loop
writes it for every request. A client that frames what it gets by the rules
of HTTP/1.1 reads one response for each request exactly if no body is sent
where it expects none (`one_response_per_request_iff`).

The header map and the encoder are parameters.

Key definitions: `ServerConfig`, `WireEncode`, `buildResponse`.
Key theorems: `buildResponse_head`, `written_framed_iff`,
`one_response_per_request_iff`.
-/
import Statico.Conn.Pipeline
import Statico.Lib.HeaderMap

namespace Statico
namespace Conn

open Http1

/-! ### Building -/

structure ServerConfig where
  status : ℕ
  headers : List (Bytes × Bytes)
  body : Bytes

/-- A response as `http`'s builder has it. -/
structure HttpResponse where
  status : ℕ
  headers : List (Bytes × Bytes)
  body : Bytes

/-- `builder.header(k, v)` for each of the headers. -/
def addHeaders (headers : HeaderMap) (hs : List (Bytes × Bytes)) : Option (List (Bytes × Bytes)) :=
  headers.appendAll [] hs

def contentLengthField (n : ℕ) : Bytes × Bytes := (ascii "content-length", decimal n)

/-- `http_wire`'s encoder: a status line with a reason of its own, the headers
in some order, an empty line and the body. -/
structure WireEncode where
  encode : HttpResponse → Bytes
  reason : ℕ → Bytes
  calm_reason : ∀ status, Calm (reason status)
  encode_eq : ∀ r, ∃ fields, fields.Perm r.headers ∧
    encode r = statusLine r.status (reason r.status) ++ (crlf ++ (fieldLines fields ++ r.body))

/-- `build_response` -/
def buildResponse (map : HeaderMap) (wire : WireEncode) (config : ServerConfig) : Option Bytes := do
  let headers ← addHeaders map config.headers
  let headers ← map.append headers (contentLengthField config.body.length)
  return wire.encode {
    status := config.status
    headers := headers
    body := config.body }

/-! ### Its head -/

theorem field_contentLength (n : ℕ) : field (contentLengthField n) = contentLengthField n := by
  have hname : (ascii "content-length").map lower = ascii "content-length" := by decide
  rw [field, contentLengthField, hname]

theorem named_contentLength (n : ℕ) : Named "content-length" (contentLengthField n) ∧
    ¬ Named "transfer-encoding" (contentLengthField n) ∧ ¬ Named "date" (contentLengthField n) := by
  have hname : (contentLengthField n).1 = ascii "content-length" := rfl
  simp only [Named, hname]
  decide

section Headers

variable {map : HeaderMap} {hs fs : List (Bytes × Bytes)}

theorem addHeaders_append (hs hs' : List (Bytes × Bytes)) :
    addHeaders map (hs ++ hs') = (addHeaders map hs).bind fun fs => map.appendAll fs hs' :=
  HeaderMap.appendAll_append [] hs hs'

/-- The fields are those of the headers, in the order of each name. -/
theorem addHeaders_same (h : addHeaders map hs = some fs) : SameFields fs (hs.map field) :=
  HeaderMap.appendAll_same h

theorem addHeaders_isField (h : addHeaders map hs = some fs) : ∀ f ∈ fs, IsField f :=
  HeaderMap.appendAll_isField h fun _ hf => absurd hf List.not_mem_nil

/-- As many fields are of a kind as headers. -/
theorem length_filter_addHeaders (h : addHeaders map hs = some fs) {p : Bytes × Bytes → Bool}
    (hp : ∀ f, p (field f) = p f) : (fs.filter p).length = (hs.filter p).length := by
  have hfield : p ∘ field = p := funext hp
  rw [((addHeaders_same h).perm.filter p).length_eq, List.filter_map, List.length_map, hfield]

end Headers

/-- No custom header frames the response. -/
def Custom (headers : List (Bytes × Bytes)) : Prop :=
  ∀ h ∈ headers, ¬ Named "content-length" h ∧ ¬ Named "transfer-encoding" h

theorem Custom.filter {map : HeaderMap} {hs fs : List (Bytes × Bytes)} (hc : Custom hs)
    (h : addHeaders map hs = some fs) : fs.filter (Named "content-length" ·) = [] ∧
      fs.filter (Named "transfer-encoding" ·) = [] := by
  have hnone : ∀ name : String, (∀ h ∈ hs, ¬ Named name h) → fs.filter (Named name ·) = [] := by
    intro name hn
    have hlen := length_filter_addHeaders h (p := (Named name ·)) fun f => decide_eq_decide.mpr named_field
    have hnil : hs.filter (Named name ·) = [] := List.filter_eq_nil_iff.mpr fun f hf => by simpa using hn f hf
    rw [hnil, List.length_nil] at hlen
    exact List.length_eq_zero_iff.mp hlen
  exact ⟨hnone _ fun h hh => (hc h hh).1, hnone _ fun h hh => (hc h hh).2⟩

/-- Without other framing headers the length of a body comes last. -/
theorem Custom.append_length {map : HeaderMap} {hs fs gs : List (Bytes × Bytes)} {n : ℕ} (hc : Custom hs)
    (h : addHeaders map hs = some fs) (ha : map.append fs (contentLengthField n) = some gs) :
    gs = fs ++ [contentLengthField n] := by
  have hlength := field_contentLength n
  have hlast := HeaderMap.append_new ha fun f hf hname => by
    have hnot := List.filter_eq_nil_iff.mp (hc.filter h).1 f hf
    rw [hlength] at hname
    apply hnot
    rw [decide_eq_true_eq, Named, hname]
    exact (named_contentLength n).1
  rwa [hlength] at hlast

/-- The response is a head with the status, the custom headers and the length
of the body, and the body. -/
theorem buildResponse_head {map : HeaderMap} {wire : WireEncode} {config : ServerConfig} {response : Bytes}
    (h : buildResponse map wire config = some response) (hc : Custom config.headers) :
    ∃ (headers : List (Bytes × Bytes)) (head : Head), addHeaders map config.headers = some headers ∧
      head.fields.Perm (headers ++ [contentLengthField config.body.length]) ∧
      head.status = config.status ∧ response = head.text ++ config.body ∧
      contentLength (head.fields.map fun f => (f.1, trim f.2)) = some config.body.length := by
  obtain ⟨headers, hh, h⟩ := Option.bind_eq_some_iff.mp h
  obtain ⟨all, happend, h⟩ := Option.bind_eq_some_iff.mp h
  cases h
  obtain ⟨hl, ht⟩ := hc.filter hh
  obtain rfl := hc.append_length hh happend
  set length := contentLengthField config.body.length with hlength
  obtain ⟨fields, hperm, hencode⟩ := wire.encode_eq ⟨config.status, headers ++ [length], config.body⟩
  have hfield : ∀ f ∈ fields, IsField f := by
    intro f hf
    rcases List.mem_append.mp (hperm.subset hf) with hf | hf
    · exact addHeaders_isField hh f hf
    · rw [List.mem_singleton.mp hf, hlength, ← field_contentLength]
      exact map.isField happend
  refine ⟨headers, ⟨config.status, wire.reason config.status, fields, wire.calm_reason _, hfield⟩, hh, hperm,
    rfl, ?_, ?_⟩
  · rw [hencode, Head.text, List.append_assoc, List.append_assoc]
  · obtain ⟨hname, hnot, -⟩ := named_contentLength config.body.length
    have h1 := hperm.filter (Named "content-length" ·)
    have h2 := hperm.filter (Named "transfer-encoding" ·)
    rw [List.filter_append, hl, List.nil_append, List.filter_singleton, decide_eq_true hname] at h1
    rw [List.filter_append, ht, List.nil_append, List.filter_singleton, decide_eq_false hnot] at h2
    exact contentLength_decimal (List.perm_singleton.mp h1) (List.perm_nil.mp h2)

/-! ### On the wire -/

section Wire

variable {ε R : Type} {env : Env ε R}

/-- While a connection waits for input, and at its end, it has written one
response for each request. -/
theorem written_replicate {s : State R} (hs : Reachable env s)
    (hp : s.phase = .reading ∨ s.phase = .closed) :
    s.written = List.replicate s.served.length env.response := by
  have hserves := serves_of_waiting hs hp
  rw [hserves.written, hserves.requests]

/-- The requests, as far as the framing of their responses goes. -/
def heads (method : R → Bytes) (s : State R) : List Bool :=
  s.served.map fun r => decide (method r.1 = ascii "HEAD")

theorem written_framed_iff {map : HeaderMap} {wire : WireEncode} {config : ServerConfig}
    (hresponse : buildResponse map wire config = some env.response) (hc : Custom config.headers)
    (method : R → Bytes) {s : State R} (hs : Reachable env s)
    (hp : s.phase = .reading ∨ s.phase = .closed) :
    Framed config.status env.response (heads method s) s.written.flatten ↔
      config.body = [] ∨ ∀ b ∈ heads method s, ¬ Bodiless b config.status := by
  obtain ⟨-, head, -, -, hstatus, htext, hlen⟩ := buildResponse_head hresponse hc
  have hl : (heads method s).length = s.served.length := List.length_map _
  have hw := written_replicate hs hp
  rw [← hl] at hw
  have hf := framed_iff head hlen (heads method s)
  rw [← htext, ← hw, hstatus] at hf
  exact hf

/-- No request expects a response without body. -/
theorem forall_heads {method : R → Bytes} {s : State R} {status : ℕ} (h200 : 200 ≤ status) :
    (∀ b ∈ heads method s, ¬ Bodiless b status) ↔
      s.served = [] ∨ status ≠ 204 ∧ status ≠ 304 ∧ ∀ r ∈ s.served, method r.1 ≠ ascii "HEAD" := by
  have hb : ∀ r : R × ℕ, Bodiless (decide (method r.1 = ascii "HEAD")) status ↔
      method r.1 = ascii "HEAD" ∨ status = 204 ∨ status = 304 := by
    intro r
    rw [Bodiless, decide_eq_true_eq]
    have : ¬ status < 200 := by omega
    tauto
  unfold heads
  rw [List.forall_mem_map]
  simp only [hb]
  constructor
  · intro h
    rcases List.eq_nil_or_concat s.served with hnil | ⟨rs, r, hr⟩
    · exact Or.inl hnil
    · have hr' : r ∈ s.served := by
        rw [hr]
        simp
      have hst := h r hr'
      exact Or.inr ⟨fun e => hst (Or.inr (Or.inl e)), fun e => hst (Or.inr (Or.inr e)),
        fun q hq e => h q hq (Or.inl e)⟩
  · rintro (hnil | ⟨h1, h2, h3⟩) r hr
    · rw [hnil] at hr
      cases hr
    · rintro (e | e | e)
      · exact h3 r hr e
      · exact h1 e
      · exact h2 e

end Wire

/-! ### A run -/

/-- The characters of header names that are neither digits nor letters. -/
def tokenMarks : Bytes := ascii "!#$%&'*+-.^_`|~"

def isToken (b : UInt8) : Bool :=
  isDecimal b || (byte 'a' ≤ lower b && lower b ≤ byte 'z') || tokenMarks.contains b

/-- A token, and a value without control characters but tabs. -/
def isHeader (h : Bytes × Bytes) : Bool :=
  h.1 ≠ [] && h.1.all isToken && h.2.all fun b => b = byte '\t' || 32 ≤ b && b ≠ 127

theorem isField_header {h : Bytes × Bytes} (hh : isHeader h = true) : IsField (field h) := by
  have htoken : ∀ b : UInt8, isToken b = true → isBreak (lower b) = false ∧ lower b ≠ byte ':' := by decide +kernel
  have hvalue : ∀ b : UInt8, (b = byte '\t' || 32 ≤ b && b ≠ 127) = true → isBreak b = false := by decide +kernel
  rw [isHeader, Bool.and_eq_true, Bool.and_eq_true, decide_eq_true_eq, List.all_eq_true, List.all_eq_true] at hh
  obtain ⟨⟨hne, hname⟩, hcalm⟩ := hh
  refine ⟨fun e => hne (List.map_eq_nil_iff.mp e), fun b hb => ?_, fun hb => ?_, fun b hb => hvalue b (hcalm b hb)⟩
  · obtain ⟨c, hc, rfl⟩ := List.mem_map.mp hb
    exact (htoken c (hname c hc)).1
  · obtain ⟨c, hc, e⟩ := List.mem_map.mp hb
    exact (htoken c (hname c hc)).2 e

/-- Puts a field behind those of its name, or behind all. -/
def insertField (f : Bytes × Bytes) : List (Bytes × Bytes) → List (Bytes × Bytes)
  | [] => [f]
  | g :: gs => if g.1 = f.1 ∧ ∀ h ∈ gs, h.1 ≠ f.1 then g :: f :: gs else g :: insertField f gs

theorem insertField_place (f : Bytes × Bytes) : ∀ fs : List (Bytes × Bytes), ∃ before after,
    fs = before ++ after ∧ insertField f fs = before ++ f :: after ∧ (∀ h ∈ after, h.1 ≠ f.1) ∧
      ((∀ h ∈ fs, h.1 ≠ f.1) → after = [])
  | [] => ⟨[], [], rfl, rfl, nofun, fun _ => rfl⟩
  | g :: gs => by
    by_cases hg : g.1 = f.1 ∧ ∀ h ∈ gs, h.1 ≠ f.1
    · exact ⟨[g], gs, rfl, if_pos hg, hg.2, fun h => absurd hg.1 (h g List.mem_cons_self)⟩
    · obtain ⟨before, after, rfl, hinsert, hafter, hlast⟩ := insertField_place f gs
      refine ⟨g :: before, after, rfl, ?_, hafter, fun h => hlast fun e he => h e (List.mem_cons_of_mem g he)⟩
      rw [insertField, if_neg hg, hinsert]
      rfl

/-- A map of any size that takes these headers. -/
def plainHeaders : HeaderMap where
  append fs h := if isHeader h then some (insertField (field h) fs) else none
  isField ha := by
    split_ifs at ha with hh
    exact isField_header hh
  place ha := by
    split_ifs at ha
    cases ha
    exact insertField_place _ _

/-- An encoder with the reason `OK`. -/
def plainWire : WireEncode where
  encode r := statusLine r.status (ascii "OK") ++ (crlf ++ (fieldLines r.headers ++ r.body))
  reason _ := ascii "OK"
  calm_reason _ := calm_of_all (by decide)
  encode_eq r := ⟨r.headers, .refl _, rfl⟩

/-- A decoder of one request with the method `m`. -/
def oneRequest (m : Bytes) : Decoder UInt8 Unit Bytes where
  decode b :=
    let text := m ++ ascii " / HTTP/1.1\r\n\r\n"
    if text <+: b then .ok (m, text.length) else .error ()
  progress := by
    intro b r n h
    simp only at h
    split_ifs at h with hp
    cases h
    refine ⟨?_, hp.length_le⟩
    rw [List.length_append, show (ascii " / HTTP/1.1\r\n\r\n").length = 15 by decide]
    omega
  stable := by
    intro b r n h e
    simp only at h ⊢
    split_ifs at h with hp
    cases h
    rw [if_pos (hp.trans (List.prefix_append b e))]

/-- A connection of monoio with an allocator of zeros. -/
def sampleEnv (m response : Bytes) : Env Unit Bytes where
  runtime := .monoio
  alloc := {
    withCapacity := fun n => List.replicate n 0
    le_withCapacity := le_zeros
    reserve := fun _ _ n => List.replicate n 0
    le_reserve := fun _ _ => le_zeros }
  decoder := oneRequest m
  response := response
  meter := false

/-- The answer to it with the body `x`. -/
def sampleConfig : ServerConfig := ⟨200, [], ascii "x"⟩

def sampleResponse : Bytes := plainWire.encode ⟨200, [(ascii "content-length", decimal 1)], ascii "x"⟩

theorem sample_custom : Custom sampleConfig.headers := fun _ h => by cases h

theorem sample_run (m response : Bytes) (hm : m.length ≤ 4000) : ∃ s n,
    Reachable (sampleEnv m response) s ∧ s.phase = .reading ∧ s.served = [(m, n)] := by
  set text := m ++ ascii " / HTTP/1.1\r\n\r\n" with htext
  have hlen : text.length = m.length + 15 := List.length_append
  have hne : text ≠ [] := by
    intro e
    rw [e, List.length_nil] at hlen
    omega
  obtain ⟨s, hs, hp, hr⟩ := first_read (sampleEnv m response) hne (by omega)
  have hd : (oneRequest m).decode text = .ok (m, text.length) := if_pos (List.prefix_refl _)
  have hw := (reachable_streams hs).waiting (Or.inr (Or.inl hp))
  rw [hr, List.flatten_singleton] at hw
  have hg := (oneRequest m).greedy_ok hd
  obtain ⟨e, he⟩ := (oneRequest m).decode_nil
  rw [List.drop_length, (oneRequest m).greedy_error he] at hg
  have hserved := congrArg Prod.fst (hw.symm.trans hg)
  exact ⟨s, text.length, hs, hp, hserved⟩

section Wire

variable {ε R : Type}

/-- A client reads one response for each request, and nothing else, exactly if
there was no request, or there is no body, or neither the status nor a method
forbids one. -/
theorem one_response_per_request_iff (map : HeaderMap) (wire : WireEncode) (config : ServerConfig) (env : Env ε R)
    (method : R → Bytes) (h200 : 200 ≤ config.status) (hc : Custom config.headers)
    (hresponse : buildResponse map wire config = some env.response) (s : State R) (hs : Reachable env s)
    (hp : s.phase = .reading ∨ s.phase = .closed) :
    Framed config.status env.response (heads method s) s.written.flatten ↔
      config.body = [] ∨ s.served = [] ∨ config.status ≠ 204 ∧ config.status ≠ 304 ∧
        ∀ r ∈ s.served, method r.1 ≠ ascii "HEAD" := by
  rw [written_framed_iff hresponse hc method hs hp, forall_heads h200]

end Wire

/-- One response to a `GET` is read. -/
theorem one_response_get : ∃ s, Reachable (sampleEnv (ascii "GET") sampleResponse) s ∧
    s.served.length = 1 ∧ Framed 200 sampleResponse (heads id s) s.written.flatten := by
  obtain ⟨s, n, hs, hp, hserved⟩ := sample_run (ascii "GET") sampleResponse (by decide)
  have hget : ∀ r ∈ s.served, id r.1 ≠ ascii "HEAD" := by
    rw [hserved]
    intro r hr
    rw [List.mem_singleton.mp hr]
    show ascii "GET" ≠ ascii "HEAD"
    decide
  refine ⟨s, hs, by rw [hserved]; rfl, ?_⟩
  exact (one_response_per_request_iff plainHeaders plainWire sampleConfig
    (sampleEnv (ascii "GET") sampleResponse) id (by decide) sample_custom rfl s hs (Or.inl hp)).mpr
      (Or.inr (Or.inr ⟨by decide, by decide, hget⟩))

/-- The body after a `HEAD` is left over. -/
theorem one_response_head : ¬ ∀ s, Reachable (sampleEnv (ascii "HEAD") sampleResponse) s →
    s.phase = .reading → Framed 200 sampleResponse (heads id s) s.written.flatten := by
  intro h
  obtain ⟨s, n, hs, hp, hserved⟩ := sample_run (ascii "HEAD") sampleResponse (by decide)
  have hresponse : buildResponse plainHeaders plainWire sampleConfig =
      some (sampleEnv (ascii "HEAD") sampleResponse).response := rfl
  have hframed := (written_framed_iff hresponse sample_custom id hs (Or.inl hp)).mp (h s hs hp)
  have hheads : heads id s = [true] := by
    unfold heads
    rw [hserved]
    rfl
  rcases hframed with hb | hb
  · exact absurd hb (by decide)
  · rw [hheads] at hb
    exact hb true List.mem_cons_self (Or.inl rfl)

end Conn
end Statico
