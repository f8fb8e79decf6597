/-
# Metering requests

The hyper services count the bytes of a request from its head and its body,
as hyper hands them over: the lines the head had, and the body, which for a
chunked request the client sent with sizes and line ends around its pieces.
How it was cut into pieces is gone by then. `chunked_body_wire_size` takes it
for one chunk, which is what the client sent if it sent one or none, and less
than what it sent else. A service takes a body for chunked only where the
first line of `Transfer-Encoding` says so in small letters, so a single chunk
behind any other line is recorded without its frame (`chunked_metered`).

Key definitions: `chunkedBodyWireSize`, `requestHeadSize`, `isChunked`,
`requestBytesTotal`.
Key theorems: `chunkedBodyWireSize_eq`, `chunked_metered`.
-/
import Statico.Lib.Transfer

namespace Statico
namespace Http

open Http1

/-! ### The size of a chunked body -/

/-- `leading_zeros` of a 64-bit word. -/
def leadingZeros (n : ℕ) : ℕ := 64 - n.size

/-- `chunked_body_wire_size` -/
def chunkedBodyWireSize (bodyLen : ℕ) : ℕ :=
  if bodyLen = 0 then 5
  else
    let bitsUsed := 64 - leadingZeros bodyLen
    let hexDigits := (bitsUsed + 3) / 4
    hexDigits + bodyLen + 9

/-- The bits of a number, four at a time, are its hexadecimal digits. -/
theorem hexDigits_eq {n : ℕ} (h0 : 0 < n) (h : n < 2 ^ 64) :
    (64 - leadingZeros n + 3) / 4 = (Chunked.hexadecimal n).length := by
  have hsize : n.size ≤ 64 := Nat.size_le.mpr h
  have hpos : 0 < n.size := Nat.size_pos.mpr h0
  have hbits : 64 - leadingZeros n = n.size := by
    unfold leadingZeros
    omega
  have hle : ∀ k, 0 < k → ((n.size + 3) / 4 ≤ k ↔ (Chunked.hexadecimal n).length ≤ k) := by
    intro k hk
    calc (n.size + 3) / 4 ≤ k ↔ n.size ≤ 4 * k := by omega
      _ ↔ n < 2 ^ (4 * k) := Nat.size_le
      _ ↔ n < 16 ^ k := by rw [Nat.pow_mul]
      _ ↔ (Chunked.hexadecimal n).length ≤ k := (Chunked.length_hexadecimal_le hk).symm
  rw [hbits]
  apply Nat.le_antisymm
  · exact (hle _ (Chunked.length_hexadecimal_pos n)).mpr le_rfl
  · exact (hle _ (by omega)).mp le_rfl

theorem chunkedBodyWireSize_pos {n : ℕ} (h0 : 0 < n) (h : n < 2 ^ 64) :
    chunkedBodyWireSize n = (Chunked.hexadecimal n).length + n + 9 := by
  rw [← hexDigits_eq h0 h, chunkedBodyWireSize, if_neg (Nat.ne_of_gt h0)]

/-- The size is that of the body in one chunk. -/
theorem chunkedBodyWireSize_eq {data : Bytes} (hne : data ≠ []) (h : data.length < 2 ^ 64) :
    chunkedBodyWireSize data.length = (Chunked.encode [data]).length := by
  rw [chunkedBodyWireSize_pos (List.length_pos_iff.mpr hne) h, Chunked.length_encode_singleton]

theorem chunkedBodyWireSize_le : ∀ {chunks : List Bytes}, (∀ c ∈ chunks, c ≠ []) →
    chunks.flatten.length < 2 ^ 64 →
    chunkedBodyWireSize chunks.flatten.length + 4 * (chunks.length - 1) ≤ (Chunked.encode chunks).length
  | [], _, _ => by decide
  | c :: cs, hne, h => by
    have hc : (c :: cs).flatten ≠ [] := by
      have hc := hne c List.mem_cons_self
      simp [hc]
    rw [chunkedBodyWireSize_eq hc h]
    exact Chunked.length_encode_flatten c cs

theorem chunkedBodyWireSize_eq_iff {chunks : List Bytes} (hne : ∀ c ∈ chunks, c ≠ [])
    (h : chunks.flatten.length < 2 ^ 64) :
    chunkedBodyWireSize chunks.flatten.length = (Chunked.encode chunks).length ↔ chunks.length ≤ 1 := by
  have hle := chunkedBodyWireSize_le hne h
  constructor
  · omega
  · intro h1
    match chunks with
    | [] => decide
    | [c] =>
      rw [List.flatten_singleton] at h ⊢
      exact chunkedBodyWireSize_eq (hne c List.mem_cons_self) h

/-! ### The size of a request -/

inductive Version
  | http09 | http10 | http11 | http2 | http3

/-- `http_version_len` -/
def httpVersionLen : Version → ℕ
  | .http11 | .http10 | .http09 => 8
  | .http2 | .http3 => 6

/-- A request without its body, as hyper hands it to a service. -/
structure HttpRequest where
  method : Bytes
  uri : Bytes
  version : Version
  headers : List (Bytes × Bytes)

/-- The loop of `request_headers_size` and of `response_headers_size`. -/
def headersSize : List (Bytes × Bytes) → ℕ
  | [] => 0
  | (name, value) :: hs => name.length + 2 + value.length + 2 + headersSize hs

/-- `request_head_size` -/
def requestHeadSize (req : HttpRequest) : ℕ :=
  let uriLen := if req.uri.length = 0 then 1 else req.uri.length
  req.method.length + 1 + uriLen + 1 + httpVersionLen req.version + 2 + headersSize req.headers + 2

/-- `HeaderValue::to_str`: visible characters, blanks and tabs only. -/
def toStr (v : Bytes) : Option Bytes :=
  if v.all (fun b => b = byte '\t' || 32 ≤ b && b < 127) = true then some v else none

/-- The first `Transfer-Encoding` contains the word, in lower case. -/
def isChunked (headers : List (Bytes × Bytes)) : Bool :=
  (((headers.find? (Named "transfer-encoding" ·)).bind fun f => toStr f.2).map
    fun s => decide (ascii "chunked" <:+: s)).getD false

/-- What a service passes to `record_request`; `none` where the body could
not be read to its end. -/
def requestBytesTotal (req : HttpRequest) (collected : Option Bytes) : ℕ :=
  match collected with
  | some body =>
    let bodySize := if isChunked req.headers then chunkedBodyWireSize body.length else body.length
    requestHeadSize req + bodySize
  | none => requestHeadSize req

/-- The chunks are sent with a last one, of five bytes. -/
theorem length_flatten_lt_encode : ∀ chunks : List Bytes,
    chunks.flatten.length < (Chunked.encode chunks).length
  | [] => by decide
  | c :: cs => by
    have ih := length_flatten_lt_encode cs
    have hc := Chunked.length_chunk c
    simp only [List.flatten_cons, Chunked.encode, List.length_append]
    omega

/-- The size of a chunked body is at most that of the chunks, and less where
there are two or more. What is recorded for a request is no more than its head
and the chunks, and just that exactly if the service takes the body for chunked
and there is one chunk or none. So a single chunk is recorded as it was sent
exactly if the service takes the body for chunked. -/
theorem chunked_metered (req : HttpRequest) (chunks : List Bytes) (hne : ∀ c ∈ chunks, c ≠ [])
    (h : chunks.flatten.length < 2 ^ 63) :
    chunkedBodyWireSize chunks.flatten.length ≤ (Chunked.encode chunks).length ∧
    (chunkedBodyWireSize chunks.flatten.length = (Chunked.encode chunks).length ↔ chunks.length ≤ 1) ∧
    requestBytesTotal req none ≤ requestHeadSize req + (Chunked.encode chunks).length ∧
    requestBytesTotal req (some chunks.flatten) ≤ requestHeadSize req + (Chunked.encode chunks).length ∧
    (requestBytesTotal req (some chunks.flatten) = requestHeadSize req + (Chunked.encode chunks).length ↔
      isChunked req.headers = true ∧ chunks.length ≤ 1) ∧
    ((chunks.length = 1 → requestBytesTotal req (some chunks.flatten) =
        requestHeadSize req + (Chunked.encode chunks).length) ↔
      isChunked req.headers = true ∨ chunks.length ≠ 1) := by
  have h64 : chunks.flatten.length < 2 ^ 64 := lt_trans h (by decide)
  have hle : chunkedBodyWireSize chunks.flatten.length ≤ (Chunked.encode chunks).length :=
    Nat.le_trans (Nat.le_add_right _ _) (chunkedBodyWireSize_le hne h64)
  have heq := chunkedBodyWireSize_eq_iff hne h64
  have hlt := length_flatten_lt_encode chunks
  have hexact : requestBytesTotal req (some chunks.flatten) =
      requestHeadSize req + (Chunked.encode chunks).length ↔ isChunked req.headers = true ∧ chunks.length ≤ 1 := by
    rw [requestBytesTotal, Nat.add_left_cancel_iff]
    split_ifs with hc
    · rw [heq, hc]
      exact (and_iff_right rfl).symm
    · exact iff_of_false (Nat.ne_of_lt hlt) fun e => hc e.1
  refine ⟨hle, heq, Nat.le_add_right _ _, ?_, hexact, ?_⟩
  · apply Nat.add_le_add_left
    split_ifs
    · exact hle
    · exact Nat.le_of_lt hlt
  · rw [hexact]
    constructor
    · intro himp
      by_cases hone : chunks.length = 1
      · exact Or.inl (himp hone).1
      · exact Or.inr hone
    · rintro (hc | hno) hone
      · exact ⟨hc, Nat.le_of_eq hone⟩
      · exact absurd hone hno

/-- A `POST` whose body came in two chunks is recorded with fewer bytes. -/
theorem chunked_metered_two :
    isChunked [(ascii "transfer-encoding", ascii "chunked")] = true ∧
      requestBytesTotal ⟨ascii "POST", ascii "/", .http11, [(ascii "transfer-encoding", ascii "chunked")]⟩
        (some (ascii "Hello")) <
      requestHeadSize ⟨ascii "POST", ascii "/", .http11, [(ascii "transfer-encoding", ascii "chunked")]⟩ +
        (Chunked.encode [ascii "He", ascii "llo"]).length := by
  obtain ⟨-, -, -, hle, hiff, -⟩ := chunked_metered
    ⟨ascii "POST", ascii "/", .http11, [(ascii "transfer-encoding", ascii "chunked")]⟩
    [ascii "He", ascii "llo"] (by decide) (by decide)
  exact ⟨by decide, lt_of_le_of_ne hle fun e => absurd (hiff.mp e).2 (by decide)⟩

/-- A request in chunks that says so with a capital letter. -/
def capitalRequest : HttpRequest :=
  ⟨ascii "POST", ascii "/", .http11, [(ascii "host", ascii "x"), (ascii "transfer-encoding", ascii "Chunked")]⟩

/-- Of its 71 bytes only 61 are recorded. -/
theorem chunked_metered_capital : InChunks capitalRequest.headers ∧
    requestHeadSize capitalRequest + (Chunked.encode [ascii "Hello"]).length = 71 ∧
    requestBytesTotal capitalRequest (some (ascii "Hello")) = 61 ∧
    requestBytesTotal capitalRequest (some [ascii "Hello"].flatten) ≠
      requestHeadSize capitalRequest + (Chunked.encode [ascii "Hello"]).length := by
  decide

end Http
end Statico
