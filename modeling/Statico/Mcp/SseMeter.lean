/-
# The size of a stream

A streamed response is metered by the sizes of its events: the notifications'
are summed when the server starts, the final event's is added for each
response. Over HTTP/1.1 each event is a chunk, and the log shows the body with
the chunks' sizes and line ends in it. The sum is the length of that text, and
a decoder of the chunked coding finds the events in it (`stream_metered`).

Key definitions: `concatSseForLog`, `sseNotifWireBytes`, `sseBodyWire`.
Key theorems: `concatSseForLog_chunked`, `stream_metered`.
-/
import Statico.Http.Metering
import Statico.Mcp.Dispatch

namespace Statico
namespace Mcp

open Http

/-! ### The body in the log -/

/-- `concat_sse_for_log` -/
def concatSseForLog (notifications : List Bytes) (finalEvent : Bytes) (chunked : Bool) : Bytes :=
  if !chunked then notifications.flatten ++ finalEvent
  else
    (notifications.flatMap fun n =>
      Chunked.hexadecimal n.length ++ ascii "\r\n" ++ n ++ ascii "\r\n") ++
    (Chunked.hexadecimal finalEvent.length ++ ascii "\r\n" ++ finalEvent ++ ascii "\r\n0\r\n\r\n")

/-- The text is the chunked coding of the events. -/
theorem concatSseForLog_chunked (notifications : List Bytes) (finalEvent : Bytes) :
    concatSseForLog notifications finalEvent true = Chunked.encode (notifications ++ [finalEvent]) := by
  have hchunk : ∀ n : Bytes, Chunked.hexadecimal n.length ++ ascii "\r\n" ++ n ++ ascii "\r\n" =
      Chunked.chunk n := by
    intro n
    rw [List.append_assoc, List.append_assoc]
    rfl
  have hlast : ascii "\r\n0\r\n\r\n" = ascii "\r\n" ++ Chunked.lastChunk := by decide
  have hfinal : Chunked.hexadecimal finalEvent.length ++ ascii "\r\n" ++ finalEvent ++
      ascii "\r\n0\r\n\r\n" = Chunked.encode [finalEvent] := by
    rw [hlast, ← List.append_assoc, hchunk]
    rfl
  rw [Chunked.encode_append, concatSseForLog, if_neg (by decide), hfinal]
  simp only [hchunk]

theorem concatSseForLog_plain (notifications : List Bytes) (finalEvent : Bytes) :
    concatSseForLog notifications finalEvent false = (notifications ++ [finalEvent]).flatten := by
  rw [List.flatten_append, List.flatten_singleton]
  rfl

/-! ### Its size -/

/-- A subtraction; `none` where it overflows. -/
def checkedSub (a b : ℕ) : Option ℕ := if b ≤ a then some (a - b) else none

/-- `sse_notif_wire_bytes` -/
def sseNotifWireBytes (http2 : Bool) : List Bytes → Option ℕ
  | [] => some 0
  | b :: bs => do
    let n ← if http2 then some b.length else checkedSub (chunkedBodyWireSize b.length) 5
    let sum ← sseNotifWireBytes http2 bs
    return n + sum

/-- `body_wire` in `handle_conn` -/
def sseBodyWire (useHttp2 : Bool) (notifications : List Bytes) (finalLen : ℕ) : Option ℕ := do
  let notifWireBytes ← sseNotifWireBytes useHttp2 notifications
  if useHttp2 then return notifWireBytes + finalLen
  else return notifWireBytes + chunkedBodyWireSize finalLen

theorem checkedSub_chunk {b : Bytes} (hne : b ≠ []) (h : b.length < 2 ^ 64) :
    checkedSub (chunkedBodyWireSize b.length) 5 = some (Chunked.chunk b).length := by
  have hsize := chunkedBodyWireSize_pos (List.length_pos_iff.mpr hne) h
  have hchunk := Chunked.length_chunk b
  rw [checkedSub, if_pos (by omega), Option.some_inj]
  omega

theorem sseNotifWireBytes_chunked : ∀ {bs : List Bytes}, (∀ b ∈ bs, b ≠ [] ∧ b.length < 2 ^ 64) →
    sseNotifWireBytes false bs = some (bs.flatMap Chunked.chunk).length
  | [], _ => rfl
  | b :: bs, h => by
    have ih := sseNotifWireBytes_chunked fun d hd => h d (List.mem_cons_of_mem b hd)
    obtain ⟨hne, hlen⟩ := h b List.mem_cons_self
    rw [sseNotifWireBytes, ih, if_neg (by decide), checkedSub_chunk hne hlen, List.flatMap_cons,
      List.length_append]
    rfl

theorem sseNotifWireBytes_plain (bs : List Bytes) : sseNotifWireBytes true bs = some bs.flatten.length := by
  induction bs with
  | nil => rfl
  | cons b bs ih =>
    rw [sseNotifWireBytes, ih, if_pos rfl, List.flatten_cons, List.length_append]
    rfl

/-! ### The notifications -/

theorem length_buildSseNotifications (count : ℕ) : (buildSseNotifications count).length = count := by
  rw [buildSseNotifications, List.length_map, List.length_range']

theorem length_sseNotification (count i : ℕ) :
    (sseNotification count i).length = 115 + (decimal i).length + (decimal count).length := by
  have hmove : ∀ a b c d e f : ℕ, a + b + c + d + e + f = a + b + d + f + c + e := by omega
  -- what is left without the two numbers is the length of a constant
  rw [sseNotification, List.length_append, List.length_append, List.length_append, List.length_append,
    List.length_append, hmove]
  rfl

/-- A notification has room for its two numbers, and much more. -/
theorem notification_fits {count : ℕ} (hcount : count < 2 ^ 64) :
    ∀ b ∈ buildSseNotifications count, b ≠ [] ∧ b.length < 2 ^ 64 := by
  intro b hb
  obtain ⟨i, hi, rfl⟩ := List.mem_map.mp hb
  rw [List.mem_range'_1] at hi
  have h64 : (2 : ℕ) ^ 64 < 10 ^ 20 := by norm_num
  have hdi : (decimal i).length ≤ 20 := (length_decimal_le (by decide)).mpr (by omega)
  have hdc : (decimal count).length ≤ 20 := (length_decimal_le (by decide)).mpr (by omega)
  have hlen := length_sseNotification count i
  constructor
  · intro h
    rw [h, List.length_nil] at hlen
    omega
  · omega

/-- What is metered for the body of a stream is the length of the text in the
log, over HTTP/1.1 and over HTTP/2; the text is the notifications and the final
event, as they are or a chunk for each. -/
theorem stream_metered (count : ℕ) (hcount : count < 2 ^ 64) (finalEvent : Slice)
    (hne : finalEvent.bytes ≠ []) :
    (buildSseNotifications count).length = count ∧
    sseBodyWire false (buildSseNotifications count) finalEvent.bytes.length =
      some (concatSseForLog (buildSseNotifications count) finalEvent.bytes true).length ∧
    Chunked.decode (concatSseForLog (buildSseNotifications count) finalEvent.bytes true) =
      some (buildSseNotifications count ++ [finalEvent.bytes], []) ∧
    sseBodyWire true (buildSseNotifications count) finalEvent.bytes.length =
      some (concatSseForLog (buildSseNotifications count) finalEvent.bytes false).length ∧
    concatSseForLog (buildSseNotifications count) finalEvent.bytes false =
      (buildSseNotifications count ++ [finalEvent.bytes]).flatten := by
  have hfits := notification_fits hcount
  refine ⟨length_buildSseNotifications count, ?_, ?_, ?_, concatSseForLog_plain _ _⟩
  · rw [concatSseForLog_chunked, Chunked.encode_append, List.length_append, sseBodyWire,
      sseNotifWireBytes_chunked hfits, chunkedBodyWireSize_eq hne finalEvent.fits]
    rfl
  · have hall : ∀ c ∈ buildSseNotifications count ++ [finalEvent.bytes], c ≠ [] := by
      intro c hc
      rcases List.mem_append.mp hc with hc | hc
      · exact (hfits c hc).1
      · rw [List.mem_singleton.mp hc]
        exact hne
    have hdecode := Chunked.decode_encode hall []
    rw [List.append_nil] at hdecode
    rw [concatSseForLog_chunked, hdecode]
  · rw [concatSseForLog_plain, List.flatten_append, List.flatten_singleton, List.length_append,
      sseBodyWire, sseNotifWireBytes_plain]
    rfl

/-- Two notifications, and a final event that looks like the end of a body. -/
theorem stream_metered_two :
    Chunked.decode (concatSseForLog (buildSseNotifications 2) (ascii "0\r\n\r\n") true) =
      some (buildSseNotifications 2 ++ [ascii "0\r\n\r\n"], []) :=
  (stream_metered 2 (by decide) ⟨ascii "0\r\n\r\n", by decide⟩ (by decide)).2.2.1

end Mcp
end Statico
