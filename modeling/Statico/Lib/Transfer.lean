/-
# Replies with a body in chunks or of a known length

A client that keeps a connection open reads one reply after another: a head,
and a body that ends where the request's method, the status and the fields
say: at once, after `Content-Length` bytes, or with the last chunk. A server
that sends a body in one of these three ways is understood whatever it sends
next (`cutReply_sent`), and so are all its replies (`cutReplies_exchanges`).

Key definitions: `Reply`, `cutReply`, `Transfer`, `Exchange`.
Key theorems: `cutReply_sent`, `cutReplies_exchanges`.
-/
import Statico.Lib.Chunked

namespace Statico
namespace Http1

/-! ### Reading -/

/-- A reply as a client has it. -/
structure Reply where
  status : ℕ
  fields : List (Bytes × Bytes)
  body : Bytes

/-- The fields say that the body comes in chunks, and nothing else. -/
def InChunks (fs : List (Bytes × Bytes)) : Prop :=
  fs.filter (Named "content-length" ·) = [] ∧
    (fs.filter (Named "transfer-encoding" ·)).map (fun f => f.2.map lower) = [ascii "chunked"]

instance (fs : List (Bytes × Bytes)) : Decidable (InChunks fs) := inferInstanceAs (Decidable (_ ∧ _))

/-- The first reply, and what follows it. -/
def cutReply (isHead : Bool) (s : Bytes) : Option (Reply × Bytes) := do
  let (l, t) ← cutLine s
  let status ← parseStatus l
  let (fs, u) ← cutFields (t.length + 1) t
  if Bodiless isHead status then return (⟨status, fs, []⟩, u)
  else if InChunks fs then
    let (cs, v) ← Chunked.decode u
    return (⟨status, fs, cs.flatten⟩, v)
  else
    let n ← contentLength fs
    if u.length < n then none
    else return (⟨status, fs, u.take n⟩, u.drop n)

/-- The replies to requests, each with whether it was a `HEAD`, and what
follows them. -/
def cutReplies : List Bool → Bytes → Option (List Reply × Bytes)
  | [], s => some ([], s)
  | h :: hs, s => do
    let (r, t) ← cutReply h s
    let (rs, u) ← cutReplies hs t
    return (r :: rs, u)

/-! ### Sending -/

/-- The fields without the blanks around their values. -/
def trimmed (fs : List (Bytes × Bytes)) : List (Bytes × Bytes) := fs.map fun f => (f.1, trim f.2)

/-- A body that is sent as `wire` after a head with this status and these
fields. -/
inductive Transfer (isHead : Bool) (status : ℕ) (fs : List (Bytes × Bytes)) : Bytes → Bytes → Prop
  | none : Bodiless isHead status → Transfer isHead status fs [] []
  | length {body : Bytes} : ¬ Bodiless isHead status → ¬ InChunks fs →
      contentLength fs = some body.length → Transfer isHead status fs body body
  | chunks {cs : List Bytes} {wire : Bytes} : ¬ Bodiless isHead status → InChunks fs → (∀ c ∈ cs, c ≠ []) →
      Chunked.Coded cs wire → Transfer isHead status fs cs.flatten wire

/-- A `Content-Length` says that the body comes at once. -/
theorem not_inChunks {fs : List (Bytes × Bytes)} {n : ℕ} (h : contentLength fs = some n) :
    ¬ InChunks fs := by
  rintro ⟨hl, -⟩
  rw [contentLength, hl] at h
  cases h

/-- What was sent reads back, whatever follows. -/
theorem cutReply_sent (h : Head) {isHead : Bool} {body wire : Bytes}
    (ht : Transfer isHead h.status (trimmed h.fields) body wire) (rest : Bytes) :
    cutReply isHead (h.text ++ (wire ++ rest)) = some (⟨h.status, trimmed h.fields, body⟩, rest) := by
  have hline : cutLine (h.text ++ (wire ++ rest)) =
      some (statusLine h.status h.reason, fieldLines h.fields ++ (wire ++ rest)) := by
    rw [Head.text, List.append_assoc, List.append_assoc, cutLine_calm (calm_statusLine h.calm_reason _)]
  have hlen := length_fieldLines h.fields
  have hfields := cutFields_lines h.isField ((fieldLines h.fields ++ (wire ++ rest)).length + 1)
    (wire ++ rest) (by
      rw [List.length_append]
      omega)
  unfold cutReply
  rw [hline]
  simp only [Option.bind_eq_bind, Option.bind_some, parseStatus_line, hfields]
  rw [← trimmed]
  cases ht with
  | none hb =>
    rw [if_pos hb]
    rfl
  | length hb hc hn =>
    have hle : ¬ (body ++ rest).length < body.length := by
      rw [List.length_append]
      omega
    rw [if_neg hb, if_neg hc, hn]
    simp only [Option.bind_some, if_neg hle, List.take_left, List.drop_left]
    rfl
  | chunks hb hc hne hcoded =>
    rw [if_neg hb, if_pos hc, hcoded.decode hne]
    rfl

/-! ### One after another -/

/-- A request, what is sent for it, and the reply a client reads. -/
structure Exchange where
  isHead : Bool
  text : Bytes
  reply : Reply
  reads : ∀ rest, cutReply isHead (text ++ rest) = some (reply, rest)

/-- A reply with a head and a body. -/
def Exchange.of (h : Head) {isHead : Bool} {body wire : Bytes}
    (ht : Transfer isHead h.status (trimmed h.fields) body wire) : Exchange where
  isHead := isHead
  text := h.text ++ wire
  reply := ⟨h.status, trimmed h.fields, body⟩
  reads rest := by
    rw [List.append_assoc]
    exact cutReply_sent h ht rest

/-- The replies to any requests are read one by one, each as the exchange of
its request has it, up to whatever follows them. -/
theorem cutReplies_exchanges {α : Type} (isHead : α → Bool) (text : α → Bytes) (R : α → Reply → Prop) :
    ∀ {ts : List α}, (∀ t ∈ ts, ∃ x : Exchange, x.isHead = isHead t ∧ x.text = text t ∧ R t x.reply) →
    ∀ rest : Bytes, ∃ rs, cutReplies (ts.map isHead) ((ts.map text).flatten ++ rest) = some (rs, rest) ∧
      List.Forall₂ R ts rs
  | [], _, _ => ⟨[], rfl, .nil⟩
  | t :: ts, h, rest => by
    obtain ⟨x, hhead, htext, hr⟩ := h t List.mem_cons_self
    obtain ⟨rs, hrs, hf⟩ := cutReplies_exchanges isHead text R (fun u hu => h u (List.mem_cons_of_mem t hu)) rest
    refine ⟨x.reply :: rs, ?_, .cons hr hf⟩
    rw [List.map_cons, List.map_cons, List.flatten_cons, List.append_assoc, cutReplies, ← hhead, ← htext,
      x.reads]
    simp only [Option.bind_eq_bind, Option.bind_some, hrs]
    rfl

end Http1
end Statico
