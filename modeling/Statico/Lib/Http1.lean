/-
# Framing HTTP/1.1 responses

How a client finds the responses in what a server sends. A response is a
status line, header fields, an empty line, and a body whose length the
request's method, the status and the fields determine: no body after a
`HEAD` request or for the statuses 1xx, 204 and 304, and `Content-Length`
bytes else. Nothing but this tells where the next response starts.

Key definitions: `readResponse`, `readResponses`, `Head`, `Framed`.
Key theorems: `readResponse_head`, `framed_iff`.
-/
import Statico.Lib.Ascii

namespace Statico
namespace Http1

def crlf : Bytes := ascii "\r\n"

/-! ### Reading -/

/-- The first line, and what follows it. -/
def cutLine : Bytes → Option (Bytes × Bytes)
  | [] => none
  | [_] => none
  | c :: d :: s =>
    if c = byte '\r' ∧ d = byte '\n' then some ([], s)
    else (cutLine (d :: s)).map fun (l, t) => (c :: l, t)

def isOws (b : UInt8) : Bool := b = byte ' ' || b = byte '\t'

/-- A text without the blanks around it. -/
def trim (s : Bytes) : Bytes := (s.dropWhile isOws).rdropWhile isOws

/-- The name and the value of a header field. -/
def parseField (l : Bytes) : Option (Bytes × Bytes) :=
  match l.dropWhile (· ≠ byte ':') with
  | [] => none
  | _ :: v => some (l.takeWhile (· ≠ byte ':'), trim v)

/-- The fields up to the empty line, and what follows it. -/
def cutFields : ℕ → Bytes → Option (List (Bytes × Bytes) × Bytes)
  | 0, _ => none
  | n + 1, s => do
    let (l, t) ← cutLine s
    if l = [] then return ([], t)
    let f ← parseField l
    let (fs, u) ← cutFields n t
    return (f :: fs, u)

/-- The status of a status line. -/
def parseStatus (l : Bytes) : Option ℕ :=
  if ascii "HTTP/1.1 " <+: l then parseDecimal ((l.drop 9).takeWhile (· ≠ byte ' ')) else none

/-- The field has this name; letter case does not matter. -/
def Named (name : String) (f : Bytes × Bytes) : Prop := f.1.map lower = ascii name

instance (name : String) (f : Bytes × Bytes) : Decidable (Named name f) :=
  inferInstanceAs (Decidable (f.1.map lower = ascii name))

/-- The length the fields give: one `Content-Length`, and no other way of
framing. -/
def contentLength (fs : List (Bytes × Bytes)) : Option ℕ :=
  match fs.filter (Named "content-length" ·), fs.filter (Named "transfer-encoding" ·) with
  | [f], [] => parseDecimal f.2
  | _, _ => none

/-- A response without a body, whatever its fields say. -/
def Bodiless (isHead : Bool) (status : ℕ) : Prop :=
  isHead = true ∨ status < 200 ∨ status = 204 ∨ status = 304

instance (isHead : Bool) (status : ℕ) : Decidable (Bodiless isHead status) :=
  inferInstanceAs (Decidable (isHead = true ∨ status < 200 ∨ status = 204 ∨ status = 304))

def bodyLength (isHead : Bool) (status : ℕ) (fs : List (Bytes × Bytes)) : Option ℕ :=
  if Bodiless isHead status then some 0 else contentLength fs

/-- A response a client read: its status, and all its bytes. -/
structure Message where
  status : ℕ
  text : Bytes

/-- The first response, and what follows it. -/
def readResponse (isHead : Bool) (s : Bytes) : Option (Message × Bytes) := do
  let (l, t) ← cutLine s
  let status ← parseStatus l
  let (fs, u) ← cutFields (t.length + 1) t
  let n ← bodyLength isHead status fs
  if u.length < n then none
  else return (⟨status, s.take (s.length - (u.length - n))⟩, u.drop n)

/-- The responses to requests, each with whether it was a `HEAD`, and what
follows them. -/
def readResponses : List Bool → Bytes → Option (List Message × Bytes)
  | [], s => some ([], s)
  | h :: hs, s => do
    let (m, t) ← readResponse h s
    let (ms, u) ← readResponses hs t
    return (m :: ms, u)

/-! ### Writing -/

def statusLine (status : ℕ) (reason : Bytes) : Bytes :=
  ascii "HTTP/1.1 " ++ (decimal status ++ (byte ' ' :: reason))

def fieldLine (f : Bytes × Bytes) : Bytes := f.1 ++ (ascii ": " ++ f.2)

/-- The lines of the fields, and the empty line. -/
def fieldLines : List (Bytes × Bytes) → Bytes
  | [] => crlf
  | f :: fs => fieldLine f ++ (crlf ++ fieldLines fs)

/-- A field whose name and value stay within its line. -/
def IsField (f : Bytes × Bytes) : Prop := f.1 ≠ [] ∧ Calm f.1 ∧ byte ':' ∉ f.1 ∧ Calm f.2

/-- The head of a response. -/
structure Head where
  status : ℕ
  reason : Bytes
  fields : List (Bytes × Bytes)
  calm_reason : Calm reason
  isField : ∀ f ∈ fields, IsField f

def Head.text (h : Head) : Bytes := statusLine h.status h.reason ++ (crlf ++ fieldLines h.fields)

/-! ### Reading what was written -/

theorem cutLine_calm : ∀ {l : Bytes}, Calm l → ∀ s, cutLine (l ++ (crlf ++ s)) = some (l, s)
  | [], _, s => rfl
  | [c], h, s => by
    have hc := (calm_cons.mp h).1
    have hne : ¬ (c = byte '\r' ∧ byte '\r' = byte '\n') := fun e => absurd e.2 (by decide)
    show cutLine (c :: byte '\r' :: (byte '\n' :: s)) = _
    rw [cutLine, if_neg hne]
    rfl
  | c :: d :: l, h, s => by
    obtain ⟨hc, hl⟩ := calm_cons.mp h
    have hne : ¬ (c = byte '\r' ∧ d = byte '\n') := by
      rintro ⟨rfl, -⟩
      exact absurd hc (by decide)
    have ih := cutLine_calm hl s
    show cutLine (c :: d :: (l ++ (crlf ++ s))) = _
    rw [cutLine, if_neg hne]
    rw [List.cons_append] at ih
    rw [ih]
    rfl

theorem trim_cons {b : UInt8} (hb : isOws b = true) (s : Bytes) : trim (b :: s) = trim s := by
  rw [trim, List.dropWhile_cons, if_pos hb, trim]

theorem parseField_line {f : Bytes × Bytes} (h : IsField f) :
    parseField (fieldLine f) = some (f.1, trim f.2) := by
  obtain ⟨-, -, hcolon, -⟩ := h
  have hne : ∀ b ∈ f.1, decide (b ≠ byte ':') = true := fun b hb =>
    decide_eq_true fun e => hcolon (e ▸ hb)
  have hd : (fieldLine f).dropWhile (· ≠ byte ':') = byte ':' :: byte ' ' :: f.2 := by
    rw [fieldLine, List.dropWhile_append_of_pos hne]
    rfl
  have ht : (fieldLine f).takeWhile (· ≠ byte ':') = f.1 := by
    rw [fieldLine, List.takeWhile_append_of_pos hne]
    exact List.append_nil _
  rw [parseField, hd, ht]
  show some (f.1, trim (byte ' ' :: f.2)) = _
  rw [trim_cons (by decide)]

theorem calm_fieldLine {f : Bytes × Bytes} (h : IsField f) : Calm (fieldLine f) := by
  obtain ⟨-, h1, -, h2⟩ := h
  rw [fieldLine, calm_append, calm_append]
  exact ⟨h1, calm_of_all (by decide), h2⟩

theorem cutFields_lines : ∀ {fs : List (Bytes × Bytes)}, (∀ f ∈ fs, IsField f) → ∀ (n : ℕ) (s : Bytes),
    fs.length < n → cutFields n (fieldLines fs ++ s) = some (fs.map fun f => (f.1, trim f.2), s)
  | [], _, n, s, hn => by
    obtain ⟨n, rfl⟩ := Nat.exists_eq_succ_of_ne_zero (Nat.ne_of_gt hn)
    rfl
  | f :: fs, h, n, s, hn => by
    obtain ⟨n, rfl⟩ := Nat.exists_eq_succ_of_ne_zero (Nat.ne_of_gt (Nat.zero_lt_of_lt hn))
    have hf := h f List.mem_cons_self
    have ih := cutFields_lines (fun g hg => h g (List.mem_cons_of_mem _ hg)) n s
      (Nat.lt_of_succ_lt_succ hn)
    have hl : fieldLine f ≠ [] := by
      rw [fieldLine]
      exact List.append_ne_nil_of_left_ne_nil hf.1 _
    have hcut : cutLine (fieldLines (f :: fs) ++ s) = some (fieldLine f, fieldLines fs ++ s) := by
      rw [fieldLines, List.append_assoc, List.append_assoc, cutLine_calm (calm_fieldLine hf)]
    rw [cutFields, hcut]
    simp only [Option.bind_eq_bind, Option.bind_some, if_neg hl, parseField_line hf, ih]
    rfl

theorem length_fieldLines : ∀ fs : List (Bytes × Bytes), fs.length < (fieldLines fs).length
  | [] => by decide
  | f :: fs => by
    have ih := length_fieldLines fs
    rw [fieldLines, List.length_append, List.length_append, List.length_cons]
    have : crlf.length = 2 := by decide
    omega

theorem parseStatus_line (status : ℕ) (reason : Bytes) :
    parseStatus (statusLine status reason) = some status := by
  have hpre : ascii "HTTP/1.1 " <+: statusLine status reason := List.prefix_append _ _
  have hdrop : (statusLine status reason).drop 9 = decimal status ++ (byte ' ' :: reason) := by
    exact List.drop_left' (by decide)
  have hdig : ∀ b ∈ decimal status, decide (b ≠ byte ' ') = true := by
    intro b hb
    have hne : ∀ b : UInt8, isDecimal b = true → decide (b ≠ byte ' ') = true := by decide +kernel
    exact hne b (mem_decimal hb)
  have ht : (decimal status ++ (byte ' ' :: reason)).takeWhile (· ≠ byte ' ') = decimal status := by
    rw [List.takeWhile_append_of_pos hdig]
    exact List.append_nil _
  rw [parseStatus, if_pos hpre, hdrop, ht, parseDecimal_decimal]

theorem calm_statusLine {reason : Bytes} (h : Calm reason) (status : ℕ) :
    Calm (statusLine status reason) := by
  rw [statusLine, calm_append, calm_append, calm_cons]
  exact ⟨calm_of_all (by decide), calm_decimal status, by decide, h⟩

/-- A response reads back as its head and as many bytes as its length says,
whatever follows. -/
theorem readResponse_head (h : Head) (isHead : Bool) {n : ℕ}
    (hn : bodyLength isHead h.status (h.fields.map fun f => (f.1, trim f.2)) = some n) {s : Bytes}
    (hs : n ≤ s.length) :
    readResponse isHead (h.text ++ s) = some (⟨h.status, h.text ++ s.take n⟩, s.drop n) := by
  have hline : cutLine (h.text ++ s) = some (statusLine h.status h.reason, fieldLines h.fields ++ s) := by
    rw [Head.text, List.append_assoc, List.append_assoc, cutLine_calm (calm_statusLine h.calm_reason _)]
  have hlen := length_fieldLines h.fields
  have hfields := cutFields_lines h.isField ((fieldLines h.fields ++ s).length + 1) s (by
    rw [List.length_append]
    omega)
  have htake : (h.text ++ s).take ((h.text ++ s).length - (s.length - n)) = h.text ++ s.take n := by
    have e : (h.text ++ s).length - (s.length - n) = h.text.length + n := by
      rw [List.length_append]
      omega
    rw [e, List.take_length_add_append]
  unfold readResponse
  rw [hline]
  simp only [Option.bind_eq_bind, Option.bind_some, parseStatus_line, hfields, hn,
    if_neg (Nat.not_lt.mpr hs), htake]
  rfl

/-! ### The length of the body -/

theorem trim_decimal (n : ℕ) : trim (decimal n) = decimal n := by
  have hows : ∀ b : UInt8, isDecimal b = true → ¬ isOws b = true := by decide +kernel
  have h : ∀ b ∈ decimal n, ¬ isOws b = true := fun b hb => hows b (mem_decimal hb)
  rw [trim, List.dropWhile_eq_self_iff.mpr fun hl => h _ (List.getElem_mem _),
    List.rdropWhile_eq_self_iff.mpr fun hl => h _ (List.getLast_mem _)]

theorem filter_named_trim (name : String) (fs : List (Bytes × Bytes)) :
    (fs.map fun f => (f.1, trim f.2)).filter (Named name ·) =
      (fs.filter (Named name ·)).map fun f => (f.1, trim f.2) := by
  rw [List.filter_map]
  rfl

/-- One `Content-Length` and no `Transfer-Encoding` give the length. -/
theorem contentLength_decimal {fs : List (Bytes × Bytes)} {k : Bytes} {n : ℕ}
    (hl : fs.filter (Named "content-length" ·) = [(k, decimal n)])
    (ht : fs.filter (Named "transfer-encoding" ·) = []) :
    contentLength (fs.map fun f => (f.1, trim f.2)) = some n := by
  unfold contentLength
  rw [filter_named_trim, filter_named_trim, hl, ht]
  show parseDecimal (trim (decimal n)) = some n
  rw [trim_decimal, parseDecimal_decimal]

/-! ### A run of responses -/

/-- A client reads one response to each request, with this status and these
bytes, and nothing is left. -/
def Framed (status : ℕ) (response : Bytes) (heads : List Bool) (out : Bytes) : Prop :=
  readResponses heads out = some (List.replicate heads.length ⟨status, response⟩, [])

theorem framed_nil (status : ℕ) (response : Bytes) : Framed status response [] [] := rfl

/-- If the first response is read as it was written, the others decide. -/
theorem framed_cons {status : ℕ} {response out t : Bytes} {b : Bool} {hs : List Bool}
    (h : readResponse b out = some (⟨status, response⟩, t)) :
    Framed status response (b :: hs) out ↔ Framed status response hs t := by
  unfold Framed
  rw [readResponses, h]
  simp only [Option.bind_eq_bind, Option.bind_some, List.length_cons, List.replicate_succ]
  cases readResponses hs t with
  | none => simp
  | some x =>
    obtain ⟨ms, u⟩ := x
    simp

/-- If the first response is read as something else, none of it counts. -/
theorem not_framed_cons {status : ℕ} {response out t : Bytes} {m : Message} {b : Bool} {hs : List Bool}
    (h : readResponse b out = some (m, t)) (hm : m.text ≠ response) :
    ¬ Framed status response (b :: hs) out := by
  unfold Framed
  rw [readResponses, h]
  simp only [Option.bind_eq_bind, Option.bind_some, List.length_cons, List.replicate_succ]
  cases readResponses hs t with
  | none => simp
  | some x =>
    obtain ⟨ms, u⟩ := x
    simp only [Option.bind_some, Option.pure_def, Option.some.injEq, Prod.mk.injEq, List.cons.injEq]
    rintro ⟨⟨rfl, -⟩, -⟩
    exact hm rfl

/-- Equal responses with a `Content-Length` are framed as they were written
exactly if no body is sent where a client expects none. -/
theorem framed_iff (h : Head) {body : Bytes}
    (hlen : contentLength (h.fields.map fun f => (f.1, trim f.2)) = some body.length) :
    ∀ hs : List Bool, Framed h.status (h.text ++ body) hs
      (List.replicate hs.length (h.text ++ body)).flatten ↔ body = [] ∨ ∀ b ∈ hs, ¬ Bodiless b h.status
  | [] => iff_of_true (framed_nil _ _) (Or.inr fun b hb => absurd hb List.not_mem_nil)
  | b :: hs => by
    have ih := framed_iff h hlen hs
    have hout : (List.replicate (b :: hs).length (h.text ++ body)).flatten =
        h.text ++ (body ++ (List.replicate hs.length (h.text ++ body)).flatten) := by
      rw [List.length_cons, List.replicate_succ, List.flatten_cons, List.append_assoc]
    rw [hout]
    generalize (List.replicate hs.length (h.text ++ body)).flatten = rest at ih ⊢
    by_cases hb : Bodiless b h.status
    · have hread := readResponse_head h b (if_pos hb) (Nat.zero_le (body ++ rest).length)
      rw [List.take_zero, List.drop_zero, List.append_nil] at hread
      by_cases hbody : body = []
      · subst hbody
        rw [List.append_nil] at ih ⊢
        rw [List.nil_append] at hread ⊢
        rw [framed_cons hread, ih]
        exact iff_of_true (Or.inl rfl) (Or.inl rfl)
      · have hm : h.text ≠ h.text ++ body := fun e => hbody (List.self_eq_append_right.mp e)
        apply iff_of_false (not_framed_cons hread hm)
        rintro (e | e)
        · exact hbody e
        · exact e b List.mem_cons_self hb
    · have hn : bodyLength b h.status (h.fields.map fun f => (f.1, trim f.2)) = some body.length :=
        (if_neg hb).trans hlen
      have hread := readResponse_head h b hn (s := body ++ rest) (by rw [List.length_append]; omega)
      rw [List.take_left, List.drop_left] at hread
      rw [framed_cons hread, ih, List.forall_mem_cons]
      exact or_congr_right (and_iff_right hb).symm

end Http1
end Statico
