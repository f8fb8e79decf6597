/-
# Messages in the log

From verbosity 3 on a message is printed as a line, a line for each header and
the body, which ends the log entry. The three kinds of messages differ in
their first line, in how they show a header, and in whether a blank line
follows the headers. Each entry reads back (`readLog`): no data of a message
ends its line, looks like a header, or changes where the body starts
(`log_reads_back`).

Key definitions: `Style`, `prettyMessage`, `Message`, `readLog`.
Key theorems: `readHeaders_lines`, `readSection_body`, `log_reads_back`.
-/
import Statico.Http.Service
import Statico.Lib.Utf8
import Statico.Pretty.Body

namespace Statico
namespace Pretty

open Http Http1 Conn

/-! ### The printers -/

/-- The escape sequences of the terminal. -/
structure Style where
  reversed : Reversed
  /-- Before and after a method in bold and blue. -/
  method : Bytes × Bytes
  /-- Before and after a text in bold. -/
  bold : Bytes × Bytes
  calm : Calm method.1 ∧ Calm method.2 ∧ Calm bold.1 ∧ Calm bold.2

/-- The request of the runtimes with a pre-built response. -/
structure FullRequest where
  method : Option Bytes
  path : Option Bytes
  version : Option ℕ
  headers : List (Bytes × Bytes)
  body : Bytes

def headerLine (h : Bytes × Bytes) : Bytes := h.1 ++ ascii ": " ++ h.2 ++ [byte '\n']

variable (style : Style)

/-- What the printers share: a first line, the headers from verbosity 2 on, and
the body. -/
def prettyMessage (verb : ℕ) (firstLine : Bytes) (headers : List (Bytes × Bytes)) (gap body : Bytes) : Bytes :=
  firstLine ++ [byte '\n'] ++ (if 1 < verb then headers.flatMap headerLine else []) ++ gap ++
    prettyBody (formatBody style.reversed) verb body

/-- A version as `{:?}` formats it. -/
def versionText : Version → Bytes
  | .http09 => ascii "HTTP/0.9"
  | .http10 => ascii "HTTP/1.0"
  | .http11 => ascii "HTTP/1.1"
  | .http2 => ascii "HTTP/2.0"
  | .http3 => ascii "HTTP/3.0"

def FullRequest.firstLine (req : FullRequest) : Bytes :=
  style.method.1 ++ req.method.getD (ascii "UNKNOWN") ++ style.method.2 ++ ascii " " ++ req.path.getD (ascii "/") ++
    ascii " HTTP/1." ++ decimal (req.version.getD 1)

/-- Each value as a string. -/
def FullRequest.shown (req : FullRequest) : List (Bytes × Bytes) :=
  req.headers.map fun h => (h.1, fromUtf8Lossy h.2)

/-- `fmt` of `Pretty<FullRequest>` -/
def prettyFullRequest (verb : ℕ) (req : FullRequest) : Bytes :=
  prettyMessage style verb (req.firstLine style) req.shown [] req.body

/-- `fmt` of `Pretty<HeaderMap>`, a header at a time. -/
def shownHeaders (headers : List (Bytes × Bytes)) : List (Bytes × Bytes) :=
  headers.map fun h => (h.1, (toStr h.2).getD (ascii "<binary>"))

def requestLine (req : HttpRequest) : Bytes :=
  style.method.1 ++ req.method ++ style.method.2 ++ ascii " " ++ req.uri ++ ascii " " ++ versionText req.version

/-- `fmt` of `Pretty<Request>` -/
def prettyRequest (verb : ℕ) (req : HttpRequest) (body : Bytes) : Bytes :=
  prettyMessage style verb (requestLine style req) (shownHeaders req.headers) [byte '\n'] body

/-- A status with its reason. -/
def responseLine (version : Version) (reason : Bytes) (res : HttpResponse) : Bytes :=
  versionText version ++ ascii " " ++ style.bold.1 ++ decimal res.status ++ ascii " " ++ reason ++ style.bold.2

/-- `fmt` of `Pretty<Response>` -/
def prettyResponse (verb : ℕ) (version : Version) (reason : Bytes) (res : HttpResponse) : Bytes :=
  prettyMessage style verb (responseLine style version reason res) (shownHeaders res.headers) [byte '\n'] res.body

/-- The messages that are logged. -/
inductive Message
  | full (req : FullRequest)
  | request (req : HttpRequest) (body : Bytes)
  | response (version : Version) (reason : Bytes) (res : HttpResponse)

namespace Message

def pretty (verb : ℕ) : Message → Bytes
  | full req => prettyFullRequest style verb req
  | request req body => prettyRequest style verb req body
  | response version reason res => prettyResponse style verb version reason res

def firstLine : Message → Bytes
  | full req => req.firstLine style
  | request req _ => requestLine style req
  | response version reason res => responseLine style version reason res

def shown : Message → List (Bytes × Bytes)
  | full req => req.shown
  | request req _ => shownHeaders req.headers
  | response _ _ res => shownHeaders res.headers

def body : Message → Bytes
  | full req => req.body
  | request _ body => body
  | response _ _ res => res.body

/-- What stands between the headers and the body. -/
def gap : Message → Bytes
  | full _ => []
  | request _ _ => [byte '\n']
  | response _ _ _ => [byte '\n']

theorem pretty_eq (verb : ℕ) (m : Message) : m.pretty style verb =
    prettyMessage style verb (m.firstLine style) m.shown m.gap m.body := by
  cases m <;> rfl

/-- The texts of a message are those of a parsed one: no line ends in them, and
a name is not empty and has no colon. -/
def Parsed : Message → Prop
  | full req => Calm (req.method.getD []) ∧ Calm (req.path.getD []) ∧ ∀ h ∈ req.headers, IsField h
  | request req _ => Calm req.method ∧ Calm req.uri ∧ ∀ h ∈ req.headers, IsField h
  | response _ reason res => Calm reason ∧ ∀ h ∈ res.headers, IsField h

end Message

/-! ### The reader -/

/-- The first line, and what follows it. -/
def cutLineFeed (s : Bytes) : Bytes × Bytes :=
  let line := s.takeWhile (· ≠ byte '\n')
  (line, s.drop (line.length + 1))

/-- The headers up to a blank line or the end, and what follows them. -/
def readHeaders : ℕ → Bytes → Option (List (Bytes × Bytes) × Bytes)
  | 0, _ => none
  | _ + 1, [] => some ([], [])
  | n + 1, c :: s =>
    if c = byte '\n' then some ([], c :: s)
    else
      let (line, rest) := cutLineFeed (c :: s)
      let name := line.takeWhile (· ≠ byte ':')
      (readHeaders n rest).map fun (hs, t) => ((name, line.drop (name.length + 2)) :: hs, t)

/-- The body of the section behind the headers. -/
def readSection (verb : ℕ) : Bytes → Option Bytes
  | [] => some []
  | _ :: s => if verb = 3 then unformat style.reversed s else undump s

/-- The first line, the headers and the body of an entry. -/
def readLog (gap : Bytes) (verb : ℕ) (text : Bytes) : Option (Bytes × List (Bytes × Bytes) × Bytes) := do
  let (first, rest) := cutLineFeed text
  let (headers, rest) ← readHeaders (rest.length + 1) rest
  let body ← readSection style verb (rest.drop gap.length)
  return (first, headers, body)

/-! ### Reading back -/

theorem cutLineFeed_calm {l : Bytes} (h : Calm l) (s : Bytes) : cutLineFeed (l ++ byte '\n' :: s) = (l, s) := by
  have hne : ∀ c ∈ l, decide (c ≠ byte '\n') = true := fun c hc => decide_eq_true fun e => by
    have hbreak := h c hc
    rw [e] at hbreak
    exact absurd hbreak (by decide)
  have hline : (l ++ byte '\n' :: s).takeWhile (· ≠ byte '\n') = l := by
    rw [List.takeWhile_append_of_pos hne, List.takeWhile_cons, if_neg (by simp), List.append_nil]
  rw [cutLineFeed]
  simp only [hline]
  rw [← List.singleton_append, ← List.append_assoc, List.drop_left' (by simp)]

/-- The lines of the headers read back, whatever follows that is no header. -/
theorem readHeaders_lines : ∀ {hs : List (Bytes × Bytes)}, (∀ h ∈ hs, IsField h) →
    ∀ {n : ℕ} {t : Bytes}, hs.length < n → (t = [] ∨ t.head? = some (byte '\n')) →
      readHeaders n (hs.flatMap headerLine ++ t) = some (hs, t)
  | _, _, 0, _, hn, _ => absurd hn (Nat.not_lt_zero _)
  | [], _, n + 1, t, _, ht => by
    rcases ht with rfl | ht
    · rfl
    · obtain ⟨u, rfl⟩ := List.head?_eq_some_iff.mp ht
      rw [List.flatMap_nil, List.nil_append, readHeaders, if_pos rfl]
  | h :: hs, hall, n + 1, t, hn, ht => by
    obtain ⟨k, v⟩ := h
    obtain ⟨hne, hk, hcolon, hv⟩ := hall (k, v) List.mem_cons_self
    have ih := readHeaders_lines (fun h hh => hall h (List.mem_cons_of_mem _ hh)) (Nat.lt_of_succ_lt_succ hn) ht
    have hsep : Calm (ascii ": ") := calm_of_all (by decide)
    have hline : Calm (k ++ ascii ": " ++ v) := calm_append.mpr ⟨calm_append.mpr ⟨hk, hsep⟩, hv⟩
    have htext : ((k, v) :: hs).flatMap headerLine ++ t =
        (k ++ ascii ": " ++ v) ++ byte '\n' :: (hs.flatMap headerLine ++ t) := by
      rw [List.flatMap_cons, headerLine]
      simp only [List.append_assoc, List.cons_append, List.nil_append]
    have hcut := cutLineFeed_calm hline (hs.flatMap headerLine ++ t)
    have hname : (k ++ ascii ": " ++ v).takeWhile (· ≠ byte ':') = k := by
      have hpos : ∀ c ∈ k, decide (c ≠ byte ':') = true := fun c hc => decide_eq_true fun e => hcolon (e ▸ hc)
      have hcons : ascii ": " ++ v = byte ':' :: (byte ' ' :: v) := rfl
      rw [List.append_assoc, List.takeWhile_append_of_pos hpos, hcons, List.takeWhile_cons, if_neg (by simp),
        List.append_nil]
    have hvalue : (k ++ ascii ": " ++ v).drop (k.length + 2) = v := by
      apply List.drop_left'
      rw [List.length_append]
      rfl
    obtain ⟨c, k', rfl⟩ := List.exists_cons_of_ne_nil hne
    have hc : c ≠ byte '\n' := fun e => by
      have hbreak := hk c List.mem_cons_self
      rw [e] at hbreak
      exact absurd hbreak (by decide)
    rw [htext]
    have hstart : (c :: k' ++ ascii ": " ++ v) ++ byte '\n' :: (hs.flatMap headerLine ++ t) =
        c :: ((k' ++ ascii ": " ++ v) ++ byte '\n' :: (hs.flatMap headerLine ++ t)) := rfl
    rw [hstart, readHeaders, if_neg hc, ← hstart, hcut]
    simp only [hname, hvalue, ih, Option.map_some]

/-- The section of the body, at verbosity 3 and above. -/
theorem readSection_body {verb : ℕ} (hv : 2 < verb) {body : Bytes} (hlen : 3 < verb → body.length < 2 ^ 32) :
    readSection style verb (prettyBody (formatBody style.reversed) verb body) = some body := by
  rw [prettyBody]
  by_cases hb : body = []
  · rw [if_neg fun h => h.2 hb, hb]
    rfl
  · rw [if_pos ⟨hv, hb⟩]
    by_cases h3 : verb = 3
    · rw [if_pos h3, readSection, if_pos h3, unformat_formatBody]
    · rw [if_neg h3, readSection, if_neg h3, undump_hexdump (hlen (by omega))]

theorem prettyMessage_reads {verb : ℕ} (hv : 2 < verb) {firstLine : Bytes} (hfirst : Calm firstLine)
    {headers : List (Bytes × Bytes)} (hh : ∀ h ∈ headers, IsField h) {gap body : Bytes}
    (hgap : gap = [] ∨ gap = [byte '\n']) (hlen : 3 < verb → body.length < 2 ^ 32) :
    readLog style gap verb (prettyMessage style verb firstLine headers gap body) =
      some (firstLine, headers, body) := by
  set rest := gap ++ prettyBody (formatBody style.reversed) verb body with hrest
  have htext : prettyMessage style verb firstLine headers gap body =
      firstLine ++ byte '\n' :: (headers.flatMap headerLine ++ rest) := by
    rw [prettyMessage, if_pos (by omega), hrest]
    simp only [List.append_assoc, List.cons_append, List.nil_append]
  have hend : rest = [] ∨ rest.head? = some (byte '\n') := by
    rcases hgap with rfl | rfl
    · rw [hrest, List.nil_append, prettyBody]
      by_cases hb : 2 < verb ∧ body ≠ []
      · rw [if_pos hb]
        exact Or.inr rfl
      · rw [if_neg hb]
        exact Or.inl rfl
    · exact Or.inr rfl
  have hfuel : headers.length < (headers.flatMap headerLine ++ rest).length + 1 := by
    have hle : headers.length ≤ (headers.flatMap headerLine).length := by
      clear hh hend hrest htext
      induction headers with
      | nil => exact Nat.le_refl 0
      | cons h hs ih =>
        rw [List.flatMap_cons, List.length_append, List.length_cons, headerLine, List.length_append]
        simp only [List.length_singleton]
        omega
    rw [List.length_append]
    omega
  rw [readLog, htext, cutLineFeed_calm hfirst]
  simp only [readHeaders_lines hh hfuel hend, Option.bind_eq_bind, Option.bind_some]
  rw [hrest, List.drop_left, readSection_body style hv hlen]
  rfl

section Parsed

variable {style} {m : Message}

theorem calm_versionText (version : Version) : Calm (versionText version) := by
  cases version <;> exact calm_of_all (by decide)

theorem calm_getD {o : Option Bytes} {d : Bytes} (h : Calm (o.getD [])) (hd : Calm d) : Calm (o.getD d) := by
  cases o with
  | none => exact hd
  | some s => exact h

theorem calm_firstLine (hm : m.Parsed) : Calm (m.firstLine style) := by
  obtain ⟨h1, h2, h3, h4⟩ := style.calm
  have hspace : Calm (ascii " ") := calm_of_all (by decide)
  cases m with
  | full req =>
    have hmethod : Calm (req.method.getD (ascii "UNKNOWN")) := calm_getD hm.1 (calm_of_all (by decide))
    have hpath : Calm (req.path.getD (ascii "/")) := calm_getD hm.2.1 (calm_of_all (by decide))
    have hversion : Calm (ascii " HTTP/1.") := calm_of_all (by decide)
    simp only [Message.firstLine, FullRequest.firstLine, calm_append]
    exact ⟨⟨⟨⟨⟨⟨h1, hmethod⟩, h2⟩, hspace⟩, hpath⟩, hversion⟩, calm_decimal _⟩
  | request req body =>
    simp only [Message.firstLine, requestLine, calm_append]
    exact ⟨⟨⟨⟨⟨⟨h1, hm.1⟩, h2⟩, hspace⟩, hm.2.1⟩, hspace⟩, calm_versionText _⟩
  | response version reason res =>
    simp only [Message.firstLine, responseLine, calm_append]
    exact ⟨⟨⟨⟨⟨⟨calm_versionText _, hspace⟩, h3⟩, calm_decimal _⟩, hspace⟩, hm.1⟩, h4⟩

theorem isField_shown (hm : m.Parsed) : ∀ h ∈ m.shown, IsField h := by
  have hstr : ∀ v, Calm v → Calm ((toStr v).getD (ascii "<binary>")) := by
    intro v hv
    unfold toStr
    split_ifs
    · exact hv
    · exact calm_of_all (by decide)
  have hmap : ∀ {f : Bytes → Bytes} {hs : List (Bytes × Bytes)}, (∀ v, Calm v → Calm (f v)) →
      (∀ h ∈ hs, IsField h) → ∀ h ∈ hs.map fun h => (h.1, f h.2), IsField h := by
    intro f hs hf hall h hh
    obtain ⟨⟨k, v⟩, hkv, rfl⟩ := List.mem_map.mp hh
    obtain ⟨hne, hk, hcolon, hv⟩ := hall _ hkv
    exact ⟨hne, hk, hcolon, hf v hv⟩
  cases m with
  | full req => exact hmap (fun v => calm_fromUtf8Lossy) hm.2.2
  | request req body => exact hmap hstr hm.2.2
  | response version reason res => exact hmap hstr hm.2

end Parsed

/-- From verbosity 3 on the entry of a parsed message in the log reads back: its
first line, its headers as they are shown, and its body, below 4 GiB where it
is dumped. So two messages of a kind with the same entry have the same. -/
theorem log_reads_back (style : Style) (verb : ℕ) (hv : 2 < verb) (m : Message) (hm : m.Parsed)
    (hlen : 3 < verb → m.body.length < 2 ^ 32) :
    readLog style m.gap verb (m.pretty style verb) = some (m.firstLine style, m.shown, m.body) ∧
    ∀ m' : Message, m'.Parsed → (3 < verb → m'.body.length < 2 ^ 32) → m'.gap = m.gap →
      m'.pretty style verb = m.pretty style verb →
      m'.firstLine style = m.firstLine style ∧ m'.shown = m.shown ∧ m'.body = m.body := by
  have hgap : ∀ m : Message, m.gap = [] ∨ m.gap = [byte '\n'] := by
    intro m
    cases m
    · exact Or.inl rfl
    · exact Or.inr rfl
    · exact Or.inr rfl
  have hread : ∀ m : Message, m.Parsed → (3 < verb → m.body.length < 2 ^ 32) →
      readLog style m.gap verb (m.pretty style verb) =
        some (m.firstLine style, m.shown, m.body) := by
    intro m hm hlen
    rw [Message.pretty_eq]
    exact prettyMessage_reads style hv (calm_firstLine hm) (isField_shown hm) (hgap m) hlen
  refine ⟨hread m hm hlen, fun m' hm' hlen' hg he => ?_⟩
  have h := hread m' hm' hlen'
  rw [he, hg, hread m hm hlen] at h
  obtain ⟨hfirst, h⟩ := Prod.mk.inj (Option.some.inj h)
  obtain ⟨hshown, hbody⟩ := Prod.mk.inj h
  exact ⟨hfirst.symm, hshown.symm, hbody.symm⟩

/-- The escape sequences of a terminal. -/
def ansi : Style where
  reversed := ansiReversed
  method := (esc :: ascii "[34m" ++ esc :: ascii "[1m", esc :: ascii "[0m" ++ esc :: ascii "[39m")
  bold := (esc :: ascii "[1m", esc :: ascii "[0m")
  calm := ⟨calm_of_all (by decide), calm_of_all (by decide), calm_of_all (by decide), calm_of_all (by decide)⟩

/-- A body that looks like a header and more. -/
theorem log_reads_back_post :
    readLog ansi [byte '\n'] 3 (prettyRequest ansi 3 ⟨ascii "POST", ascii "/", .http11,
        [(ascii "host", ascii "a")]⟩ (ascii "x: y\n\n\t" ++ [0])) =
      some (requestLine ansi ⟨ascii "POST", ascii "/", .http11, [(ascii "host", ascii "a")]⟩,
        [(ascii "host", ascii "a")], ascii "x: y\n\n\t" ++ [0]) :=
  (log_reads_back ansi 3 (by decide)
    (.request ⟨ascii "POST", ascii "/", .http11, [(ascii "host", ascii "a")]⟩ (ascii "x: y\n\n\t" ++ [0]))
    ⟨calm_of_all (by decide), calm_of_all (by decide), by
      intro h hh
      rw [List.mem_singleton.mp hh]
      exact ⟨by decide, calm_of_all (by decide), by decide, calm_of_all (by decide)⟩⟩
    fun h => absurd h (by decide)).1

end Pretty
end Statico
