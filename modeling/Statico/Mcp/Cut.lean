/-
# The scanners, on what is left of the body

A position in a body is known by the bytes from there on. Each scanner of
`Mcp.Scanner` and `Mcp.Rpc` is restated here on that suffix: `cutNested`,
`cutValue`, `cutObject` and the four members. They return the rest of the
text where the source returns a position (`At body i s`: the text from
position `i` is `s`), and need no slices: `consumed` is what lies between.

Key definitions: `At`, `cutNested`, `cutValue`, `cutObject`.
Key theorems: `cutObjectStep_eq`, `parseRpc_eq`, `findProtocolVersion_eq`,
`findRawValue_eq`, `findCallTarget_eq`.
-/
import Statico.Lib.Json.Brackets
import Statico.Mcp.Dispatch

namespace Statico
namespace Mcp

open Json

/-! ### Suffix scanners -/

/-- The first byte and the rest. -/
def uncons : Bytes → Scan (UInt8 × Bytes)
  | [] => .fail
  | c :: s => .ok (c, s)

@[simp] theorem uncons_cons (c : UInt8) (s : Bytes) : uncons (c :: s) = .ok (c, s) := rfl

/-- A quoted string: its content and what follows. -/
def cutQuoted (s : Bytes) : Scan (Bytes × Bytes) := do
  let (c, s) ← uncons s
  if c ≠ byte '"' then .fail else .ofOption (cutString s)

/-- The rest after the bracket at which `skip_value` stops, `d` brackets deep. -/
def cutNested (p : Profile) (close : UInt8) (d : ℕ) (s : Bytes) : Scan Bytes :=
  match s with
  | [] => .fail
  | c :: s =>
    if c = byte '"' then
      match h : cutString s with
      | some (_, t) => have := length_cutString h; cutNested p close d t
      | none => .fail
    else if c = byte '{' ∨ c = byte '[' then do
      let d ← p.incr d
      cutNested p close d s
    else if c = byte '}' ∨ c = byte ']' then do
      let d ← p.decr d
      if c = close ∧ d = 0 then return s else cutNested p close d s
    else cutNested p close d s
termination_by s.length
decreasing_by
  · simp only [List.length_cons]
    omega
  all_goals simp

/-- The rest after one value. -/
def cutValue (p : Profile) (s : Bytes) : Scan Bytes := do
  let s := dropBlank s
  let (c, t) ← uncons s
  if c = byte '"' then
    let (_, t) ← Scan.ofOption (cutString t)
    return t
  else if c = byte '{' ∨ c = byte '[' then cutNested p (closer c) 1 t
  else return s.dropWhile (!Json.isDelim ·)

/-- `cutValue` on a text that starts with no white space. -/
theorem cutValue_cons (p : Profile) {c : UInt8} (hc : isBlank c = false) (t : Bytes) :
    cutValue p (c :: t) =
      if c = byte '"' then (Scan.ofOption (cutString t) >>= fun x => .ok x.2)
      else if c = byte '{' ∨ c = byte '[' then cutNested p (closer c) 1 t
      else .ok ((c :: t).dropWhile (!Json.isDelim ·)) := by
  unfold cutValue
  rw [dropBlank_solid (solid_cons.mpr hc)]
  rfl

/-- White space before a value makes no difference. -/
theorem cutValue_blank (p : Profile) {w s : Bytes} (hw : Blank w) (hs : Solid s) :
    cutValue p (w ++ s) = cutValue p s := by
  unfold cutValue
  rw [dropBlank_eq hw hs, dropBlank_solid hs]

/-- What lies between a text and a suffix of it. -/
def consumed (s t : Bytes) : Bytes := s.take (s.length - t.length)

section Object

variable {σ α : Type}

def cutObjectStep (member : σ → Bytes → Bytes → Scan (Step (σ × Bytes) α)) (close : σ → Scan α)
    (x : σ × Bytes) : Scan (Step (σ × Bytes) α) := do
  let (st, s) := x
  let s := dropBlank s
  let (c, _) ← uncons s
  if c = byte '}' then
    return .done (← close st)
  else
    let (key, s) ← cutQuoted s
    let (c, s) ← uncons (dropBlank s)
    if c ≠ byte ':' then .fail
    else
      match ← member st key (dropBlank s) with
      | .done a => return .done a
      | .next (st, s) =>
        let (c, s) ← uncons (dropBlank s)
        if c = byte ',' then return .next (st, s)
        else if c = byte '}' then return .done (← close st)
        else .fail

def cutObject (body : Bytes) (member : σ → Bytes → Bytes → Scan (Step (σ × Bytes) α))
    (close : σ → Scan α) (st : σ) : Scan α := do
  let (c, s) ← uncons (dropBlank body)
  if c ≠ byte '{' then .fail
  else loop (cutObjectStep member close) (body.length + 1) (st, s)

/-- The key of a member and the text from its value on; nothing at the closing
brace. -/
def cutKey (s : Bytes) : Scan (Option (Bytes × Bytes)) := do
  let s := dropBlank s
  let (c, _) ← uncons s
  if c = byte '}' then return none
  else
    let (key, s) ← cutQuoted s
    let (c, s) ← uncons (dropBlank s)
    if c ≠ byte ':' then .fail else return some (key, dropBlank s)

/-- What follows the comma after a value; nothing at the closing brace. -/
def cutSep (s : Bytes) : Scan (Option Bytes) := do
  let (c, s) ← uncons (dropBlank s)
  if c = byte ',' then return some s
  else if c = byte '}' then return none
  else .fail

/-- One turn: a key, the member's own work, and what separates it from the next. -/
theorem cutObjectStep_eq (member : σ → Bytes → Bytes → Scan (Step (σ × Bytes) α))
    (close : σ → Scan α) (st : σ) (s : Bytes) : cutObjectStep member close (st, s) =
      (cutKey s >>= fun
        | none => close st >>= fun a => .ok (.done a)
        | some (k, v) => member st k v >>= fun
          | .done a => .ok (.done a)
          | .next (st', t) => cutSep t >>= fun
            | none => close st' >>= fun a => .ok (.done a)
            | some r => .ok (.next (st', r))) := by
  unfold cutObjectStep cutKey
  simp only [bind_assoc]
  apply congrArg
  funext x
  by_cases h1 : x.1 = byte '}'
  · simp only [if_pos h1]
    rfl
  · simp only [if_neg h1, bind_assoc]
    apply congrArg
    funext y
    apply congrArg
    funext z
    by_cases h2 : z.1 = byte ':'
    · simp only [h2, ne_eq, not_true_eq_false, if_false, Scan.pure_def, Scan.ok_bind]
      apply congrArg
      funext r
      cases r with
      | done a => rfl
      | next y =>
        unfold cutSep
        simp only [bind_assoc]
        apply congrArg
        funext v
        split_ifs <;> rfl
    · simp only [ne_eq, h2, not_false_eq_true, if_true]
      rfl

end Object

def cutRpcMember (p : Profile) (rpc : Rpc) (key s : Bytes) : Scan (Step (Rpc × Bytes) Rpc) := do
  if key = ascii "method" then
    let (m, t) ← cutQuoted s
    return .next ({ rpc with method := some m }, t)
  else if key = ascii "id" then
    let (c, _) ← uncons s
    if c = byte '"' then
      let (r, t) ← cutQuoted s
      return .next ({ rpc with idRaw := some (quoted r) }, t)
    else
      let token := s.takeWhile (!Json.isDelim ·)
      if token = [] then .fail
      else return .next ({ rpc with idRaw := some token }, s.dropWhile (!Json.isDelim ·))
  else if key = ascii "params" then
    let t ← cutValue p s
    return .next ({ rpc with paramsRaw := some (consumed s t) }, t)
  else
    let t ← cutValue p s
    return .next (rpc, t)

def cutVersionMember (p : Profile) (_ : Unit) (key s : Bytes) : Scan (Step (Unit × Bytes) Bytes) := do
  if key = ascii "protocolVersion" then
    let (v, _) ← cutQuoted s
    return .done v
  else
    let t ← cutValue p s
    return .next ((), t)

def cutRawMember (p : Profile) (wanted : Bytes) (_ : Unit) (key s : Bytes) :
    Scan (Step (Unit × Bytes) Bytes) := do
  let t ← cutValue p s
  if key = wanted then return .done (consumed s t)
  else return .next ((), t)

def cutTargetMember (p : Profile) (st : Option Bytes × Option Bytes) (key s : Bytes) :
    Scan (Step ((Option Bytes × Option Bytes) × Bytes) (Bytes × Option Bytes)) := do
  let (name, arguments) := st
  let t ← cutValue p s
  if key = ascii "name" then return .next ((some (consumed s t), arguments), t)
  else if key = ascii "arguments" then return .next ((name, some (consumed s t)), t)
  else return .next ((name, arguments), t)

/-! ### Positions and suffixes -/

/-- The text from position `i` of `body` is `s`. -/
def At (body : Bytes) (i : ℕ) (s : Bytes) : Prop := i ≤ body.length ∧ body.drop i = s

theorem at_zero (body : Bytes) : At body 0 body := ⟨Nat.zero_le _, rfl⟩

namespace At

variable {body s t u : Bytes} {i j : ℕ} {c : UInt8}

theorem length (h : At body i s) : i + s.length = body.length := by
  rw [← h.2, List.length_drop]
  have := h.1
  omega

theorem unique (h : At body i s) (h' : At body j s) : i = j := by
  have := h.length
  have := h'.length
  omega

theorem append (h : At body i (u ++ t)) : At body (i + u.length) t := by
  have hl := h.length
  rw [List.length_append] at hl
  refine ⟨by omega, ?_⟩
  rw [← List.drop_drop, h.2, List.drop_left]

theorem succ (h : At body i (c :: s)) : At body (i + 1) s := append (u := [c]) h

theorem split (u s : Bytes) : At (u ++ s) u.length s := by
  have := append (at_zero (u ++ s))
  rwa [Nat.zero_add] at this

theorem lt (h : At body i (c :: s)) : i < body.length := by
  have := h.length
  rw [List.length_cons] at this
  omega

theorem getElem? (h : At body i s) : body[i]? = s.head? := by
  rw [← h.2, List.head?_drop]

theorem getElem (h : At body i (c :: s)) (hi : i < body.length) : body[i] = c := by
  have := h.getElem?
  rw [List.getElem?_eq_getElem hi] at this
  simpa using this

theorem nil (h : At body i []) : ¬ i < body.length := by
  have := h.length
  rw [List.length_nil] at this
  omega

theorem get (h : At body i s) :
    Scan.Rel (fun c x => x.1 = c ∧ s = c :: x.2) (Mcp.get body i) (uncons s) := by
  unfold Mcp.get
  rw [h.getElem?]
  cases s with
  | nil => exact .fail
  | cons c s => exact .ok ⟨rfl, rfl⟩

theorem slice (h : At body i (u ++ t)) (h' : At body j t) : Mcp.slice body i j = .ok u := by
  obtain rfl := h'.unique h.append
  unfold Mcp.slice
  have hl := h'.1
  rw [if_pos ⟨by omega, hl⟩, Nat.add_sub_cancel_left, h.2, List.take_left]

end At

/-! ### The scanners agree -/

theorem isWs_eq : isWs = isBlank := rfl

theorem isDelim_eq : isDelim = Json.isDelim := rfl

theorem skipWs_at {body : Bytes} : ∀ {s : Bytes} {i : ℕ}, At body i s →
    At body (skipWs body i) (dropBlank s)
  | [], i, h => by
    rw [skipWs, dif_neg h.nil]
    exact h
  | c :: s, i, h => by
    rw [skipWs, dif_pos h.lt, h.getElem, isWs_eq, dropBlank, List.dropWhile_cons]
    by_cases hc : isBlank c = true
    · rw [if_pos hc, if_pos hc]
      exact skipWs_at h.succ
    · rw [if_neg hc, if_neg hc]
      exact h

theorem tokenEnd_at {body : Bytes} : ∀ {s : Bytes} {i : ℕ}, At body i s →
    At body (tokenEnd body i) (s.dropWhile (!Json.isDelim ·))
  | [], i, h => by
    rw [tokenEnd, dif_neg h.nil]
    exact h
  | c :: s, i, h => by
    rw [tokenEnd, dif_pos h.lt, h.getElem, isDelim_eq, List.dropWhile_cons]
    by_cases hc : Json.isDelim c = true
    · rw [if_pos hc, if_neg (by simp [hc])]
      exact h
    · rw [if_neg hc, if_pos (by simpa using hc)]
      exact tokenEnd_at h.succ

theorem closingQuote_at {body : Bytes} : ∀ {s : Bytes} {i : ℕ}, At body i s →
    Scan.Rel (fun j x => j = i + x.1.length) (closingQuote body i) (.ofOption (cutString s))
  | [], i, h => by
    rw [closingQuote, dif_neg h.nil]
    exact .fail
  | [c], i, h => by
    rw [closingQuote, dif_pos h.lt, h.getElem]
    by_cases h1 : c = byte '\\'
    · have hl := h.succ.length
      rw [List.length_nil] at hl
      rw [if_pos h1, closingQuote, dif_neg (by omega), cutString, if_neg (by rw [h1]; decide)]
      exact .fail
    · rw [if_neg h1]
      by_cases h2 : c = byte '"'
      · rw [if_pos h2, cutString, if_pos h2]
        exact .ok rfl
      · rw [if_neg h2, closingQuote, dif_neg h.succ.nil, cutString, if_neg h2]
        exact .fail
  | c :: d :: s, i, h => by
    rw [closingQuote, dif_pos h.lt, h.getElem]
    by_cases h1 : c = byte '\\'
    · rw [if_pos h1, h1, cutString_escape]
      apply (closingQuote_at h.succ.succ).map_option
      intro j x hj
      simp only [List.length_cons]
      omega
    · rw [if_neg h1]
      by_cases h2 : c = byte '"'
      · rw [if_pos h2, h2, cutString_quote]
        exact .ok rfl
      · rw [if_neg h2, cutString_char h1 h2]
        apply (closingQuote_at h.succ).map_option
        intro j x hj
        simp only [List.length_cons]
        omega

/-- `parse_string` returns the bounds of the string `cutQuoted` cuts off. -/
theorem parseString_at {body s : Bytes} {i : ℕ} (h : At body i s) :
    Scan.Rel (fun a x => a = (i + 1, i + 1 + x.1.length, i + 1 + x.1.length + 1) ∧
      s = quoted x.1 ++ x.2) (parseString body i) (cutQuoted s) := by
  unfold parseString cutQuoted
  refine h.get.bind fun c ⟨c', t⟩ ⟨hc, hs⟩ => ?_
  obtain rfl : c' = c := hc
  by_cases hq : c' = byte '"'
  · simp only [hq, ne_eq, not_true_eq_false, if_false]
    subst hs
    have hcq := closingQuote_at h.succ
    cases ht : cutString t with
    | none =>
      rw [ht] at hcq
      generalize closingQuote body (i + 1) = y at hcq
      cases hcq
      exact .fail
    | some x =>
      rw [ht] at hcq
      generalize closingQuote body (i + 1) = y at hcq
      cases hcq with
      | ok e =>
        obtain ⟨-, rfl⟩ := cutString_spec t x.1 x.2 ht
        refine .ok ⟨by rw [e], ?_⟩
        rw [hq, quoted]
        simp
  · simp only [ne_eq, hq, not_false_eq_true, if_true]
    exact .fail

/-- `parse_string` returns the slices that `cutQuoted` cuts off. -/
theorem parseString_cut {body s : Bytes} {i : ℕ} (h : At body i s) :
    Scan.Rel (fun a x => At body a.2.2 x.2 ∧ Mcp.slice body a.1 a.2.1 = .ok x.1 ∧
      Mcp.slice body i a.2.2 = .ok (quoted x.1)) (parseString body i) (cutQuoted s) := by
  refine (parseString_at h).mono fun a ⟨r, t⟩ ⟨ha, hs⟩ => ?_
  subst ha
  rw [hs] at h
  have h1 : At body (i + 1) (r ++ (byte '"' :: t)) := by simpa [quoted] using h.succ
  have h2 : At body (i + 1 + r.length + 1) t := h1.append.succ
  exact ⟨h2, h1.slice h1.append, h.slice h2⟩

/-- The position after what was cut off `s` holds the rest `t`. -/
def CutAt (body s : Bytes) (j : ℕ) (t : Bytes) : Prop := At body j t ∧ t <:+ s

theorem CutAt.cons {body s t : Bytes} {c : UInt8} {j : ℕ} (h : CutAt body s j t) :
    CutAt body (c :: s) j t := ⟨h.1, h.2.trans (List.suffix_cons c s)⟩

/-- `parse_string` on a body that `cutString` fails on, or cuts. -/
theorem parseString_quote {body s : Bytes} {i : ℕ} (h : At body i (byte '"' :: s)) :
    match cutString s with
    | none => parseString body i = .fail
    | some (r, t) => parseString body i = .ok (i + 1, i + 1 + r.length, i + 1 + r.length + 1) ∧
        At body (i + 1 + r.length + 1) t := by
  have hp := parseString_at h
  rw [cutQuoted, uncons, Scan.ok_bind] at hp
  simp only [ne_eq, not_true_eq_false, if_false] at hp
  generalize hx : parseString body i = x at hp
  cases hs : cutString s with
  | none =>
    rw [hs] at hp
    cases hp
    rfl
  | some y =>
    obtain ⟨r, t⟩ := y
    rw [hs] at hp
    cases hp with
    | ok e =>
      obtain ⟨rfl, e⟩ := e
      refine ⟨rfl, ?_⟩
      rw [e] at h
      have := h.append
      simp only [quoted, List.length_cons, List.length_append, List.length_nil] at this
      convert this using 1
      omega

theorem skipNested_quote {p : Profile} {body : Bytes} {close : UInt8} {i d : ℕ} (hi : i < body.length)
    (hc : body[i] = byte '"') : skipNested p body close i d =
      (parseString body i >>= fun x => skipNested p body close x.2.2 d) := by
  rw [skipNested, dif_pos hi, if_pos hc]
  split
  · next hs => rw [hs]; rfl
  · next hs => rw [hs]; rfl
  · next hs => rw [hs]; rfl

section Equations

variable {p : Profile} {close c : UInt8} {d : ℕ}

theorem cutNested_nil : cutNested p close d [] = .fail := by rw [cutNested]

theorem cutNested_quote (s : Bytes) : cutNested p close d (byte '"' :: s) =
    (Scan.ofOption (cutString s) >>= fun x => cutNested p close d x.2) := by
  rw [cutNested, if_pos rfl]
  split
  · next hs => simp [hs]
  · next hs => simp [hs]

theorem cutNested_open (hc : c = byte '{' ∨ c = byte '[') (s : Bytes) :
    cutNested p close d (c :: s) = (p.incr d >>= fun d => cutNested p close d s) := by
  rw [cutNested, if_neg (by rcases hc with rfl | rfl <;> decide), if_pos hc]

theorem cutNested_close (hc : c = byte '}' ∨ c = byte ']') (s : Bytes) :
    cutNested p close d (c :: s) =
      (p.decr d >>= fun d => if c = close ∧ d = 0 then .ok s else cutNested p close d s) := by
  rw [cutNested, if_neg (by rcases hc with rfl | rfl <;> decide),
    if_neg (by rcases hc with rfl | rfl <;> decide), if_pos hc]
  rfl

theorem cutNested_other (h1 : c ≠ byte '"') (h2 : ¬ (c = byte '{' ∨ c = byte '['))
    (h3 : ¬ (c = byte '}' ∨ c = byte ']')) (s : Bytes) :
    cutNested p close d (c :: s) = cutNested p close d s := by
  rw [cutNested, if_neg h1, if_neg h2, if_neg h3]

end Equations

theorem skipNested_at {p : Profile} {body : Bytes} {close : UInt8} : ∀ (n : ℕ) {s : Bytes} {i d : ℕ},
    s.length < n → At body i s →
    Scan.Rel (CutAt body s) (skipNested p body close i d) (cutNested p close d s)
  | 0, _, _, _, hn, _ => absurd hn (Nat.not_lt_zero _)
  | n + 1, [], i, d, _, h => by
    rw [skipNested, dif_neg h.nil, cutNested]
    exact .fail
  | n + 1, c :: s, i, d, hn, h => by
    have hs : s.length < n := by simpa using hn
    by_cases h1 : c = byte '"'
    · subst h1
      rw [skipNested_quote h.lt (h.getElem h.lt), cutNested_quote]
      have hp := parseString_quote h
      cases hc : cutString s with
      | none =>
        rw [hc] at hp
        rw [show parseString body i = .fail from hp]
        exact .fail
      | some y =>
        rw [hc] at hp
        have hy := length_cutString hc
        rw [hp.1]
        refine (skipNested_at n (by omega) hp.2).mono fun j t ht => ⟨ht.1, ht.2.trans ?_⟩
        obtain ⟨-, rfl⟩ := cutString_spec s y.1 y.2 hc
        exact ⟨byte '"' :: (y.1 ++ [byte '"']), by simp⟩
    · by_cases h2 : c = byte '{' ∨ c = byte '['
      · rw [skipNested, dif_pos h.lt, h.getElem, if_neg h1, if_pos h2, cutNested_open h2]
        apply (Scan.Rel.refl (p.incr d)).bind
        intro d' _ e
        rw [← e]
        exact (skipNested_at n hs h.succ).mono fun _ _ => CutAt.cons
      · by_cases h3 : c = byte '}' ∨ c = byte ']'
        · rw [skipNested, dif_pos h.lt, h.getElem, if_neg h1, if_neg h2, if_pos h3, cutNested_close h3]
          by_cases h4 : c = close
          · rw [if_pos h4]
            apply (Scan.Rel.refl (p.decr d)).bind
            intro d' _ e
            rw [← e]
            by_cases h5 : d' = 0
            · rw [if_pos h5, if_pos ⟨h4, h5⟩]
              exact .ok ⟨h.succ, List.suffix_cons c s⟩
            · rw [if_neg h5, if_neg fun h => h5 h.2]
              exact (skipNested_at n hs h.succ).mono fun _ _ => CutAt.cons
          · rw [if_neg h4]
            apply (Scan.Rel.refl (p.decr d)).bind
            intro d' _ e
            rw [← e, if_neg fun h => h4 h.1]
            exact (skipNested_at n hs h.succ).mono fun _ _ => CutAt.cons
        · rw [skipNested, dif_pos h.lt, h.getElem, if_neg h1, if_neg h2, if_neg h3,
            cutNested_other h1 h2 h3]
          exact (skipNested_at n hs h.succ).mono fun _ _ => CutAt.cons

/-- `skip_value` returns the position of what `cutValue` leaves. -/
theorem skipValue_at {p : Profile} {body s : Bytes} {i : ℕ} (h : At body i s) :
    Scan.Rel (CutAt body s) (skipValue p body i) (cutValue p s) := by
  unfold skipValue cutValue
  have hw := skipWs_at h
  have hsub : dropBlank s <:+ s := List.dropWhile_suffix _
  refine Scan.Rel.mono (P := CutAt body (dropBlank s)) ?_ fun j t ht => ⟨ht.1, ht.2.trans hsub⟩
  refine hw.get.bind fun c ⟨c', t⟩ ⟨hc, hs⟩ => ?_
  obtain rfl : c' = c := hc
  rw [hs] at hw ⊢
  by_cases h1 : c' = byte '"'
  · subst h1
    simp only [if_true]
    have hp := parseString_quote hw
    cases hc : cutString t with
    | none =>
      rw [hc] at hp
      rw [show parseString body (skipWs body i) = .fail from hp]
      exact .fail
    | some y =>
      rw [hc] at hp
      rw [hp.1]
      refine .ok ⟨hp.2, ?_⟩
      obtain ⟨-, rfl⟩ := cutString_spec t y.1 y.2 hc
      exact ⟨byte '"' :: (y.1 ++ [byte '"']), by simp⟩
  · simp only [if_neg h1]
    by_cases h2 : c' = byte '{' ∨ c' = byte '['
    · simp only [if_pos h2]
      exact (skipNested_at _ (Nat.lt_succ_self _) hw.succ).mono fun _ _ => CutAt.cons
    · simp only [if_neg h2]
      exact .ok ⟨tokenEnd_at hw, List.dropWhile_suffix _⟩

/-- Past the end of the body there is no value. -/
theorem skipValue_beyond (p : Profile) {body : Bytes} {pos : ℕ} (h : ¬ pos ≤ body.length) :
    skipValue p body pos = .fail := by
  have hs : skipWs body pos = pos := by rw [skipWs, dif_neg (by omega)]
  have hg : Mcp.get body pos = .fail := by
    unfold Mcp.get
    rw [List.getElem?_eq_none (by omega)]
    rfl
  unfold skipValue
  simp only [hs, hg, Scan.fail_bind]

theorem consumed_append (u t : Bytes) : consumed (u ++ t) t = u := by
  rw [consumed, List.length_append, Nat.add_sub_cancel, List.take_left]

/-- The slice between two positions is what was consumed between them. -/
theorem CutAt.slice {body s t : Bytes} {i j : ℕ} (h : At body i s) (h' : CutAt body s j t) :
    Mcp.slice body i j = .ok (consumed s t) := by
  obtain ⟨ht, u, rfl⟩ := h'
  rw [consumed_append]
  exact h.slice ht

/-! ### The object loop agrees -/

section Object

variable {σ α : Type}

/-- The state of the loop by position, and by suffix. -/
def Same (body : Bytes) (x : σ × ℕ) (y : σ × Bytes) : Prop := x.1 = y.1 ∧ At body x.2 y.2

variable {body : Bytes} {member : σ → Bytes → ℕ → Scan (Step (σ × ℕ) α)}
  {cutMember : σ → Bytes → Bytes → Scan (Step (σ × Bytes) α)} {close : σ → Scan α}

theorem objectStep_rel
    (hm : ∀ st key i s, At body i s →
      Scan.Rel (Step.Rel (Same body)) (member st key i) (cutMember st key s))
    (x : σ × ℕ) (y : σ × Bytes) (h : Same body x y) :
    Scan.Rel (Step.Rel (Same body)) (objectStep body member close x) (cutObjectStep cutMember close y) := by
  obtain ⟨st, i⟩ := x
  obtain ⟨st', s⟩ := y
  obtain ⟨rfl, h⟩ := h
  unfold objectStep cutObjectStep
  have hw := skipWs_at h
  refine hw.get.bind fun c ⟨c', t⟩ ⟨hc, hs⟩ => ?_
  obtain rfl : c' = c := hc
  by_cases h1 : c' = byte '}'
  · simp only [if_pos h1]
    apply (Scan.Rel.refl (close st)).bind
    intro a b e
    rw [e]
    exact .ok (.done b)
  · simp only [if_neg h1]
    refine (parseString_cut hw).bind fun a ⟨key, u⟩ ⟨hn, hk, _⟩ => ?_
    simp only [hk, Scan.ok_bind]
    have hw2 := skipWs_at hn
    refine hw2.get.bind fun c ⟨c2, t2⟩ ⟨hc, hs2⟩ => ?_
    obtain rfl : c2 = c := hc
    by_cases h3 : c2 ≠ byte ':'
    · simp only [if_pos h3]
      exact .fail
    · simp only [if_neg h3]
      rw [hs2] at hw2
      apply (hm st key _ _ (skipWs_at hw2.succ)).bind
      intro a b hab
      cases hab with
      | done a => exact .ok (.done a)
      | @next x y hxy =>
        obtain ⟨st1, j⟩ := x
        obtain ⟨st2, v⟩ := y
        obtain ⟨rfl, hv⟩ := hxy
        have hw3 := skipWs_at hv
        refine hw3.get.bind fun c ⟨c3, t3⟩ ⟨hc, hs3⟩ => ?_
        obtain rfl : c3 = c := hc
        by_cases h4 : c3 = byte ','
        · simp only [if_pos h4]
          rw [hs3] at hw3
          exact .ok (.next ⟨rfl, hw3.succ⟩)
        · simp only [if_neg h4]
          by_cases h5 : c3 = byte '}'
          · simp only [if_pos h5]
            apply (Scan.Rel.refl (close st1)).bind
            intro a b e
            rw [e]
            exact .ok (.done b)
          · simp only [if_neg h5]
            exact .fail

/-- `scanObject` is `cutObject` when its members agree. -/
theorem scanObject_eq
    (hm : ∀ st key i s, At body i s →
      Scan.Rel (Step.Rel (Same body)) (member st key i) (cutMember st key s)) (st : σ) :
    scanObject body member close st = cutObject body cutMember close st := by
  unfold scanObject cutObject
  have hw := skipWs_at (at_zero body)
  refine Scan.Rel.eq (hw.get.bind fun c ⟨c', t⟩ ⟨hc, hs⟩ => ?_)
  obtain rfl : c' = c := hc
  by_cases h1 : c' ≠ byte '{'
  · simp only [if_pos h1]
    exact .fail
  · simp only [if_neg h1]
    rw [hs] at hw
    rw [loop_rel (objectStep_rel hm) _ (show Same body (st, skipWs body 0 + 1) (st, t) from ⟨rfl, hw.succ⟩)]
    exact .refl _

end Object

section Members

variable {p : Profile} {body : Bytes}

theorem rpcMember_rel (rpc : Rpc) (key : Bytes) (i : ℕ) (s : Bytes) (h : At body i s) :
    Scan.Rel (Step.Rel (Same body)) (rpcMember p body rpc key i) (cutRpcMember p rpc key s) := by
  unfold rpcMember cutRpcMember
  by_cases h1 : key = ascii "method"
  · rw [if_pos h1, if_pos h1]
    refine (parseString_cut h).bind fun a ⟨m, t⟩ ⟨ht, hm, _⟩ => ?_
    simp only [hm, Scan.ok_bind]
    exact .ok (.next ⟨rfl, ht⟩)
  · rw [if_neg h1, if_neg h1]
    by_cases h2 : key = ascii "id"
    · rw [if_pos h2, if_pos h2]
      refine h.get.bind fun c ⟨c', t⟩ ⟨hc, hs⟩ => ?_
      obtain rfl : c' = c := hc
      by_cases h3 : c' = byte '"'
      · simp only [if_pos h3]
        refine (parseString_cut h).bind fun a ⟨r, t⟩ ⟨ht, _, hq⟩ => ?_
        simp only [hq, Scan.ok_bind]
        exact .ok (.next ⟨rfl, ht⟩)
      · simp only [if_neg h3]
        have he := tokenEnd_at h
        have hsplit := List.takeWhile_append_dropWhile (p := (!Json.isDelim ·)) (l := s)
        generalize s.takeWhile (!Json.isDelim ·) = token at hsplit ⊢
        generalize s.dropWhile (!Json.isDelim ·) = rest at hsplit he ⊢
        rw [← hsplit] at h
        have hpos := he.unique h.append
        by_cases h4 : token = []
        · rw [h4, List.length_nil, Nat.add_zero] at hpos
          rw [if_pos hpos.symm, if_pos h4]
          exact .fail
        · have hlen := List.length_pos_iff.mpr h4
          rw [if_neg (by omega), if_neg h4, h.slice he]
          exact .ok (.next ⟨rfl, he⟩)
    · rw [if_neg h2, if_neg h2]
      by_cases h3 : key = ascii "params"
      · rw [if_pos h3, if_pos h3]
        apply (skipValue_at h).bind
        intro j t ht
        simp only [CutAt.slice h ht, Scan.ok_bind]
        exact .ok (.next ⟨rfl, ht.1⟩)
      · rw [if_neg h3, if_neg h3]
        apply (skipValue_at h).bind
        intro j t ht
        exact .ok (.next ⟨rfl, ht.1⟩)

theorem protocolVersionMember_rel (u : Unit) (key : Bytes) (i : ℕ) (s : Bytes) (h : At body i s) :
    Scan.Rel (Step.Rel (Same body)) (protocolVersionMember p body u key i)
      (cutVersionMember p u key s) := by
  unfold protocolVersionMember cutVersionMember
  by_cases h1 : key = ascii "protocolVersion"
  · rw [if_pos h1, if_pos h1]
    refine (parseString_cut h).bind fun a ⟨v, t⟩ ⟨_, hv, _⟩ => ?_
    simp only [hv, Scan.ok_bind]
    exact .ok (.done v)
  · rw [if_neg h1, if_neg h1]
    exact (skipValue_at h).bind fun j t ht => .ok (.next ⟨rfl, ht.1⟩)

theorem rawValueMember_rel (wanted : Bytes) (u : Unit) (key : Bytes) (i : ℕ) (s : Bytes)
    (h : At body i s) : Scan.Rel (Step.Rel (Same body)) (rawValueMember p body wanted u key i)
      (cutRawMember p wanted u key s) := by
  unfold rawValueMember cutRawMember
  apply (skipValue_at h).bind
  intro j t ht
  by_cases h1 : key = wanted
  · simp only [if_pos h1, CutAt.slice h ht, Scan.ok_bind]
    exact .ok (.done _)
  · simp only [if_neg h1]
    exact .ok (.next ⟨rfl, ht.1⟩)

theorem callTargetMember_rel (st : Option Bytes × Option Bytes) (key : Bytes) (i : ℕ) (s : Bytes)
    (h : At body i s) : Scan.Rel (Step.Rel (Same body)) (callTargetMember p body st key i)
      (cutTargetMember p st key s) := by
  unfold callTargetMember cutTargetMember
  apply (skipValue_at h).bind
  intro j t ht
  by_cases h1 : key = ascii "name"
  · simp only [if_pos h1, CutAt.slice h ht, Scan.ok_bind]
    exact .ok (.next ⟨rfl, ht.1⟩)
  · simp only [if_neg h1]
    by_cases h2 : key = ascii "arguments"
    · simp only [if_pos h2, CutAt.slice h ht, Scan.ok_bind]
      exact .ok (.next ⟨rfl, ht.1⟩)
    · simp only [if_neg h2]
      exact .ok (.next ⟨rfl, ht.1⟩)

end Members

/-! ### The four object scanners, on suffixes -/

theorem parseRpc_eq (p : Profile) (body : Bytes) :
    parseRpc p body = cutObject body (cutRpcMember p) .ok Rpc.empty := scanObject_eq rpcMember_rel _

theorem findProtocolVersion_eq (p : Profile) (params : Bytes) :
    findProtocolVersion p params = cutObject params (cutVersionMember p) (fun _ => .fail) () :=
  scanObject_eq protocolVersionMember_rel _

theorem findRawValue_eq (p : Profile) (obj wanted : Bytes) :
    findRawValue p obj wanted = cutObject obj (cutRawMember p wanted) (fun _ => .fail) () :=
  scanObject_eq (rawValueMember_rel wanted) _

theorem findCallTarget_eq (p : Profile) (params : Bytes) :
    findCallTarget p params = cutObject params (cutTargetMember p)
      (fun (name, arguments) => do return (← Scan.ofOption name, arguments)) (none, none) :=
  scanObject_eq callTargetMember_rel _

end Mcp
end Statico
