/-
# What `parse_rpc` accepts

The scanners are more lenient than JSON. A value that is no string, object or
array is any run of bytes up to a delimiter, or none; an object or array is
anything up to the bracket that closes it at its level; a comma may come
before the closing brace; and nothing is asked of what follows that brace.
`LenientObject` says so as a grammar, and a release build parses exactly the
bodies of that grammar (`parseRpc_lenient`). It never halts, so every other
body is a parse error.

Key definitions: `Extent`, `Field`, `LenientMembers`, `LenientObject`.
Key theorems: `cutValue_extent`, `parseRpc_lenient`, `dispatch_parse_error`.
-/
import Statico.Mcp.JsonText
import Statico.Mcp.Nesting
import Statico.Mcp.Sse

namespace Statico
namespace Mcp

open Json

/-! ### The grammar -/

/-- The text starts with a value, and `rest` follows it. -/
inductive Extent : Bytes → Bytes → Prop
  | string {r rest : Bytes} : Closed r → Extent (quoted r ++ rest) rest
  | bracket {o : UInt8} {t rest : Bytes} : isOpen o = true →
      ClosedAt (closer o) 0 (brackets t) rest → Extent (o :: t) rest
  | token {c : UInt8} {u rest : Bytes} : (u ++ rest).head? = some c → isBlank c = false →
      c ≠ byte '"' → isOpen c = false → (∀ b ∈ u, Json.isDelim b = false) → Follow rest →
      Extent (u ++ rest) rest

/-- The text starts with what the key `k` takes for its value. -/
def Field (k s rest : Bytes) : Prop :=
  if k = ascii "method" then ∃ r, Closed r ∧ s = quoted r ++ rest
  else if k = ascii "id" then ∃ i, IdText i ∧ s = i ++ rest ∧ (i.head? ≠ some (byte '"') → Follow rest)
  else Extent s rest

/-- The text starts with a member, and `rest` follows it. -/
def LenientMember (s rest : Bytes) : Prop :=
  ∃ a k b d v, Blank a ∧ Closed k ∧ Blank b ∧ Blank d ∧ Field k v rest ∧
    s = a ++ (quoted k ++ (b ++ byte ':' :: (d ++ v)))

/-- The members after a brace or a comma. -/
inductive LenientMembers : Bytes → Prop
  | close {w rest : Bytes} : Blank w → LenientMembers (w ++ byte '}' :: rest)
  | last {s w rest : Bytes} : Blank w → LenientMember s (w ++ byte '}' :: rest) → LenientMembers s
  | more {s w t : Bytes} : Blank w → LenientMember s (w ++ byte ',' :: t) → LenientMembers t →
      LenientMembers s

/-- A body that the scanners take for an object. -/
def LenientObject (b : Bytes) : Prop := ∃ w s, Blank w ∧ LenientMembers s ∧ b = w ++ byte '{' :: s

/-! ### One value -/

theorem Extent.head {s rest : Bytes} (h : Extent s rest) : ∃ c t, s = c :: t ∧ isBlank c = false := by
  cases h with
  | string _ => exact ⟨_, _, rfl, by decide⟩
  | bracket ho _ =>
    refine ⟨_, _, rfl, ?_⟩
    rcases isOpen_iff.mp ho with rfl | rfl <;> rfl
  | @token c u _ hc hb _ _ _ _ =>
    obtain ⟨t, e⟩ := List.head?_eq_some_iff.mp hc
    exact ⟨c, t, e, hb⟩

/-- A value that starts with a quote is a string. -/
theorem Extent.quote_iff {t rest : Bytes} :
    Extent (byte '"' :: t) rest ↔ ∃ r, Closed r ∧ byte '"' :: t = quoted r ++ rest := by
  constructor
  · intro h
    generalize he : byte '"' :: t = s at h
    cases h with
    | string hr => exact ⟨_, hr, rfl⟩
    | bracket ho _ =>
      cases he
      cases ho
    | token hc _ hq _ _ _ =>
      rw [← he, List.head?_cons, Option.some.injEq] at hc
      exact absurd hc.symm hq
  · rintro ⟨r, hr, e⟩
    rw [e]
    exact .string hr

/-- A value that starts with a bracket ends where that bracket is closed. -/
theorem Extent.open_iff {c : UInt8} {t rest : Bytes} (ho : isOpen c = true) :
    Extent (c :: t) rest ↔ ClosedAt (closer c) 0 (brackets t) rest := by
  constructor
  · intro h
    generalize he : c :: t = s at h
    cases h with
    | string _ =>
      cases he
      cases ho
    | bracket _ h =>
      cases he
      exact h
    | token hc _ _ hn _ _ =>
      rw [← he, List.head?_cons, Option.some.injEq] at hc
      rw [← hc, ho] at hn
      cases hn
  · exact fun h => .bracket ho h

theorem follow_dropWhile (s : Bytes) : Follow (s.dropWhile (!Json.isDelim ·)) := by
  intro c t e
  have := List.head?_dropWhile_not (!Json.isDelim ·) s
  rw [e] at this
  simpa using this

/-- Any other value ends at the first delimiter. -/
theorem Extent.token_iff {c : UInt8} {t rest : Bytes} (hb : isBlank c = false) (hq : c ≠ byte '"')
    (ho : isOpen c = false) :
    Extent (c :: t) rest ↔ (c :: t).dropWhile (!Json.isDelim ·) = rest := by
  constructor
  · intro h
    generalize he : c :: t = s at h ⊢
    cases h with
    | string _ =>
      cases he
      exact absurd rfl hq
    | bracket ho' _ =>
      cases he
      rw [ho] at ho'
      cases ho'
    | token _ _ _ _ hu hf => exact dropWhile_bare hf hu
  · intro h
    have hsplit : (c :: t).takeWhile (!Json.isDelim ·) ++ rest = c :: t := by
      rw [← h]
      exact List.takeWhile_append_dropWhile
    have hf : Follow rest := h ▸ follow_dropWhile (c :: t)
    have hu : ∀ b ∈ (c :: t).takeWhile (!Json.isDelim ·), Json.isDelim b = false := by
      intro b hb
      simpa using List.mem_takeWhile_imp hb
    rw [← hsplit]
    exact .token (c := c) (by rw [hsplit]; rfl) hb hq ho hu hf

theorem cutQuoted_iff {s r rest : Bytes} :
    cutQuoted s = .ok (r, rest) ↔ Closed r ∧ s = quoted r ++ rest := by
  constructor
  · exact (cutQuoted_ensures (H := fun _ => True) s).of_ok
  · rintro ⟨hr, rfl⟩
    exact cutQuoted_quoted hr rest

/-- `skip_value` takes what the grammar calls a value. -/
theorem cutValue_extent {s rest : Bytes} (hs : Solid s) (hl : s.length < 2 ^ 64) :
    cutValue .release s = .ok rest ↔ Extent s rest := by
  cases s with
  | nil =>
    constructor
    · intro h
      cases h
    · intro h
      obtain ⟨c, t, e, -⟩ := h.head
      cases e
  | cons c t =>
    rw [List.length_cons] at hl
    have hb : isBlank c = false := solid_cons.mp hs
    by_cases hq : c = byte '"'
    · subst hq
      have hcut : cutValue .release (byte '"' :: t) = (cutQuoted (byte '"' :: t) >>= fun x => .ok x.2) :=
        (cutValue_cons _ hb t).trans (if_pos rfl)
      rw [hcut, Scan.bind_eq_ok, Extent.quote_iff]
      constructor
      · rintro ⟨x, hx, h⟩
        cases h
        exact ⟨x.1, cutQuoted_iff.mp hx⟩
      · rintro ⟨r, h⟩
        exact ⟨(r, rest), cutQuoted_iff.mpr h, rfl⟩
    · cases ho : isOpen c with
      | true => rw [cutValue_open ho (by omega), walk_release, Extent.open_iff ho]
      | false =>
        have hn : ¬ (c = byte '{' ∨ c = byte '[') := fun hc => by
          rw [isOpen_iff.mpr hc] at ho
          cases ho
        rw [cutValue_cons _ hb, if_neg hq, if_neg hn, Scan.ok.injEq, Extent.token_iff hb hq ho]

/-! ### One member -/

/-- The value of an id is a closed string, or a token up to a delimiter. -/
theorem idMember_field (p : Profile) (rpc : Rpc) {s rest : Bytes} :
    (∃ rpc', cutRpcMember p rpc (ascii "id") s = .ok (.next (rpc', rest))) ↔
      ∃ i, IdText i ∧ s = i ++ rest ∧ (i.head? ≠ some (byte '"') → Follow rest) := by
  unfold cutRpcMember
  rw [if_neg method_ne_id.symm, if_pos rfl]
  constructor
  · rintro ⟨rpc', h⟩
    obtain ⟨⟨c, u⟩, hu, h⟩ := Scan.bind_eq_ok.mp h
    have hcu : s = c :: u := (uncons_ensures (H := fun _ => True) s).of_ok hu
    by_cases h3 : c = byte '"'
    · simp only [if_pos h3] at h
      obtain ⟨x, hx, h⟩ := Scan.bind_eq_ok.mp h
      cases h
      obtain ⟨hr, e⟩ := cutQuoted_iff.mp hx
      exact ⟨quoted x.1, Or.inl ⟨x.1, hr, rfl⟩, e, fun hh => absurd rfl hh⟩
    · simp only [if_neg h3] at h
      by_cases h4 : s.takeWhile (!Json.isDelim ·) = []
      · simp only [if_pos h4] at h
        cases h
      · simp only [if_neg h4] at h
        cases h
        refine ⟨_, idText_token ?_ h4, List.takeWhile_append_dropWhile.symm, fun _ => ?_⟩
        · rw [hcu, List.head?_cons]
          exact fun e => h3 (Option.some.inj e)
        · exact follow_dropWhile s
  · rintro ⟨i, hi, rfl, hf⟩
    rcases hi with ⟨r, hr, rfl⟩ | ⟨⟨c, u, rfl, hc⟩, hd⟩
    · rw [show uncons (quoted r ++ rest) = .ok (byte '"', _) from rfl, Scan.ok_bind]
      simp only [if_true]
      rw [cutQuoted_quoted hr]
      exact ⟨_, rfl⟩
    · have hf' := hf (by simpa using hc)
      rw [takeWhile_bare hf' hd, dropWhile_bare hf' hd, List.cons_append, uncons_cons, Scan.ok_bind]
      simp only [if_neg hc, reduceCtorEq, if_false]
      exact ⟨_, rfl⟩

/-- A member is read exactly if its value is what the key takes. -/
theorem rpcMember_field (rpc : Rpc) {k s rest : Bytes} (hs : Solid s) (hl : s.length < 2 ^ 64) :
    (∃ rpc', cutRpcMember .release rpc k s = .ok (.next (rpc', rest))) ↔ Field k s rest := by
  unfold Field
  by_cases h1 : k = ascii "method"
  · unfold cutRpcMember
    rw [if_pos h1, if_pos h1]
    constructor
    · rintro ⟨rpc', h⟩
      obtain ⟨x, hx, h⟩ := Scan.bind_eq_ok.mp h
      cases h
      exact ⟨x.1, cutQuoted_iff.mp hx⟩
    · rintro ⟨r, h⟩
      rw [cutQuoted_iff.mpr h]
      exact ⟨_, rfl⟩
  · by_cases h2 : k = ascii "id"
    · rw [if_neg h1, if_pos h2, h2]
      exact idMember_field .release rpc
    · unfold cutRpcMember
      rw [if_neg h1, if_neg h1, if_neg h2, if_neg h2, ← cutValue_extent hs hl]
      by_cases h3 : k = ascii "params"
      · rw [if_pos h3]
        constructor
        · rintro ⟨rpc', h⟩
          obtain ⟨t, ht, h⟩ := Scan.bind_eq_ok.mp h
          cases h
          exact ht
        · intro h
          rw [h]
          exact ⟨_, rfl⟩
      · rw [if_neg h3]
        constructor
        · rintro ⟨rpc', h⟩
          obtain ⟨t, ht, h⟩ := Scan.bind_eq_ok.mp h
          cases h
          exact ht
        · intro h
          rw [h]
          exact ⟨_, rfl⟩

theorem Field.head {k s rest : Bytes} (h : Field k s rest) : ∃ c t, s = c :: t ∧ isBlank c = false := by
  unfold Field at h
  split_ifs at h
  · obtain ⟨r, -, rfl⟩ := h
    exact ⟨_, _, rfl, by decide⟩
  · obtain ⟨i, hi, rfl, -⟩ := h
    have hsol := hi.solid rest
    rcases hi with ⟨r, -, rfl⟩ | ⟨⟨c, u, rfl, -⟩, -⟩
    · exact ⟨_, _, rfl, by decide⟩
    · exact ⟨_, _, rfl, hsol _ _ rfl⟩
  · exact h.head

theorem Field.solid {k s rest : Bytes} (h : Field k s rest) : Solid s := by
  obtain ⟨c, t, rfl, hc⟩ := h.head
  exact solid_cons.mpr hc

/-- One turn of the loop reads a member, and what comes after it. -/
theorem step_member {s rest : Bytes} (h : LenientMember s rest) (hl : s.length < 2 ^ 64) (rpc : Rpc) :
    ∃ rpc', cutObjectStep (cutRpcMember .release) .ok (rpc, s) = (cutSep rest >>= fun
      | none => .ok (.done rpc')
      | some r => .ok (.next (rpc', r))) := by
  obtain ⟨a, k, b, d, v, ha, hk, hb, hd, hf, rfl⟩ := h
  have hlv : v.length < 2 ^ 64 := by
    simp only [List.length_append, List.length_cons] at hl
    omega
  obtain ⟨rpc', hr⟩ := (rpcMember_field rpc hf.solid hlv).mpr hf
  refine ⟨rpc', ?_⟩
  rw [cutObjectStep_eq, cutKey_member ha hk hb hd hf.solid, Scan.ok_bind]
  exact (Scan.bind_of_ok hr _).trans (congrArg (cutSep rest >>= ·) (funext fun x => by cases x <;> rfl))

theorem LenientMember.length {s rest : Bytes} (h : LenientMember s rest) (hl : s.length < 2 ^ 64) :
    rest.length < s.length := by
  obtain ⟨a, k, b, d, v, -, -, -, -, hf, rfl⟩ := h
  have hlv : v.length < 2 ^ 64 := by
    simp only [List.length_append, List.length_cons] at hl
    omega
  obtain ⟨rpc', hr⟩ := (rpcMember_field Rpc.empty hf.solid hlv).mpr hf
  have hskip : Skipping .release (fun _ => True) v := skipping_release v
  have htaken : RpcTaken Rpc.empty v rpc' rest := (rpcMember_taken hskip Rpc.empty k).of_ok hr
  have := htaken.suffix.length_le
  simp only [List.length_append, List.length_cons]
  omega

/-- What a turn of the loop reads: a member and a comma, or the rest of the
members. -/
def ReadBy (s : Bytes) : Step (Rpc × Bytes) Rpc → Prop
  | .next x => ∃ w, Blank w ∧ LenientMember s (w ++ byte ',' :: x.2)
  | .done _ => LenientMembers s

theorem step_sound {s : Bytes} (hl : s.length < 2 ^ 64) {rpc : Rpc} {x : Step (Rpc × Bytes) Rpc}
    (h : cutObjectStep (cutRpcMember .release) .ok (rpc, s) = .ok x) : ReadBy s x := by
  rw [cutObjectStep_eq] at h
  obtain ⟨o, ho, h⟩ := Scan.bind_eq_ok.mp h
  have hkey := (cutKey_ensures (H := fun _ => True) s).of_ok ho
  cases o with
  | none =>
    cases h
    obtain ⟨w, t, hw, e⟩ := hkey
    show LenientMembers s
    rw [e]
    exact .close hw
  | some kv =>
    obtain ⟨k, v⟩ := kv
    obtain ⟨hsol, hk, a, b, d, ha, hb, hd, e⟩ := hkey
    have hlv : v.length < 2 ^ 64 := by
      rw [e] at hl
      simp only [List.length_append, List.length_cons] at hl
      omega
    obtain ⟨y, hy, h⟩ := Scan.bind_eq_ok.mp h
    cases y with
    | done r =>
      have hskip : Skipping .release (fun _ => True) v := skipping_release v
      exact ((rpcMember_taken hskip rpc k).of_ok hy).elim
    | next y =>
      obtain ⟨rpc', t⟩ := y
      have hf := (rpcMember_field rpc hsol hlv).mp ⟨rpc', hy⟩
      have hmem : LenientMember s t := ⟨a, k, b, d, v, ha, hk, hb, hd, hf, e⟩
      obtain ⟨z, hz, h⟩ := Scan.bind_eq_ok.mp h
      have hsep := (cutSep_ensures (H := fun _ => True) t).of_ok hz
      cases z with
      | none =>
        cases h
        obtain ⟨w, u, hw, rfl⟩ := hsep
        exact .last hw hmem
      | some r =>
        cases h
        obtain ⟨w, hw, rfl⟩ := hsep
        exact ⟨w, hw, hmem⟩

/-! ### The body -/

theorem loop_complete {s : Bytes} (h : LenientMembers s) : ∀ (n : ℕ) (rpc : Rpc), s.length < 2 ^ 64 →
    s.length < n → ∃ r, loop (cutObjectStep (cutRpcMember .release) .ok) n (rpc, s) = .ok r := by
  induction h with
  | @close w rest hw =>
    intro n rpc _ hn
    obtain ⟨n, rfl⟩ := Nat.exists_eq_succ_of_ne_zero (Nat.ne_of_gt (Nat.zero_lt_of_lt hn))
    refine ⟨rpc, ?_⟩
    rw [loop_succ, cutObjectStep_eq, cutKey_close hw]
    rfl
  | @last s w rest hw hm =>
    intro n rpc hl hn
    obtain ⟨n, rfl⟩ := Nat.exists_eq_succ_of_ne_zero (Nat.ne_of_gt (Nat.zero_lt_of_lt hn))
    obtain ⟨rpc', e⟩ := step_member hm hl rpc
    refine ⟨rpc', ?_⟩
    rw [loop_succ, e, cutSep_close hw]
    rfl
  | @more s w t hw hm _ ih =>
    intro n rpc hl hn
    obtain ⟨n, rfl⟩ := Nat.exists_eq_succ_of_ne_zero (Nat.ne_of_gt (Nat.zero_lt_of_lt hn))
    obtain ⟨rpc', e⟩ := step_member hm hl rpc
    have hlen := hm.length hl
    rw [List.length_append, List.length_cons] at hlen
    obtain ⟨r, hr⟩ := ih n rpc' (by omega) (by omega)
    refine ⟨r, ?_⟩
    rw [loop_succ, e, cutSep_comma hw]
    exact hr

theorem loop_sound : ∀ (n : ℕ) {s : Bytes} {rpc r : Rpc}, s.length < 2 ^ 64 →
    loop (cutObjectStep (cutRpcMember .release) .ok) n (rpc, s) = .ok r → LenientMembers s
  | 0, _, _, _, _, h => by cases h
  | n + 1, s, rpc, r, hl, h => by
    rw [loop_succ] at h
    obtain ⟨x, hx, h⟩ := Scan.bind_eq_ok.mp h
    have hr := step_sound hl hx
    cases x with
    | done a => exact hr
    | next y =>
      obtain ⟨rpc', t⟩ := y
      obtain ⟨w, hw, hm⟩ : ∃ w, Blank w ∧ LenientMember s (w ++ byte ',' :: t) := hr
      have hlen := hm.length hl
      rw [List.length_append, List.length_cons] at hlen
      exact .more hw hm (loop_sound n (by omega) h)

/-- A release build parses exactly the lenient objects. -/
theorem parseRpc_lenient (body : Slice) :
    (∃ rpc, parseRpc .release body.bytes = .ok rpc) ↔ LenientObject body.bytes := by
  have hfits := body.fits
  rw [parseRpc_eq]
  unfold cutObject
  constructor
  · rintro ⟨rpc, h⟩
    obtain ⟨⟨c, s⟩, hc, h⟩ := Scan.bind_eq_ok.mp h
    have hcs : dropBlank body.bytes = c :: s := (uncons_ensures (H := fun _ => True) _).of_ok hc
    obtain ⟨w, hw, e⟩ := dropBlank_split body.bytes
    rw [hcs] at e
    have hl := congrArg List.length e
    rw [List.length_append, List.length_cons] at hl
    by_cases h1 : c = byte '{'
    · simp only [h1, ne_eq, not_true_eq_false, if_false] at h
      exact ⟨w, s, hw, loop_sound _ (by omega) h, by rw [← h1]; exact e⟩
    · simp only [ne_eq, h1, not_false_eq_true, if_true] at h
      cases h
  · rintro ⟨w, s, hw, hm, e⟩
    have hl := congrArg List.length e
    rw [List.length_append, List.length_cons] at hl
    obtain ⟨r, hr⟩ := loop_complete hm (body.bytes.length + 1) Rpc.empty (by omega) (by omega)
    refine ⟨r, ?_⟩
    have hd : dropBlank (w ++ byte '{' :: s) = byte '{' :: s := dropBlank_eq hw (solid_cons.mpr (by decide))
    rw [e] at hr ⊢
    rw [hd, uncons_cons, Scan.ok_bind]
    simp only [ne_eq, not_true_eq_false, if_false]
    exact hr

/-- What is not a lenient object does not parse. -/
theorem parseRpc_not_lenient (body : Slice) (h : ¬ LenientObject body.bytes) :
    parseRpc .release body.bytes = .fail := by
  have he := parseRpc_ensures (skipping_release (H := fun _ => False) body.bytes)
  cases hp : parseRpc .release body.bytes with
  | ok rpc => exact absurd ((parseRpc_lenient body).mp ⟨rpc, hp⟩) h
  | fail => rfl
  | halt w =>
    rw [hp] at he
    exact he.elim

/-! ### Parse errors -/

/-- A body that parses is not answered with the parse error. -/
theorem dispatch_not_errParse {p : Profile} {body : Bytes} {rpc : Rpc} (h : parseRpc p body = .ok rpc)
    (sse : Bool) : dispatchRpc p body sse ≠ .ok (.json 400 errParse) := by
  have hs : Skipping p (fun _ => True) body := fun _ _ _ _ => trivial
  have hparts := (parseRpc_ensures hs).of_ok h
  have hplain : dispatchRpc p body false ≠ .ok (.json 400 errParse) := by
    intro hd
    rw [dispatchRpc_ok h] at hd
    obtain ⟨i, hi, hn, hr⟩ := (dispatchParsed_ensures hs hparts).of_ok hd
    have hnull : IsReply (ascii "null") errParse := by
      rw [errParse_eq]
      exact isReply_error _ (literal_negative (by decide) (by decide) (by decide)) (by decide)
    have hid : IdText (ascii "null") := Or.inr ⟨⟨_, _, rfl, by decide⟩, fun b hb =>
      (Literal.token (Or.inl rfl)).2 b hb |>.1⟩
    have e := (parseRpc_reply p (hparts.id i hi) hr).symm.trans (parseRpc_reply p hid hnull)
    simp only [Scan.ok.injEq, Rpc.mk.injEq, Option.some.injEq, true_and, and_true] at e
    exact hn e
  cases sse with
  | false => exact hplain
  | true =>
    rcases dispatch_modes p body with e | ⟨id, params, out, hc, hout⟩
    · rw [e]
      exact hplain
    · rw [(hc.answered hout).2]
      intro hw
      cases hw

/-- A release build answers with the parse error exactly what is no lenient
object. -/
theorem dispatch_parse_error (body : Slice) (sse : Bool) :
    dispatchRpc .release body.bytes sse = .ok (.json 400 errParse) ↔ ¬ LenientObject body.bytes := by
  constructor
  · intro h hl
    obtain ⟨rpc, hp⟩ := (parseRpc_lenient body).mpr hl
    exact dispatch_not_errParse hp sse h
  · intro h
    exact dispatchRpc_fail (parseRpc_not_lenient body h) sse

/-- Malformed bodies are rejected exactly but for those the scanners are too
lenient for. -/
theorem malformed_rejected_iff (body : Slice) :
    (¬ WellFormedObject body.bytes → body.bytes ≠ [] →
      ∀ sse, dispatchRpc .release body.bytes sse = .ok (.json 400 errParse)) ↔
    (LenientObject body.bytes → WellFormedObject body.bytes) := by
  constructor
  · intro h hl
    by_contra hw
    have hne : body.bytes ≠ [] := by
      obtain ⟨w, s, -, -, e⟩ := hl
      rw [e]
      simp
    exact (dispatch_parse_error body true).mp (h hw hne true) hl
  · intro h hw _ sse
    exact (dispatch_parse_error body sse).mpr fun hl => hw (h hl)

/-- The body `{}x` is accepted. -/
theorem malformed_rejected_trailing :
    ¬ (¬ WellFormedObject (ascii "\x7b\x7dx") → ascii "\x7b\x7dx" ≠ [] →
      ∀ sse, dispatchRpc .release (ascii "\x7b\x7dx") sse = .ok (.json 400 errParse)) := by
  intro h
  have hw : ¬ WellFormedObject (ascii "\x7b\x7dx") := by
    rintro ⟨ms, hd⟩
    rcases hd.getLast with hb | hb
    · exact absurd (hb (byte 'x') (by decide)) (by decide)
    · exact absurd hb (by decide)
  exact absurd (h hw (by decide) false) (by decide +kernel)

end Mcp
end Statico
