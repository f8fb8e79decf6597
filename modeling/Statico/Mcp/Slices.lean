/-
# What the scanners cut out of any body

A body that is no JSON at all still gets an answer when the scanners get
through it, and the answer is spliced from what they cut out. Whatever the
body is, a cut string is closed, a cut id is one `parse_rpc` takes whole
again, and what is handed on to the next scanner is a piece of the body
(`parseRpc_ensures`, …). No scanner halts but where `cutValue` halts in a
piece of the body (`Skipping`).

So a response is an object with the members `jsonrpc`, `id` and `result` or
`error` around a value of the loose grammar (`IsReply`), and `parse_rpc`
reads the same id back from it.

Key definitions: `Skipping`, `Strung`, `IsReply`.
Key theorems: `cutObject_ensures`, `parseRpc_ensures`,
`handleToolsCall_ensures`, `dispatchMethod_ensures`, `dispatch_round_trip`.
-/
import Statico.Mcp.Members
import Statico.Mcp.Response

namespace Statico
namespace Mcp

open Json

variable {H : Halt → Prop}

/-! ### The small scanners -/

theorem uncons_ensures (s : Bytes) : (uncons s).Ensures H fun x => s = x.1 :: x.2 := by
  cases s with
  | nil => trivial
  | cons c s => exact rfl

theorem cutQuoted_ensures (s : Bytes) :
    (cutQuoted s).Ensures H fun x => Closed x.1 ∧ s = quoted x.1 ++ x.2 := by
  unfold cutQuoted
  apply (uncons_ensures s).bind
  intro x hx
  obtain ⟨c, t⟩ := x
  by_cases hc : c = byte '"'
  · simp only [hc, ne_eq, not_true_eq_false, if_false]
    apply (Scan.ensures_option _).mono
    intro y hy
    obtain ⟨hr, ht⟩ := cutString_spec t y.1 y.2 hy
    refine ⟨hr, ?_⟩
    rw [hx, ht, hc]
    simp [quoted]
  · simp only [ne_eq, hc, not_false_eq_true, if_true]
    trivial

/-- What stands before the value of a member, or the closing brace. -/
theorem cutKey_ensures (s : Bytes) : (cutKey s).Ensures H fun
    | none => ∃ w t, Blank w ∧ s = w ++ byte '}' :: t
    | some (k, v) => Solid v ∧ Closed k ∧ ∃ a b d, Blank a ∧ Blank b ∧ Blank d ∧
        s = a ++ (quoted k ++ (b ++ byte ':' :: (d ++ v))) := by
  obtain ⟨a, ha, hsa⟩ := dropBlank_split s
  unfold cutKey
  apply (uncons_ensures (dropBlank s)).bind
  intro x hx
  by_cases h1 : x.1 = byte '}'
  · simp only [if_pos h1]
    exact ⟨a, x.2, ha, by rw [← h1, ← hx]; exact hsa⟩
  · simp only [if_neg h1]
    apply (cutQuoted_ensures (dropBlank s)).bind
    intro y hy
    obtain ⟨b, hb, hyb⟩ := dropBlank_split y.2
    apply (uncons_ensures (dropBlank y.2)).bind
    intro z hz
    by_cases h2 : z.1 = byte ':'
    · simp only [h2, ne_eq, not_true_eq_false, if_false]
      obtain ⟨d, hd, hzd⟩ := dropBlank_split z.2
      refine ⟨solid_dropBlank z.2, hy.1, a, b, d, ha, hb, hd, ?_⟩
      calc s = a ++ dropBlank s := hsa
        _ = a ++ (quoted y.1 ++ y.2) := by rw [hy.2]
        _ = a ++ (quoted y.1 ++ (b ++ dropBlank y.2)) := by rw [← hyb]
        _ = a ++ (quoted y.1 ++ (b ++ byte ':' :: z.2)) := by rw [hz, h2]
        _ = a ++ (quoted y.1 ++ (b ++ byte ':' :: (d ++ dropBlank z.2))) := by rw [← hzd]
    · simp only [ne_eq, h2, not_false_eq_true, if_true]
      trivial

theorem cutSep_ensures (s : Bytes) : (cutSep s).Ensures H fun
    | none => ∃ w t, Blank w ∧ s = w ++ byte '}' :: t
    | some r => ∃ w, Blank w ∧ s = w ++ byte ',' :: r := by
  obtain ⟨w, hw, hsw⟩ := dropBlank_split s
  unfold cutSep
  apply (uncons_ensures (dropBlank s)).bind
  intro x hx
  by_cases h1 : x.1 = byte ','
  · simp only [if_pos h1]
    exact ⟨w, hw, by rw [← h1, ← hx]; exact hsw⟩
  · simp only [if_neg h1]
    by_cases h2 : x.1 = byte '}'
    · simp only [if_pos h2]
      exact ⟨w, x.2, hw, by rw [← h2, ← hx]; exact hsw⟩
    · simp only [if_neg h2]
      trivial

theorem stringInner_ensures (t : Bytes) : (stringInner t).Ensures H fun r => t = quoted r := by
  by_cases h : 2 ≤ t.length ∧ t.head? = some (byte '"') ∧ t.getLast? = some (byte '"')
  · obtain ⟨hl, hh, ht⟩ := h
    obtain ⟨u, rfl⟩ := List.getLast?_eq_some_iff.mp ht
    cases u with
    | nil => exact absurd hl (by simp)
    | cons c r =>
      rw [List.cons_append, List.head?_cons, Option.some.injEq] at hh
      rw [hh, show byte '"' :: r ++ [byte '"'] = quoted r from rfl, stringInner_quoted]
      exact rfl
  · rw [stringInner, if_neg h]
    trivial

/-- A raw value that is closed if it is a string. -/
def Strung (t : Bytes) : Prop := ∀ r, t = quoted r → Closed r

/-- In no piece of the body `cutValue` halts, but for the reasons of `H`. -/
def Skipping (p : Profile) (H : Halt → Prop) (body : Bytes) : Prop :=
  ∀ s w, s <:+: body → cutValue p s = .halt w → H w

theorem Skipping.within {p : Profile} {b body : Bytes} (h : Skipping p H body) (hb : b <:+: body) :
    Skipping p H b := fun s w hs => h s w (hs.trans hb)

/-- A counter that wraps never halts, whatever the text is. -/
theorem cutNested_release (close : UInt8) : ∀ (n : ℕ) (s : Bytes) (d : ℕ), s.length < n →
    (cutNested .release close d s).Ensures H fun _ => True
  | 0, _, _, hn => absurd hn (Nat.not_lt_zero _)
  | n + 1, [], d, _ => by
    rw [cutNested_nil]
    trivial
  | n + 1, c :: s, d, hn => by
    have hs : s.length < n := by simpa using hn
    by_cases h1 : c = byte '"'
    · rw [h1, cutNested_quote]
      apply (Scan.ensures_option (cutString s)).bind
      intro x hx
      have hlen := length_cutString hx
      exact cutNested_release close n x.2 d (by omega)
    · by_cases h2 : c = byte '{' ∨ c = byte '['
      · rw [cutNested_open h2]
        exact cutNested_release close n s _ hs
      · by_cases h3 : c = byte '}' ∨ c = byte ']'
        · rw [cutNested_close h3, Profile.decr, Scan.ok_bind]
          split_ifs
          · trivial
          · exact cutNested_release close n s _ hs
        · rw [cutNested_other h1 h2 h3]
          exact cutNested_release close n s d hs

theorem cutValue_release (s : Bytes) : (cutValue .release s).Ensures H fun _ => True := by
  unfold cutValue
  apply (uncons_ensures (dropBlank s)).bind
  intro x _
  by_cases h1 : x.1 = byte '"'
  · simp only [if_pos h1]
    exact (Scan.ensures_option (cutString x.2)).bind fun _ _ => trivial
  · simp only [if_neg h1]
    by_cases h2 : x.1 = byte '{' ∨ x.1 = byte '['
    · simp only [if_pos h2]
      exact cutNested_release _ _ x.2 1 (Nat.lt_succ_self _)
    · simp only [if_neg h2]
      trivial

/-- A release build halts in no piece of any body. -/
theorem skipping_release (body : Bytes) : Skipping .release H body := by
  intro s w _ hw
  have h := cutValue_release (H := H) s
  rw [hw] at h
  exact h

theorem strung_consumed {p : Profile} {s t : Bytes} (hs : Solid s) (h : cutValue p s = .ok t) :
    Strung (consumed s t) := by
  intro r hr
  cases s with
  | nil => cases h
  | cons c u =>
    rw [cutValue_cons p (solid_cons.mp hs)] at h
    by_cases h1 : c = byte '"'
    · rw [if_pos h1] at h
      cases hc : cutString u with
      | none =>
        rw [hc] at h
        cases h
      | some x =>
        rw [hc] at h
        cases h
        obtain ⟨hx, rfl⟩ := cutString_spec u x.1 x.2 hc
        have hq : c :: (x.1 ++ byte '"' :: x.2) = quoted x.1 ++ x.2 := by
          rw [h1]
          simp [quoted]
        rw [hq, consumed_append] at hr
        have := (unquote_quoted x.1).symm.trans ((congrArg unquote hr).trans (unquote_quoted r))
        rwa [← this]
    · unfold consumed at hr
      generalize (c :: u).length - t.length = n at hr
      cases n with
      | zero => cases hr
      | succ n =>
        rw [List.take_succ_cons] at hr
        exact absurd (List.cons.inj hr).1 h1

theorem consumed_within {s t : Bytes} : consumed s t <:+: s := (List.take_prefix _ _).isInfix

/-- One value: what is left is a suffix, and what is cut off is closed. -/
theorem cutValue_ensures {p : Profile} {s : Bytes} (h : Skipping p H s) :
    (cutValue p s).Ensures H fun t => t <:+ s ∧ (Solid s → Strung (consumed s t)) := by
  have hrel := skipValue_at (p := p) (at_zero s)
  generalize skipValue p s 0 = y at hrel
  cases hx : cutValue p s with
  | ok t =>
    rw [hx] at hrel
    cases hrel with
    | ok ht => exact ⟨ht.2, fun hs => strung_consumed hs hx⟩
  | fail => trivial
  | halt w => exact h s w (List.infix_refl s) hx

/-! ### The object loop -/

section Object

variable {σ α : Type} {member : σ → Bytes → Bytes → Scan (Step (σ × Bytes) α)} {close : σ → Scan α}
  {J : σ → Prop} {P : α → Prop} {body : Bytes}

/-- One turn moves on by a byte at least and keeps what the members keep. -/
theorem cutObjectStep_ensures
    (hm : ∀ st k s, J st → s <:+ body → Solid s →
      (member st k s).Ensures H (Step.Ensures (fun x => x.2 <:+ s ∧ J x.1) P))
    (hc : ∀ st, J st → (close st).Ensures H P) (st : σ) (s : Bytes) (hst : J st) (hs : s <:+ body) :
    (cutObjectStep member close (st, s)).Ensures H
      (Step.Ensures (fun x => (J x.1 ∧ x.2 <:+ body) ∧ x.2.length < s.length) P) := by
  have hdone : ∀ st', J st' → (close st' >>= fun a => Scan.ok (.done a)).Ensures H
      (Step.Ensures (fun x : σ × Bytes => (J x.1 ∧ x.2 <:+ body) ∧ x.2.length < s.length) P) :=
    fun st' h => (hc st' h).bind fun a ha => ha
  rw [cutObjectStep_eq]
  apply (cutKey_ensures s).bind
  intro x hx
  cases x with
  | none => exact hdone st hst
  | some x =>
    obtain ⟨k, v⟩ := x
    obtain ⟨hv, -, a, b, d, -, -, -, e⟩ := hx
    have hvs : v <:+ s := ⟨a ++ (quoted k ++ (b ++ byte ':' :: d)), by rw [e]; simp⟩
    have hlen : v.length < s.length := by
      rw [e]
      simp only [List.length_append, List.length_cons]
      omega
    apply (hm st k v hst (hvs.trans hs) hv).bind
    intro y hy
    cases y with
    | done a => exact hy
    | next y =>
      obtain ⟨st', t⟩ := y
      obtain ⟨ht, hst'⟩ : t <:+ v ∧ J st' := hy
      apply (cutSep_ensures t).bind
      intro z hz
      cases z with
      | none => exact hdone st' hst'
      | some r =>
        obtain ⟨w, -, rfl⟩ := hz
        have hr : r <:+ w ++ byte ',' :: r := ⟨w ++ [byte ','], by simp⟩
        have hle := (hr.trans ht).length_le
        exact ⟨⟨hst', ((hr.trans ht).trans hvs).trans hs⟩, by show r.length < s.length; omega⟩

/-- What every member keeps, the object loop keeps, and it ends. -/
theorem cutObject_ensures
    (hm : ∀ st k s, J st → s <:+ body → Solid s →
      (member st k s).Ensures H (Step.Ensures (fun x => x.2 <:+ s ∧ J x.1) P))
    (hc : ∀ st, J st → (close st).Ensures H P) {st : σ} (h0 : J st) :
    (cutObject body member close st).Ensures H P := by
  unfold cutObject
  apply (uncons_ensures _).bind
  intro x hx
  obtain ⟨c, s⟩ := x
  have hs : s <:+ body := (show s <:+ dropBlank body from ⟨[c], hx.symm⟩).trans (List.dropWhile_suffix _)
  by_cases h1 : c = byte '{'
  · simp only [h1, ne_eq, not_true_eq_false, if_false]
    refine loop_ensures (I := fun x : σ × Bytes => J x.1 ∧ x.2 <:+ body) (fun x => x.2.length)
      (fun x hx => cutObjectStep_ensures hm hc x.1 x.2 hx.1 hx.2) _ ⟨h0, hs⟩ ?_
    have := hs.length_le
    simp only
    omega
  · simp only [ne_eq, h1, not_false_eq_true, if_true]
    trivial

end Object

/-! ### The four object scanners -/

section Scanners

variable {p : Profile} {body : Bytes}

/-- What the `id` branch cuts off it takes whole again. -/
theorem idText_token {s : Bytes} (hq : s.head? ≠ some (byte '"'))
    (hne : s.takeWhile (!Json.isDelim ·) ≠ []) : IdText (s.takeWhile (!Json.isDelim ·)) := by
  refine Or.inr ⟨?_, fun b hb => ?_⟩
  · cases s with
    | nil => exact absurd rfl hne
    | cons c u =>
      rw [List.takeWhile_cons] at hne ⊢
      split_ifs at hne ⊢
      · exact ⟨c, _, rfl, fun e => hq (by rw [e]; rfl)⟩
      · exact absurd rfl hne
  · have := List.mem_takeWhile_imp hb
    simpa using this

/-- What is known of the parts of a request, whatever its body is. -/
structure Parts (body : Bytes) (rpc : Rpc) : Prop where
  id : ∀ i ∈ rpc.idRaw, IdText i
  params : ∀ t ∈ rpc.paramsRaw, t <:+: body

/-- What `parse_rpc` takes of a member into its request, and what is left. -/
inductive RpcTaken (rpc : Rpc) (s : Bytes) : Rpc → Bytes → Prop
  | method {r t : Bytes} : s = quoted r ++ t → RpcTaken rpc s { rpc with method := some r } t
  | id {i t : Bytes} : IdText i → s = i ++ t → RpcTaken rpc s { rpc with idRaw := some i } t
  | params {t : Bytes} : t <:+ s → RpcTaken rpc s { rpc with paramsRaw := some (consumed s t) } t
  | other {t : Bytes} : t <:+ s → RpcTaken rpc s rpc t

theorem RpcTaken.suffix {rpc rpc' : Rpc} {s t : Bytes} (h : RpcTaken rpc s rpc' t) : t <:+ s := by
  cases h with
  | method e => exact ⟨_, e.symm⟩
  | id _ e => exact ⟨_, e.symm⟩
  | params h => exact h
  | other h => exact h

/-- No member ends the loop. -/
theorem rpcMember_taken {s : Bytes} (h : Skipping p H s) (rpc : Rpc) (k : Bytes) :
    (cutRpcMember p rpc k s).Ensures H fun
      | .next (rpc', t) => RpcTaken rpc s rpc' t
      | .done _ => False := by
  unfold cutRpcMember
  by_cases h1 : k = ascii "method"
  · rw [if_pos h1]
    apply (cutQuoted_ensures s).bind
    intro x hx
    exact .method hx.2
  · rw [if_neg h1]
    by_cases h2 : k = ascii "id"
    · rw [if_pos h2]
      apply (uncons_ensures s).bind
      intro x hx
      by_cases h3 : x.1 = byte '"'
      · simp only [if_pos h3]
        apply (cutQuoted_ensures s).bind
        intro y hy
        exact .id (Or.inl ⟨y.1, hy.1, rfl⟩) hy.2
      · simp only [if_neg h3]
        by_cases h4 : s.takeWhile (!Json.isDelim ·) = []
        · simp only [if_pos h4]
          trivial
        · simp only [if_neg h4]
          have hq : s.head? ≠ some (byte '"') := by
            rw [hx, List.head?_cons]
            exact fun e => h3 (Option.some.inj e)
          exact .id (idText_token hq h4) List.takeWhile_append_dropWhile.symm
    · rw [if_neg h2]
      by_cases h3 : k = ascii "params"
      · rw [if_pos h3]
        exact (cutValue_ensures h).bind fun t ht => .params ht.1
      · rw [if_neg h3]
        exact (cutValue_ensures h).bind fun t ht => .other ht.1

/-- What the parts of a request keep as they are taken from a member. -/
theorem rpcMember_ensures {J P : Rpc → Prop} {s : Bytes} (h : Skipping p H s) (rpc : Rpc) (k : Bytes)
    (hJ : ∀ rpc' t, RpcTaken rpc s rpc' t → J rpc') : (cutRpcMember p rpc k s).Ensures H
      (Step.Ensures (fun x => x.2 <:+ s ∧ J x.1) P) := by
  apply (rpcMember_taken h rpc k).mono
  intro x hx
  cases x with
  | next x => exact ⟨hx.suffix, hJ _ _ hx⟩
  | done r => exact hx.elim

theorem Parts.taken {rpc rpc' : Rpc} {s t : Bytes} (h : Parts body rpc) (hs : s <:+ body)
    (ht : RpcTaken rpc s rpc' t) : Parts body rpc' := by
  cases ht with
  | method _ => exact ⟨h.id, h.params⟩
  | id hi _ =>
    refine ⟨?_, h.params⟩
    rintro _ ⟨⟩
    exact hi
  | params _ =>
    refine ⟨h.id, ?_⟩
    rintro _ ⟨⟩
    exact consumed_within.trans hs.isInfix
  | other _ => exact h

theorem parseRpc_ensures (h : Skipping p H body) : (parseRpc p body).Ensures H (Parts body) := by
  rw [parseRpc_eq]
  apply cutObject_ensures (J := Parts body)
  · intro rpc k s hrpc hs _
    exact rpcMember_ensures (h.within hs.isInfix) rpc k fun _ _ ht => hrpc.taken hs ht
  · intro rpc hrpc
    exact hrpc
  · exact ⟨by rintro _ ⟨⟩, by rintro _ ⟨⟩⟩

theorem findProtocolVersion_ensures {params : Bytes} (h : Skipping p H params) :
    (findProtocolVersion p params).Ensures H Closed := by
  rw [findProtocolVersion_eq]
  refine cutObject_ensures (J := fun _ => True) (fun st k s _ hs _ => ?_) ?_ trivial
  · unfold cutVersionMember
    by_cases h1 : k = ascii "protocolVersion"
    · rw [if_pos h1]
      exact (cutQuoted_ensures s).bind fun x hx => hx.1
    · rw [if_neg h1]
      exact (cutValue_ensures (h.within hs.isInfix)).bind fun t ht => ⟨ht.1, trivial⟩
  · exact fun _ _ => trivial

/-- A member that cuts its value off keeps what its update keeps. -/
theorem valueMember_ensures {σ α : Type} {upd : σ → Bytes → Bytes → Scan (Step σ α)} {J : σ → Prop}
    {P : α → Prop} {s : Bytes} (h : Skipping p H s) (st : σ) (k : Bytes)
    (hu : ∀ t, (Solid s → Strung (consumed s t)) →
      (upd st k (consumed s t)).Ensures H (Step.Ensures J P)) :
    (valueMember p upd st k s).Ensures H (Step.Ensures (fun x => x.2 <:+ s ∧ J x.1) P) := by
  unfold valueMember
  apply (cutValue_ensures h).bind
  intro t ht
  apply (hu t ht.2).bind
  intro x hx
  cases x with
  | next st' => exact ⟨ht.1, hx⟩
  | done a => exact hx

theorem findRawValue_ensures {obj : Bytes} (h : Skipping p H obj) (wanted : Bytes) :
    (findRawValue p obj wanted).Ensures H Strung := by
  rw [findRawValue_eq, rawMember_eq]
  apply cutObject_ensures (J := fun _ => True)
  · intro st k s _ hs hsol
    apply valueMember_ensures (J := fun _ => True) (h.within hs.isInfix)
    intro t hstr
    unfold rawUpd
    split_ifs
    · exact hstr hsol
    · trivial
  · exact fun _ _ => trivial
  · trivial

theorem findCallTarget_ensures {params : Bytes} (h : Skipping p H params) :
    (findCallTarget p params).Ensures H fun x => Strung x.1 ∧ ∀ a ∈ x.2, a <:+: params := by
  rw [findCallTarget_eq, targetMember_eq]
  apply cutObject_ensures (J := fun st => (∀ n ∈ st.1, Strung n) ∧ ∀ a ∈ st.2, a <:+: params)
  · intro st k s hst hs hsol
    apply valueMember_ensures
      (J := fun st : Option Bytes × Option Bytes => (∀ n ∈ st.1, Strung n) ∧ ∀ a ∈ st.2, a <:+: params)
      (h.within hs.isInfix)
    intro t hstr
    unfold targetUpd
    split_ifs
    · refine ⟨?_, hst.2⟩
      rintro _ ⟨⟩
      exact hstr hsol
    · refine ⟨hst.1, ?_⟩
      rintro _ ⟨⟩
      exact consumed_within.trans hs.isInfix
    · exact hst
  · intro st hst
    exact (Scan.ensures_option st.1).bind fun n hn => ⟨hst.1 n hn, hst.2⟩
  · exact ⟨by rintro _ ⟨⟩, by rintro _ ⟨⟩⟩

end Scanners

/-! ### The response -/

/-- A response to the id `i`: its last member is a value of the loose grammar. -/
def IsReply (i out : Bytes) : Prop :=
  ∃ k v t, (k = "result" ∨ k = "error") ∧ Spells loose (.value v) t ∧ v.depth < 2 ^ 64 ∧
    out = replyText k i t

/-- A successful tool call, one text whatever the request was. -/
theorem isReply_text {id text : Bytes} (h : Closed text) {isError : String}
    (he : Literal (ascii isError)) : IsReply id (replyText "result" id (textResult text isError).render) :=
  ⟨_, _, _, Or.inl rfl, spells_text loose_ascii ⟨rfl, h⟩ he,
    by simp [textResult, Value.depth, membersDepth, elemsDepth], rfl⟩

theorem isReply_error (id : Bytes) {code message : String} (hc : Literal (ascii code))
    (hm : (ascii message).all isPlain = true) :
    IsReply id (replyText "error" id (errorValue code message : Value Bytes).render) :=
  ⟨_, _, _, Or.inr rfl, spells_error loose_ascii hc hm,
    by simp [errorValue, Value.depth, membersDepth], rfl⟩

section Answers

variable {p : Profile}

theorem handleToolsCall_ensures (id : Bytes) {paramsRaw : Option Bytes}
    (h : ∀ t ∈ paramsRaw, Skipping p H t) :
    (handleToolsCall p id paramsRaw false).Ensures H (IsReply id) := by
  unfold handleToolsCall
  apply (Scan.ensures_option paramsRaw).bind
  intro params hp
  apply (findCallTarget_ensures (h params hp)).bind
  intro x hx
  obtain ⟨nameRaw, arguments⟩ := x
  obtain ⟨hstr, hargs⟩ := hx
  apply (stringInner_ensures nameRaw).bind
  intro name hname
  have hclosed : Closed name := hstr name hname
  simp only [Bool.false_eq_true, if_false]
  by_cases h1 : name = ascii "answer"
  · rw [if_pos h1, answer_eq]
    exact isReply_text (chars_plain (by decide)).closed (Or.inr (Or.inr (Or.inl rfl)))
  · rw [if_neg h1]
    by_cases h2 : name = ascii "echo"
    · rw [if_pos h2]
      apply (Scan.ensures_option arguments).bind
      intro a ha
      have hskip := (h params hp).within (hargs a ha)
      apply (findRawValue_ensures hskip (ascii "text")).bind
      intro t ht
      apply (stringInner_ensures t).bind
      intro text htext
      rw [text_eq]
      exact isReply_text (ht text htext) (Or.inr (Or.inr (Or.inl rfl)))
    · rw [if_neg h2, unknown_eq]
      exact isReply_text ((chars_plain (by decide)).closed.append hclosed) (Or.inr (Or.inl rfl))

/-- The version of an `initialize`, the default one too, is closed. -/
theorem version_ensures {paramsRaw : Option Bytes} (h : ∀ t ∈ paramsRaw, Skipping p H t) :
    Scan.Ensures H (fun v => Closed (v.getD defaultProtocolVersion))
      (do findProtocolVersion p (← Scan.ofOption paramsRaw)).attempt := by
  have hf : Scan.Ensures H Closed (do findProtocolVersion p (← Scan.ofOption paramsRaw)) :=
    (Scan.ensures_option paramsRaw).bind fun params hp => findProtocolVersion_ensures (h params hp)
  apply hf.attempt.mono
  intro v hv
  cases v with
  | none => exact (chars_plain (by decide)).closed
  | some v => exact hv v rfl

/-- Whatever the parameters were, the answer is a response to the id. -/
theorem dispatchMethod_ensures (m id : Bytes) {paramsRaw : Option Bytes}
    (h : ∀ t ∈ paramsRaw, Skipping p H t) :
    (dispatchMethod p m id paramsRaw false).Ensures H fun
      | .json _ out => IsReply id out
      | _ => False := by
  unfold dispatchMethod
  by_cases h1 : m = ascii "initialize"
  · rw [if_pos h1]
    apply (version_ensures h).bind
    intro v hv
    exact ⟨_, _, _, Or.inl rfl, spells_initialized loose_ascii ⟨rfl, hv⟩,
      by simp [initializeResult, Value.depth, membersDepth], initialize_eq _ _⟩
  · rw [if_neg h1]
    by_cases h2 : m = ascii "tools/list"
    · rw [if_pos h2]
      exact ⟨_, _, _, Or.inl rfl, spells_toolsList loose_ascii,
        by simp [toolsList, toolEntry, Value.depth, membersDepth, elemsDepth], toolsList_eq id⟩
    · rw [if_neg h2]
      by_cases h3 : m = ascii "ping"
      · rw [if_pos h3]
        exact ⟨_, _, _, Or.inl rfl, spells_object .nil, by simp [Value.depth, membersDepth], ping_eq id⟩
      · rw [if_neg h3]
        by_cases h4 : m = ascii "tools/call"
        · rw [if_pos h4]
          apply (handleToolsCall_ensures id h).attempt.bind
          intro out hout
          cases out with
          | some out => exact hout out rfl
          | none =>
            show IsReply id (buildErrorWithId id errInvalidParamsSuffix)
            rw [errInvalidParams_eq]
            exact isReply_error id (literal_negative (by decide) (by decide) (by decide)) (by decide)
        · rw [if_neg h4]
          show IsReply id (buildErrorWithId id errMethodSuffix)
          rw [errMethod_eq]
          exact isReply_error id (literal_negative (by decide) (by decide) (by decide)) (by decide)

/-- A parsed request with a JSON answer has an id, and the answer is a response
to it. -/
theorem dispatchParsed_ensures {body : Bytes} {rpc : Rpc} (hs : Skipping p H body) (h : Parts body rpc) :
    (dispatchParsed p rpc false).Ensures H fun
      | .json _ out => ∃ i, rpc.idRaw = some i ∧ i ≠ ascii "null" ∧ IsReply i out
      | .empty _ => True
      | .sseToolsCall _ => False := by
  rcases dispatchParsed_cases p rpc with ⟨m, i, -, hi, hn, e⟩ | ⟨i, -, hi, hn, e⟩ | e
  · rw [e]
    apply (dispatchMethod_ensures m i fun t ht => hs.within (h.params t ht)).mono
    intro out h
    cases out with
    | json st out => exact ⟨i, hi, hn, h⟩
    | empty st => exact h.elim
    | sseToolsCall f => exact h.elim
  · rw [e, errInvalid_eq]
    exact ⟨i, hi, hn, isReply_error i (literal_negative (by decide) (by decide) (by decide)) (by decide)⟩
  · rw [e]
    trivial

end Answers

/-! ### The round trip -/

theorem IdText.solid {i : Bytes} (h : IdText i) (f : Bytes) : Solid (i ++ f) := by
  rcases h with ⟨r, -, rfl⟩ | ⟨⟨c, u, rfl, -⟩, hd⟩
  · exact solid_cons.mpr (by decide)
  · exact solid_cons.mpr (isBlank_of_isDelim (hd c List.mem_cons_self))

/-- `parse_rpc` reads the id of a response, and no method and no params. -/
theorem parseRpc_reply (p : Profile) {i out : Bytes} (hi : IdText i) (h : IsReply i out) :
    parseRpc p out = .ok ⟨none, some i, none⟩ := by
  obtain ⟨k, v, t, hk, ht, hd, rfl⟩ := h
  have hkey : ascii k ≠ ascii "method" ∧ ascii k ≠ ascii "id" ∧ ascii k ≠ ascii "params" ∧
      Closed (ascii k) := by
    rcases hk with rfl | rfl
    · exact ⟨by decide, by decide, by decide, (chars_plain (by decide)).closed⟩
    · exact ⟨by decide, by decide, by decide, (chars_plain (by decide)).closed⟩
  obtain ⟨h1, h2, h3, hcl⟩ := hkey
  have h20 : Spells loose (.value (.str (ascii "2.0"))) (quoted (ascii "2.0")) :=
    .str ⟨rfl, (chars_plain (by decide)).closed⟩
  have hid : Closed (ascii "id") := (chars_plain (by decide)).closed
  have hj : ascii "jsonrpc" ≠ ascii "method" ∧ ascii "jsonrpc" ≠ ascii "id" ∧
      ascii "jsonrpc" ≠ ascii "params" := by decide
  have hskips := spells_skips loose_scannable p ht hd
  have hskip2 := spells_skips loose_scannable p h20 (by simp [Value.depth])
  have hm : Interior (ReadsAt (cutRpcMember p) rpcUpd)
      [(ascii "jsonrpc", quoted (ascii "2.0")), (ascii "id", i), (ascii k, t)]
      (joinMembers [(ascii "jsonrpc", quoted (ascii "2.0")), (ascii "id", i), (ascii k, t)]) := by
    refine Or.inr (memberTexts_join (List.cons_ne_nil _ _) fun kt hkt => ?_)
    simp only [List.mem_cons, List.not_mem_nil, or_false] at hkt
    rcases hkt with rfl | rfl | rfl
    · refine ⟨(chars_plain (by decide)).closed, hskip2.solid, rpc_reads ⟨?_, ?_, fun _ _ => hskip2⟩⟩
      · exact fun e => absurd e hj.1
      · exact fun e => absurd e hj.2.1
    · refine ⟨hid, hi.solid, rpc_reads ⟨?_, fun _ => hi, ?_⟩⟩
      · exact fun e => absurd e method_ne_id.symm
      · exact fun _ e => absurd rfl e
    · refine ⟨hcl, hskips.solid, rpc_reads ⟨?_, ?_, fun _ _ => hskips⟩⟩
      · exact fun e => absurd e h1
      · exact fun e => absurd e h2
  have e : cutObject _ (cutRpcMember p) .ok Rpc.empty = _ := cutObject_text blank_nil hm [] Rpc.empty
  rw [List.nil_append, List.append_nil] at e
  rw [parseRpc_eq, replyText, e, fold_rpc]
  · simp only [lastOf, h1, h2, h3, if_false, if_true, Rpc.empty, hj.1, hj.2.2, method_ne_id.symm,
      id_ne_params]
    rfl
  · intro m hm' hkm
    simp only [List.mem_cons, List.not_mem_nil, or_false] at hm'
    rcases hm' with rfl | rfl | rfl
    · exact absurd hkm hj.1
    · exact absurd hkm method_ne_id.symm
    · exact absurd hkm h1

/-- From every answer but the parse error `parse_rpc` reads the id of the
request, whatever bytes the request was. -/
theorem dispatch_round_trip (p : Profile) (body : Bytes) (st : ℕ) (out : Bytes)
    (h : dispatchRpc p body false = .ok (.json st out)) (hout : out ≠ errParse) :
    ∃ rpc, parseRpc p body = .ok rpc ∧ parseRpc p out = .ok ⟨none, rpc.idRaw, none⟩ := by
  cases hp : parseRpc p body with
  | fail =>
    rw [dispatchRpc_fail hp] at h
    cases h
    exact absurd rfl hout
  | halt w =>
    rw [dispatchRpc_halt hp] at h
    cases h
  | ok rpc =>
    rw [dispatchRpc_ok hp] at h
    have hs : Skipping p (fun _ => True) body := fun _ _ _ _ => trivial
    have hparts := (parseRpc_ensures hs).of_ok hp
    obtain ⟨i, hi, -, hr⟩ := (dispatchParsed_ensures hs hparts).of_ok h
    refine ⟨rpc, rfl, ?_⟩
    rw [hi]
    exact parseRpc_reply p (hparts.id i hi) hr

theorem dispatch_round_trip_garbage :
    ∃ rpc, parseRpc .checked (ascii "\x7b\"id\":x\x7b,\"method\":\"ping\"\x7d]") = .ok rpc ∧
      parseRpc .checked (ascii "\x7b\"jsonrpc\":\"2.0\",\"id\":x\x7b,\"result\":\x7b\x7d\x7d") =
        .ok ⟨none, rpc.idRaw, none⟩ :=
  dispatch_round_trip .checked _ 200 _ (by decide +kernel) (by decide)

end Mcp
end Statico
