/-
# The reference under a change of spelling

The same `reference` runs on a request as it is written and on what it
denotes. If every string the dispatcher compares with one of its words is
spelled as that word where it denotes it (`PlainWords`), the first answer is
a text of the second (`reference_names`). Read with the lexicon `rfc`, where
a string denotes itself, this says that the answers are well-formed; with
`decoded`, that they do not depend on the spelling.

Key definitions: `PlainWords`, `Answers`, `SameAnswer`.
Key theorems: `reference_names`, `spelling_independent`.
-/
import Statico.Lib.Json.Names
import Statico.Mcp.Reference

namespace Statico
namespace Mcp

open Json

/-! ### Lexicons -/

/-- A lexicon in which plain characters at the front of a string stand for
themselves. -/
structure Transparent {β : Type} [Plain β] (L : Lexicon (List β)) : Prop extends Ascii L where
  append : ∀ {w r : Bytes} {s : List β}, w.all isPlain = true → L.string s r →
    L.string (Plain.ofBytes w ++ s) (w ++ r)
  split : ∀ {w r : Bytes} {s : List β}, w.all isPlain = true → L.string s (w ++ r) →
    ∃ s', s = Plain.ofBytes w ++ s' ∧ L.string s' r
  nil_iff : ∀ {r : Bytes} {s : List β}, L.string s r → (s = [] ↔ r = [])

theorem rfc_transparent : Transparent rfc where
  toAscii := rfc_ascii
  append hw h := ⟨congrArg _ h.1, _, (chars_plain hw).append h.2.choose_spec⟩
  split := by
    rintro w r s hw ⟨rfl, us, h⟩
    obtain ⟨vs, -, h⟩ := h.plain_append hw
    exact ⟨r, rfl, rfl, vs, h⟩
  nil_iff h := by rw [h.1]

theorem decoded_transparent : Transparent decoded where
  toAscii := decoded_ascii
  append hw h := (chars_plain hw).append h
  split hw h := Chars.plain_append h hw
  nil_iff h := Chars.nil_iff h

/-! ### Words -/

section Words

variable {β : Type} [Plain β] (L : Lexicon (List β))

/-- If the content `r` stands for the word `w`, it is spelled `w`. -/
def Plainly (w : String) (r : Bytes) : Prop := L.string (plain w) r → r = ascii w

/-- If the content `r` stands for a method `notifications/…`, it is spelled so. -/
def PlainlyNotification (r : Bytes) : Prop := ∀ s : List β, L.string s r → IsNotification s → IsNotification r

/-- What a request's `params` compare is spelled plainly: two of its keys and
the version's, the tool's name, and a key of its arguments. -/
structure PlainParams (ps : Tree) : Prop where
  keys : ∀ m ∈ ps, Plainly L "protocolVersion" m.1 ∧ Plainly L "name" m.1 ∧ Plainly L "arguments" m.1
  name : ∀ r, lastOf (ascii "name") ps = some (.str r) → Plainly L "answer" r ∧ Plainly L "echo" r
  arguments : ∀ as, lastOf (ascii "arguments") ps = some (.obj as) → ∀ m ∈ as, Plainly L "text" m.1

/-- What the dispatcher compares in a request is spelled plainly. -/
structure PlainWords (ms : Tree) : Prop where
  keys : ∀ m ∈ ms, Plainly L "method" m.1 ∧ Plainly L "id" m.1 ∧ Plainly L "params" m.1
  method : ∀ r, lastOf (ascii "method") ms = some (.str r) → Plainly L "initialize" r ∧
    Plainly L "tools/list" r ∧ Plainly L "ping" r ∧ Plainly L "tools/call" r ∧ PlainlyNotification L r
  params : ∀ ps, lastOf (ascii "params") ms = some (.obj ps) → PlainParams L ps

variable {L} (hL : Transparent L) {r : Bytes} {w : String}
include hL

theorem Plainly.iff (h : Plainly L w r) (hw : (ascii w).all isPlain = true := by decide) {s : List β}
    (hs : L.string s r) : s = plain w ↔ r = ascii w := by
  constructor
  · rintro rfl
    exact h hs
  · rintro rfl
    rw [← List.append_nil (ascii w)] at hs
    obtain ⟨s', rfl, hs'⟩ := hL.split hw hs
    rw [(hL.nil_iff hs').mpr rfl, List.append_nil]

theorem Plainly.tells (h : Plainly L w r) (hw : (ascii w).all isPlain = true := by decide) :
    Tells L (plain w) (ascii w) r := fun _ hs => h.iff hL hw hs

theorem PlainlyNotification.iff (h : PlainlyNotification L r) {s : List β} (hs : L.string s r) :
    IsNotification s ↔ IsNotification r := by
  refine ⟨h s hs, ?_⟩
  rintro ⟨⟨t, rfl⟩, hne⟩
  obtain ⟨s', rfl, hs'⟩ := hL.split (by decide) hs
  refine ⟨List.prefix_append _ _, fun e => hne ?_⟩
  have : s' = [] := List.append_cancel_left (e.trans (List.append_nil _).symm)
  rw [(hL.nil_iff hs').mp this, List.append_nil]

end Words

/-! ### The reference -/

section Names

variable {β : Type} [Plain β] {L : Lexicon (List β)}

/-- The text of the value is a text of the other value. -/
abbrev Texts (L : Lexicon (List β)) (v : Value Bytes) (w : Value (List β)) : Prop :=
  Spells L (.value w) v.render

/-- The answer in bytes is a text of the other answer. -/
inductive Answers (L : Lexicon (List β)) : Response UInt8 → Response β → Prop
  | empty (status : ℕ) : Answers L (.empty status) (.empty status)
  | json (status : ℕ) {v : Value Bytes} {w : Value (List β)} : Texts L v w →
      Answers L (.json status v) (.json status w)
  | event {v : Value Bytes} {w : Value (List β)} : Texts L v w → Answers L (.event v) (.event w)

variable (hL : Transparent L)
include hL

theorem reply_names (k : String) {id v : Value Bytes} {id' v' : Value (List β)}
    (hid : NamesValue L id id') (hv : Texts L v v') (hk : (ascii k).all isPlain = true := by decide) :
    Texts L (reply k id v) (reply k id' v') := by
  rw [Texts, render_reply]
  exact spells_reply hL.toAscii k hid.render hv hk

theorem error_names {id : Value Bytes} {id' : Value (List β)} (hid : NamesValue L id id')
    {code message : String} (hc : Literal (ascii code))
    (hm : (ascii message).all isPlain = true := by decide) :
    Texts L (errorReply id code message) (errorReply id' code message) :=
  reply_names hL "error" hid (spells_error hL.toAscii hc hm)

variable [DecidableEq β]

theorem first_names {v : Value Bytes} {v' : Value (List β)} (h : NamesValue L v v') {w : String}
    (hw : ∀ ms, v = .obj ms → ∀ m ∈ ms, Plainly L w m.1)
    (hp : (ascii w).all isPlain = true := by decide) :
    Option.Rel (NamesValue L) (v.first (ascii w)) (v'.first (plain w)) := by
  cases h with
  | lit _ => exact .none
  | str _ => exact .none
  | arr _ => exact .none
  | obj h => exact names_first h fun m hm => (hw _ rfl m hm).tells hL hp

theorem last_names {v : Value Bytes} {v' : Value (List β)} (h : NamesValue L v v') {w : String}
    (hw : ∀ ms, v = .obj ms → ∀ m ∈ ms, Plainly L w m.1)
    (hp : (ascii w).all isPlain = true := by decide) :
    Option.Rel (NamesValue L) (v.last (ascii w)) (v'.last (plain w)) := by
  cases h with
  | lit _ => exact .none
  | str _ => exact .none
  | arr _ => exact .none
  | obj h => exact names_last h fun m hm => (hw _ rfl m hm).tells hL hp

omit hL in
theorem echoText_eq (params : Value (List β)) : echoText params =
    (params.last (plain "arguments")).bind fun arguments =>
      (arguments.first (plain "text")).bind Value.asStr := rfl

/-- The text an `echo` gives back. -/
theorem echo_names {ps : Value Bytes} {ps' : Value (List β)} (h : NamesValue L ps ps')
    (hw : ∀ ms, ps = .obj ms → PlainParams L ms) :
    Option.Rel (fun r s => L.string s r) (echoText ps) (echoText ps') := by
  rw [echoText_bytes, echoText_eq]
  have ha := last_names hL h fun ms e m hm => ((hw ms e).keys m hm).2.2
  have hpl : ∀ as, ps.last (ascii "arguments") = some (.obj as) → ∀ m ∈ as, Plainly L "text" m.1 := by
    intro as e
    cases h with
    | obj _ => exact (hw _ rfl).arguments as e
    | lit _ => cases e
    | str _ => cases e
    | arr _ => cases e
  generalize ps.last (ascii "arguments") = x at ha hpl ⊢
  generalize ps'.last (plain "arguments") = y at ha ⊢
  cases ha with
  | none => exact .none
  | @some as as' ha =>
    have ht := first_names hL ha fun ms e => hpl ms (congrArg some e)
    simp only [Option.bind_some]
    generalize as.first (ascii "text") = x at ht ⊢
    generalize as'.first (plain "text") = y at ht ⊢
    cases ht with
    | none => exact .none
    | some ht => exact ht.asStr

omit hL in
theorem callTool_some (params : Value (List β)) : callTool (some params) =
    (params.last (plain "name")).bind fun name => name.asStr.bind fun name =>
      if name = plain "answer" then some (textResult (plain "42") "false")
      else if name = plain "echo" then (echoText params).map (textResult · "false")
      else some (textResult (plain "unknown tool " ++ name) "true") := rfl

/-- The result of a `tools/call`. -/
theorem callTool_names {params : Option (Value Bytes)} {params' : Option (Value (List β))}
    (h : Option.Rel (NamesValue L) params params') (hw : ∀ ms, params = some (.obj ms) → PlainParams L ms) :
    Option.Rel (Texts L) (callTool params) (callTool params') := by
  cases h with
  | none => exact .none
  | @some ps ps' h =>
    have hw' : ∀ ms, ps = .obj ms → PlainParams L ms := fun ms e => hw ms (congrArg some e)
    have he := echo_names hL h hw'
    have hn := last_names hL h fun ms e m hm => ((hw' ms e).keys m hm).2.1
    have hpl : ∀ r, ps.last (ascii "name") = some (.str r) → Plainly L "answer" r ∧ Plainly L "echo" r := by
      intro r e
      cases h with
      | obj _ => exact (hw' _ rfl).name r e
      | lit _ => cases e
      | str _ => cases e
      | arr _ => cases e
    rw [callTool_bytes, callTool_some]
    generalize ps.last (ascii "name") = x at hn hpl ⊢
    generalize ps'.last (plain "name") = y at hn ⊢
    cases hn with
    | none => exact .none
    | @some n n' hn =>
      cases hn with
      | lit _ => exact .none
      | arr _ => exact .none
      | obj _ => exact .none
      | @str s r hs =>
        obtain ⟨h1, h2⟩ := hpl r rfl
        simp only [Option.bind_some, Value.asStr]
        by_cases hr : r = ascii "answer"
        · rw [if_pos hr, if_pos ((h1.iff hL (by decide) hs).mpr hr)]
          exact .some (spells_text hL.toAscii (hL.string (by decide)) (Or.inr (Or.inr (Or.inl rfl))))
        · rw [if_neg hr, if_neg (mt (h1.iff hL (by decide) hs).mp hr)]
          by_cases hr : r = ascii "echo"
          · rw [if_pos hr, if_pos ((h2.iff hL (by decide) hs).mpr hr)]
            generalize echoText ps = x at he ⊢
            generalize echoText ps' = y at he ⊢
            cases he with
            | none => exact .none
            | some he => exact .some (spells_text hL.toAscii he (Or.inr (Or.inr (Or.inl rfl))))
          · rw [if_neg hr, if_neg (mt (h2.iff hL (by decide) hs).mp hr)]
            exact .some (spells_text hL.toAscii (hL.append (by decide) hs) (Or.inr (Or.inl rfl)))

/-- The version of an `initialize`. -/
theorem version_names {params : Option (Value Bytes)} {params' : Option (Value (List β))}
    (h : Option.Rel (NamesValue L) params params') (hw : ∀ ms, params = some (.obj ms) → PlainParams L ms) :
    L.string (requestedVersion params') (requestedVersion params) := by
  have hdefault : L.string (plain "2025-06-18") (ascii "2025-06-18") := hL.string (by decide)
  rw [requestedVersion_bytes, requestedVersion]
  cases h with
  | none => exact hdefault
  | @some ps ps' h =>
    have hv := first_names hL h fun ms e m hm => ((hw ms (congrArg some e)).keys m hm).1
    rw [Option.bind_some, Option.bind_some]
    generalize ps.first (ascii "protocolVersion") = x at hv ⊢
    generalize ps'.first (plain "protocolVersion") = y at hv ⊢
    cases hv with
    | none => exact hdefault
    | @some v v' hv =>
      have hs := hv.asStr
      rw [Option.bind_some, Option.bind_some]
      generalize v.asStr = x at hs ⊢
      generalize v'.asStr = y at hs ⊢
      cases hs with
      | none => exact hdefault
      | some hs => exact hs

/-- The answer to a method. -/
theorem answer_names {m : Bytes} {m' : List β} {id : Value Bytes} {id' : Value (List β)}
    {params : Option (Value Bytes)} {params' : Option (Value (List β))} (hm : L.string m' m)
    (hid : NamesValue L id id') (h : Option.Rel (NamesValue L) params params')
    (hw : ∀ ms, params = some (.obj ms) → PlainParams L ms)
    (hp : Plainly L "initialize" m ∧ Plainly L "tools/list" m ∧ Plainly L "ping" m ∧ Plainly L "tools/call" m)
    (sse : Bool) : Answers L (answer m id params sse) (answer m' id' params' sse) := by
  obtain ⟨p1, p2, p3, p4⟩ := hp
  have hc := callTool_names hL h hw
  rw [answer_bytes, answer]
  by_cases h1 : m = ascii "initialize"
  · rw [if_pos h1, if_pos ((p1.iff hL (by decide) hm).mpr h1)]
    exact .json 200 (reply_names hL "result" hid (spells_initialized hL.toAscii (version_names hL h hw)))
  rw [if_neg h1, if_neg (mt (p1.iff hL (by decide) hm).mp h1)]
  by_cases h2 : m = ascii "tools/list"
  · rw [if_pos h2, if_pos ((p2.iff hL (by decide) hm).mpr h2)]
    exact .json 200 (reply_names hL "result" hid (spells_toolsList hL.toAscii))
  rw [if_neg h2, if_neg (mt (p2.iff hL (by decide) hm).mp h2)]
  by_cases h3 : m = ascii "ping"
  · rw [if_pos h3, if_pos ((p3.iff hL (by decide) hm).mpr h3)]
    exact .json 200 (reply_names hL "result" hid (spells_object .nil))
  rw [if_neg h3, if_neg (mt (p3.iff hL (by decide) hm).mp h3)]
  by_cases h4 : m = ascii "tools/call"
  · rw [if_pos h4, if_pos ((p4.iff hL (by decide) hm).mpr h4)]
    generalize callTool params = x at hc ⊢
    generalize callTool params' = y at hc ⊢
    cases hc with
    | none => exact .json 200 (error_names hL hid (literal_negative (by decide) (by decide) (by decide)))
    | some hc =>
      have hr := reply_names hL "result" hid hc
      cases sse with
      | false => exact .json 200 hr
      | true => exact .event hr
  · rw [if_neg h4, if_neg (mt (p4.iff hL (by decide) hm).mp h4)]
    exact .json 200 (error_names hL hid (literal_negative (by decide) (by decide) (by decide)))

section Request

variable {ms : Tree} {ms' : Members β}

theorem requestId_names (h : Names L (.members ms) (.members ms')) (hw : PlainWords L ms) :
    Option.Rel (NamesValue L) (requestId ms) (requestId ms') := by
  have hid := names_last h fun m hm => (hw.keys m hm).2.1.tells hL
  rw [requestId_bytes, requestId]
  generalize lastOf (ascii "id") ms = x at hid ⊢
  generalize lastOf (plain "id") ms' = y at hid ⊢
  cases hid with
  | none => exact .none
  | some hid =>
    cases hid with
    | @lit t ht =>
      by_cases hn : t = ascii "null"
      · simp only [if_pos hn]
        exact .none
      · simp only [if_neg hn]
        exact .some (.lit ht)
    | str h => exact .some (.str h)
    | arr h => exact .some (.arr h)
    | obj h => exact .some (.obj h)

/-- The answer to a request as it is written is a text of the answer to what
it denotes. -/
theorem reference_names (h : Names L (.members ms) (.members ms')) (hw : PlainWords L ms) (sse : Bool) :
    Answers L (reference ms sse) (reference ms' sse) := by
  have hid := requestId_names hL h hw
  have hm := names_last h fun m hm => (hw.keys m hm).1.tells hL
  have hps := names_last h fun m hm => (hw.keys m hm).2.2.tells hL
  have hpl := hw.method
  have null : NamesValue L (.lit (ascii "null")) (.lit (ascii "null")) := .lit (hL.literal (Or.inl rfl))
  have parseError : Texts L (errorReply (.lit (ascii "null")) "-32700" "Parse error")
      (errorReply (.lit (ascii "null")) "-32700" "Parse error") :=
    error_names hL null (literal_negative (by decide) (by decide) (by decide))
  rw [reference_bytes, reference]
  generalize lastOf (ascii "method") ms = x at hm hpl ⊢
  generalize lastOf (plain "method") ms' = y at hm ⊢
  generalize requestId ms = i at hid ⊢
  generalize requestId ms' = j at hid ⊢
  cases hm with
  | none =>
    cases hid with
    | none => exact .empty 202
    | some hid => exact .json 400 (error_names hL hid (literal_negative (by decide) (by decide) (by decide)))
  | some hm =>
    cases hm with
    | @str m' m hm =>
      cases hid with
      | none => exact .empty 202
      | some hid =>
        obtain ⟨p1, p2, p3, p4, p5⟩ := hpl m rfl
        by_cases hn : IsNotification m
        · simp only [if_pos hn, if_pos ((p5.iff hL hm).mpr hn)]
          exact .empty 202
        · simp only [if_neg hn, if_neg (mt (p5.iff hL hm).mp hn)]
          exact answer_names hL hm hid hps hw.params ⟨p1, p2, p3, p4⟩ sse
    | lit _ => cases hid <;> exact .json 400 parseError
    | arr _ => cases hid <;> exact .json 400 parseError
    | obj _ => cases hid <;> exact .json 400 parseError

omit [DecidableEq β] in
theorem scalarIds_names (h : Names L (.members ms) (.members ms')) (hw : PlainWords L ms)
    (hid : ScalarIds ms') : ScalarIds ms := by
  intro m hm hk
  obtain ⟨m', hm', hs, hv⟩ := mem_of_forall₂ (names_members h) hm
  rcases hid m' hm' (((hw.keys m hm).2.1.iff hL (by decide) hs).mpr hk) with ⟨s, e⟩ | ⟨t, e⟩
  · rw [e] at hv
    generalize m.2 = v at hv ⊢
    cases hv
    exact Or.inl ⟨_, rfl⟩
  · rw [e] at hv
    generalize m.2 = v at hv ⊢
    cases hv
    exact Or.inr ⟨_, rfl⟩

omit [DecidableEq β] in
theorem stringMethods_names (h : Names L (.members ms) (.members ms')) (hw : PlainWords L ms) :
    StringMethods ms ↔ StringMethods ms' := by
  constructor
  · intro hm m' hm' hk
    obtain ⟨m, hmem, hs, hv⟩ := mem_of_forall₂ (names_members h).flip hm'
    obtain ⟨r, e⟩ := hm m hmem (((hw.keys m hmem).1.iff hL (by decide) hs).mp hk)
    rw [e] at hv
    generalize m'.2 = v at hv ⊢
    cases hv
    exact ⟨_, rfl⟩
  · intro hm m hmem hk
    obtain ⟨m', hm', hs, hv⟩ := mem_of_forall₂ (names_members h) hmem
    obtain ⟨s, e⟩ := hm m' hm' (((hw.keys m hmem).1.iff hL (by decide) hs).mpr hk)
    rw [e] at hv
    generalize m.2 = v at hv ⊢
    cases hv
    exact ⟨_, rfl⟩

end Request

end Names

/-! ### Two spellings -/

/-- The body is a well-formed text of the tree `ms`, which stands for `W`. -/
def Denotes (b : Bytes) (ms : Tree) (W : Members ℕ) : Prop :=
  Document rfc (.obj ms) b ∧ Names decoded (.members ms) (.members W)

/-- Two outputs with the same status that say the same. -/
inductive SameAnswer : DispatchOutput → DispatchOutput → Prop
  | empty (status : ℕ) : SameAnswer (.empty status) (.empty status)
  | json (status : ℕ) {x y : Bytes} {v : Value (List ℕ)} : Document decoded v x → Document decoded v y →
      SameAnswer (.json status x) (.json status y)
  | event {x y : Bytes} {v : Value (List ℕ)} : Document decoded v x → Document decoded v y →
      SameAnswer (.sseToolsCall (EventStream.frame x)) (.sseToolsCall (EventStream.frame y))

theorem sameAnswer_of_answers {r s : Response UInt8} {R : Response ℕ} (hr : Answers decoded r R)
    (hs : Answers decoded s R) : SameAnswer r.output s.output := by
  cases hr with
  | empty status => cases hs; exact .empty status
  | json status hr =>
    cases hs with
    | json _ hs => exact .json status hr.document hs.document
  | event hr =>
    cases hs with
    | event hs => exact .event hr.document hs.document

section Denotes

variable {p : Profile} {body : Slice} {ms : Tree} {W : Members ℕ}

theorem dispatch_denotes (h : Denotes body.bytes ms W) (hid : ScalarIds W) (hw : PlainWords decoded ms)
    (hm : StringMethods W) (sse : Bool) :
    ∃ r, dispatchRpc p body.bytes sse = .ok (Response.output r) ∧ Answers decoded r (reference W sse) :=
  ⟨_, dispatch_reference p body ms sse h.1 ((stringMethods_names decoded_transparent h.2 hw).mpr hm)
    (scalarIds_names decoded_transparent h.2 hw hid), reference_names decoded_transparent h.2 hw sse⟩

theorem dispatch_denotes_bad (h : Denotes body.bytes ms W) (hid : ScalarIds W) (hw : PlainWords decoded ms)
    (hm : ¬ StringMethods W) (sse : Bool) : dispatchRpc p body.bytes sse = .ok (.json 400 errParse) :=
  dispatchRpc_fail (parseRpc_badMethod rfc_scannable rfc_raw p h.1 h.1.membersDepth_lt
    (scalarIds_names decoded_transparent h.2 hw hid)
    (mt (stringMethods_names decoded_transparent h.2 hw).mp hm)) sse

end Denotes

/-! #### Concrete texts -/

/-- Plain content stands for itself alone. -/
theorem decoded_plain {r : Bytes} {us : List ℕ} (h : Chars r us) (hr : r.all isPlain = true) :
    us = r.map UInt8.toNat := by
  rw [← List.append_nil r] at h
  obtain ⟨vs, rfl, hvs⟩ := h.plain_append hr
  rw [hvs.nil_iff.mpr rfl, List.append_nil]

theorem plainly_of_plain {r : Bytes} (hr : r.all isPlain = true) (w : String) : Plainly decoded w r :=
  fun h => (List.map_injective_iff.mpr (fun _ _ => UInt8.toNat_inj.mp) (decoded_plain h hr)).symm

/-- `{"id":…,"method":"ping"}` with the key and the id as given. -/
def pingBody (key id : Bytes) : Bytes :=
  objectText (joinMembers [(ascii "id", id), (key, quoted (ascii "ping"))])

theorem denotes_ping {key : Bytes} {id : Value Bytes} {id' : Value (List ℕ)}
    (hk : Chars key (plain "method")) (hid : Spells rfc (.value id) id.render) (hn : NamesValue decoded id id') :
    Denotes (pingBody key id.render) [(ascii "id", id), (key, .str (ascii "ping"))]
      [(plain "id", id'), (plain "method", .str (plain "ping"))] := by
  refine ⟨(spells_object (.cons (written_plain rfc_ascii "id" hid) (.cons ⟨⟨rfl, _, hk⟩,
    spells_plain rfc_ascii "ping"⟩ .nil))).document, ?_⟩
  exact .members (chars_plain (by decide)) hn (.members hk (.str (chars_plain (by decide))) .noMembers)

/-- An escape of the form `\u00XY`, and plain characters. -/
theorem chars_escaped {x y : UInt8} {u v : ℕ} (r : Bytes) (hx : hexVal x = some u)
    (hy : hexVal y = some v) (hr : r.all isPlain = true) :
    Chars (byte '\\' :: byte 'u' :: byte '0' :: byte '0' :: x :: y :: r)
      ((u * 16 + v) :: r.map UInt8.toNat) := by
  have h0 : hexVal (byte '0') = some 0 := by decide
  have := Chars.cons (.unicode h0 h0 hx hy) (chars_plain hr)
  simpa using this

theorem plainWords_ping (r : Bytes) :
    PlainWords decoded [(ascii "id", .str r), (ascii "method", .str (ascii "ping"))] := by
  have hping : ∀ w, Plainly decoded w (ascii "ping") := plainly_of_plain (by decide)
  have hid : ∀ w, Plainly decoded w (ascii "id") := plainly_of_plain (by decide)
  have hmethod : ∀ w, Plainly decoded w (ascii "method") := plainly_of_plain (by decide)
  refine ⟨fun m hm => ?_, fun s h => ?_, fun ps h => ?_⟩
  · rcases List.mem_cons.mp hm with rfl | hm
    · exact ⟨hid _, hid _, hid _⟩
    · rw [List.mem_singleton.mp hm]
      exact ⟨hmethod _, hmethod _, hmethod _⟩
  · rw [show lastOf (ascii "method") _ = some (.str (ascii "ping")) from rfl] at h
    cases h
    refine ⟨hping _, hping _, hping _, hping _, fun s hs hn => ?_⟩
    rw [decoded_plain hs (by decide)] at hn
    exact absurd hn (by decide)
  · rw [show lastOf (ascii "params") _ = none from rfl] at h
    cases h

/-- Two texts of one request get the same answer, if both spell plainly what
the dispatcher compares. -/
theorem spelling_independent (p : Profile) (b c : Slice) (ms ns : Tree) (W : Members ℕ) (sse : Bool)
    (hb : Denotes b.bytes ms W) (hc : Denotes c.bytes ns W) (hid : ScalarIds W)
    (hms : PlainWords decoded ms) (hns : PlainWords decoded ns) :
    ∃ x y, dispatchRpc p b.bytes sse = .ok x ∧ dispatchRpc p c.bytes sse = .ok y ∧ SameAnswer x y := by
  by_cases hm : StringMethods W
  · obtain ⟨r, hr, har⟩ := dispatch_denotes hb hid hms hm sse
    obtain ⟨s, hs, has⟩ := dispatch_denotes hc hid hns hm sse
    exact ⟨_, _, hr, hs, sameAnswer_of_answers har has⟩
  · have herr : Document decoded (errorReply (.lit (ascii "null")) "-32700" "Parse error") errParse := by
      have null : NamesValue decoded (.lit (ascii "null")) (.lit (ascii "null")) := .lit (Or.inl rfl)
      rw [errParse_eq]
      exact (error_names decoded_transparent null
        (literal_negative (by decide) (by decide) (by decide))).document
    exact ⟨_, _, dispatch_denotes_bad hb hid hms hm sse, dispatch_denotes_bad hc hid hns hm sse,
      .json 400 herr herr⟩

/-- The ids `"a"` and `"\u0061"` are the same. -/
theorem spelling_independent_id :
    ∃ x y, dispatchRpc .release (pingBody (ascii "method") (quoted (ascii "a"))) false = .ok x ∧
      dispatchRpc .release (pingBody (ascii "method") (quoted (ascii "\\u0061"))) false = .ok y ∧
      SameAnswer x y := by
  have ha : Chars (ascii "a") (plain "a") := chars_plain (by decide)
  have hu : Chars (ascii "\\u0061") (plain "a") := chars_escaped [] (u := 6) (v := 1) (by decide) (by decide) rfl
  have hm : Chars (ascii "method") (plain "method") := chars_plain (by decide)
  have hx := denotes_ping hm (.str ⟨rfl, _, ha⟩) (.str ha)
  have hy := denotes_ping hm (.str ⟨rfl, _, hu⟩) (.str hu)
  exact spelling_independent .release ⟨pingBody (ascii "method") (quoted (ascii "a")), by decide⟩
    ⟨pingBody (ascii "method") (quoted (ascii "\\u0061")), by decide⟩ _ _ _ false hx hy
    (by simp [ScalarIds, IsScalar]) (plainWords_ping _) (plainWords_ping _)

/-- The key `"\u006dethod"` is not read as `"method"`. -/
theorem spelling_dependent_key :
    ¬ (∀ (b c : Slice) (ms ns : Tree) (W : Members ℕ), Denotes b.bytes ms W → Denotes c.bytes ns W →
      ScalarIds W → ∃ x y, dispatchRpc .release b.bytes false = .ok x ∧
        dispatchRpc .release c.bytes false = .ok y ∧ SameAnswer x y) := by
  intro h
  have h1 : Literal (ascii "1") := literal_integer (Or.inl rfl) (by decide) (by decide) (by decide)
  have hm : Chars (ascii "method") (plain "method") := chars_plain (by decide)
  have hu : Chars (ascii "\\u006dethod") (plain "method") := chars_escaped (ascii "ethod") (u := 6) (v := 13) (by decide) (by decide) (by decide)
  have hb := denotes_ping hm (.lit h1) (.lit h1)
  have hc := denotes_ping hu (.lit h1) (.lit h1)
  obtain ⟨x, y, hx, hy, hxy⟩ := h ⟨pingBody (ascii "method") (ascii "1"), by decide⟩
    ⟨pingBody (ascii "\\u006dethod") (ascii "1"), by decide⟩ _ _ _ hb hc (by simp [ScalarIds, IsScalar])
  have ex : dispatchRpc .release (pingBody (ascii "method") (ascii "1")) false =
      .ok (.json 200 (ascii "\x7b\"jsonrpc\":\"2.0\",\"id\":1,\"result\":\x7b\x7d\x7d")) := by decide +kernel
  have ey : dispatchRpc .release (pingBody (ascii "\\u006dethod") (ascii "1")) false =
      .ok (.json 400 (buildErrorWithId (ascii "1") errInvalidSuffix)) := by decide +kernel
  rw [ex] at hx
  rw [ey] at hy
  cases hx
  cases hy
  cases hxy

end Mcp
end Statico
