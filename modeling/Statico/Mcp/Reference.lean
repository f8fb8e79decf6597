/-
# The dispatcher against a reference on trees

`reference` says what the answer to a request is from its tree alone: which
member counts when a key is repeated, when a request is a notification, and
what each method answers. `dispatch_reference`: on every text of the tree the
dispatcher gives that answer.

Key definitions: `reference`, `callTool`, `requestId`.
Key theorems: `parseRpc_document`, `findCallTarget_value`,
`dispatch_reference`.
-/
import Statico.Mcp.Members
import Statico.Mcp.Response

namespace Statico
namespace Mcp

open Json

/-! ### The reference -/

/-- The top-level members of a request, with strings of characters `β`. -/
abbrev Members (β : Type) : Type := List (List β × Value (List β))

/-- The request as it is written. -/
abbrev Tree : Type := Members UInt8

/-- An answer: a status alone, a status and a value, or the value of an event. -/
inductive Response (β : Type) where
  | empty (status : ℕ)
  | json (status : ℕ) (v : Value (List β))
  | event (v : Value (List β))

section Reference

variable {β : Type} [DecidableEq β] [Plain β]

/-- The id of a request that wants an answer: `null` is none. -/
def requestId (ms : Members β) : Option (Value (List β)) :=
  match lastOf (plain "id") ms with
  | some (.lit t) => if t = ascii "null" then none else some (.lit t)
  | id => id

/-- The text an `echo` is asked for. -/
def echoText (params : Value (List β)) : Option (List β) := do
  let text ← (← params.last (plain "arguments")).first (plain "text")
  text.asStr

/-- The result of a `tools/call`, or `none` for invalid parameters. -/
def callTool (params : Option (Value (List β))) : Option (Value (List β)) := do
  let params ← params
  let name ← (← params.last (plain "name")).asStr
  if name = plain "answer" then some (textResult (plain "42") "false")
  else if name = plain "echo" then (echoText params).map (textResult · "false")
  else some (textResult (plain "unknown tool " ++ name) "true")

/-- The version an `initialize` asks for. -/
def requestedVersion (params : Option (Value (List β))) : List β :=
  ((params.bind (·.first (plain "protocolVersion"))).bind Value.asStr).getD (plain "2025-06-18")

/-- The answer to a request with a method and an id. -/
def answer (m : List β) (id : Value (List β)) (params : Option (Value (List β))) (sse : Bool) :
    Response β :=
  if m = plain "initialize" then .json 200 (resultReply id (initializeResult (requestedVersion params)))
  else if m = plain "tools/list" then .json 200 (resultReply id toolsList)
  else if m = plain "ping" then .json 200 (resultReply id (.obj []))
  else if m = plain "tools/call" then
    match callTool params with
    | some result => if sse then .event (resultReply id result) else .json 200 (resultReply id result)
    | none => .json 200 (errorReply id "-32602" "Invalid params")
  else .json 200 (errorReply id "-32601" "Method not found")

/-- A method of the form `notifications/…`. -/
def IsNotification (m : List β) : Prop := plain "notifications/" <+: m ∧ m ≠ plain "notifications/"

instance (m : List β) : Decidable (IsNotification m) :=
  inferInstanceAs (Decidable (plain "notifications/" <+: m ∧ m ≠ plain "notifications/"))

/-- The answer to a request from its tree. -/
def reference (ms : Members β) (sse : Bool) : Response β :=
  match lastOf (plain "method") ms, requestId ms with
  | none, none => .empty 202
  | none, some id => .json 400 (errorReply id "-32600" "Invalid Request")
  | some (.str _), none => .empty 202
  | some (.str m), some id =>
    if IsNotification m then .empty 202 else answer m id (lastOf (plain "params") ms) sse
  | some _, _ => .json 400 (errorReply (.lit (ascii "null")) "-32700" "Parse error")

/-- Every top-level `method` is a string. -/
def StringMethods (ms : Members β) : Prop := ∀ m ∈ ms, m.1 = plain "method" → ∃ s, m.2 = .str s

/-- A string, a number, `true`, `false` or `null`. -/
def IsScalar (v : Value (List β)) : Prop := (∃ s, v = .str s) ∨ ∃ t, v = .lit t

/-- Every top-level `id` is a scalar. -/
def ScalarIds (ms : Members β) : Prop := ∀ m ∈ ms, m.1 = plain "id" → IsScalar m.2

end Reference

/-- The answer in bytes. -/
def Response.output : Response UInt8 → DispatchOutput
  | .empty status => .empty status
  | .json status v => .json status v.render
  | .event v => .sseToolsCall (EventStream.frame v.render)

/-! ### The reference on bytes -/

theorem echoText_bytes (params : Value Bytes) : echoText params =
    (params.last (ascii "arguments")).bind fun arguments =>
      (arguments.first (ascii "text")).bind Value.asStr := rfl

theorem callTool_bytes (params : Value Bytes) : callTool (some params) =
    (params.last (ascii "name")).bind fun name => name.asStr.bind fun name =>
      if name = ascii "answer" then some (textResult (ascii "42") "false")
      else if name = ascii "echo" then (echoText params).map (textResult · "false")
      else some (textResult (ascii "unknown tool " ++ name) "true") := rfl

theorem requestedVersion_bytes (params : Option (Value Bytes)) : requestedVersion params =
    ((params.bind (·.first (ascii "protocolVersion"))).bind Value.asStr).getD (ascii "2025-06-18") := rfl

theorem answer_bytes (m : Bytes) (id : Value Bytes) (params : Option (Value Bytes)) (sse : Bool) :
    answer m id params sse =
      if m = ascii "initialize" then .json 200 (resultReply id (initializeResult (requestedVersion params)))
      else if m = ascii "tools/list" then .json 200 (resultReply id toolsList)
      else if m = ascii "ping" then .json 200 (resultReply id (.obj []))
      else if m = ascii "tools/call" then
        match callTool params with
        | some result => if sse then .event (resultReply id result) else .json 200 (resultReply id result)
        | none => .json 200 (errorReply id "-32602" "Invalid params")
      else .json 200 (errorReply id "-32601" "Method not found") := by
  unfold answer
  cases callTool params <;> rfl

theorem requestId_bytes (ms : Tree) : requestId ms =
    match lastOf (ascii "id") ms with
    | some (.lit t) => if t = ascii "null" then none else some (.lit t)
    | id => id := by
  unfold requestId
  rw [show lastOf (plain "id") ms = lastOf (ascii "id") ms from rfl]
  rcases lastOf (ascii "id") ms with _ | _ | _ | _ | _ <;> rfl

theorem reference_bytes (ms : Tree) (sse : Bool) : reference ms sse =
    match lastOf (ascii "method") ms, requestId ms with
    | none, none => .empty 202
    | none, some id => .json 400 (errorReply id "-32600" "Invalid Request")
    | some (.str _), none => .empty 202
    | some (.str m), some id =>
      if IsNotification m then .empty 202 else answer m id (lastOf (ascii "params") ms) sse
    | some _, _ => .json 400 (errorReply (.lit (ascii "null")) "-32700" "Parse error") := by
  unfold reference
  rw [show lastOf (plain "method") ms = lastOf (ascii "method") ms from rfl]
  rcases lastOf (ascii "method") ms with _ | _ | _ | _ | _ <;> cases requestId ms <;> rfl

/-! ### Values and their texts -/

section Values

variable {L : Lexicon Bytes} {v : Value Bytes} {t : Bytes}

theorem shape_of_spells (hL : L.Scannable) (h : Spells L (.value v) t) : Shape t := by
  cases h with
  | lit h =>
    obtain ⟨hne, hb⟩ := hL.token h
    obtain ⟨c, u, rfl⟩ := List.exists_cons_of_ne_nil hne
    exact Or.inr ⟨c, u, rfl, (hb c List.mem_cons_self).2.1⟩
  | str h => exact Or.inl ⟨_, hL.closed h, rfl⟩
  | arrEmpty _ => exact Or.inr ⟨_, _, rfl, by decide⟩
  | arr _ => exact Or.inr ⟨_, _, rfl, by decide⟩
  | objEmpty _ => exact Or.inr ⟨_, _, rfl, by decide⟩
  | obj _ => exact Or.inr ⟨_, _, rfl, by decide⟩

/-- The inside of a raw value is the string it is. -/
theorem stringInner_value (hL : L.Scannable) (hraw : L.Raw) (h : Spells L (.value v) t) :
    stringInner t = Scan.ofOption v.asStr := by
  cases h with
  | lit h =>
    obtain ⟨hne, hb⟩ := hL.token h
    obtain ⟨c, u, rfl⟩ := List.exists_cons_of_ne_nil hne
    exact stringInner_other (hb c List.mem_cons_self).2.1 u
  | str h =>
    rw [stringInner_quoted, ← hraw h]
    rfl
  | arrEmpty _ => exact stringInner_other (by decide) _
  | arr _ => exact stringInner_other (by decide) _
  | objEmpty _ => exact stringInner_other (by decide) _
  | obj _ => exact stringInner_other (by decide) _

theorem idText_of_scalar (hL : L.Scannable) (h : Spells L (.value v) t) (hv : IsScalar v) :
    IdText t := by
  rcases hv with ⟨s, rfl⟩ | ⟨u, rfl⟩
  · cases h with
    | str h => exact Or.inl ⟨_, hL.closed h, rfl⟩
  · cases h with
    | lit h =>
      obtain ⟨hne, hb⟩ := hL.token h
      obtain ⟨c, u, rfl⟩ := List.exists_cons_of_ne_nil hne
      exact Or.inr ⟨⟨c, u, rfl, (hb c List.mem_cons_self).2.1⟩, fun b h => (hb b h).1⟩

/-- The text of anything but an object starts with no brace. -/
theorem no_brace (hL : L.Scannable) (h : Spells L (.value v) t) (hv : ∀ ms, v ≠ .obj ms) :
    ∀ c u, t = c :: u → c ≠ byte '{' ∧ isBlank c = false := by
  intro c u e
  subst e
  have hb : isBlank c = false := h.solid hL [] c u (List.append_nil _)
  refine ⟨?_, hb⟩
  rintro rfl
  generalize hs : byte '{' :: u = s at h
  cases h with
  | lit h =>
    obtain ⟨-, hb⟩ := hL.token h
    exact (hb (byte '{') (hs ▸ List.mem_cons_self)).2.2.1 rfl
  | str _ => exact absurd (List.cons.inj hs).1 (by decide)
  | arrEmpty _ => exact absurd (List.cons.inj hs).1 (by decide)
  | arr _ => exact absurd (List.cons.inj hs).1 (by decide)
  | objEmpty _ => exact hv _ rfl
  | obj _ => exact hv _ rfl

theorem isText_skips (hL : L.Scannable) (p : Profile) {N : ℕ} (hN : N < 2 ^ 64) (h : IsText L N t) :
    Skips p t ∧ Shape t := by
  obtain ⟨v, hv, hd⟩ := h
  exact ⟨spells_skips hL p hv (by omega), shape_of_spells hL hv⟩

/-- A scan over the members of a value: the fold over their texts if it is an
object, and nothing else. -/
theorem cutObject_value {σ α : Type} {member : σ → Bytes → Bytes → Scan (Step (σ × Bytes) α)}
    {upd : σ → Bytes → Bytes → Scan (Step σ α)} (hL : L.Scannable) (p : Profile)
    (hr : ∀ k u, Skips p u → Shape u → Reads member upd k u) (h : Spells L (.value v) t)
    (hd : v.depth ≤ 2 ^ 64) (close : σ → Scan α) (st : σ) :
    (∃ ms kts, v = .obj ms ∧ List.Forall₂ (Written L) ms kts ∧
      cutObject t member close st = foldMembers upd close kts st) ∨
    (∀ ms, v ≠ .obj ms) ∧ cutObject t member close st = .fail := by
  by_cases hv : ∃ ms, v = .obj ms
  · obtain ⟨ms, rfl⟩ := hv
    obtain ⟨kts, s, rfl, hi, hw⟩ := h.memberTexts hL
    refine Or.inl ⟨ms, kts, rfl, hw, ?_⟩
    have hd' : membersDepth ms < 2 ^ 64 := by
      simp only [Value.depth] at hd
      omega
    have hi' : Interior (ReadsAt member upd) kts s := hi.mono fun m _ hm => by
      obtain ⟨hsk, hsh⟩ := isText_skips hL p hd' hm
      exact ⟨hsk.solid, hr _ _ hsk hsh⟩
    have e : cutObject _ member close st = _ := cutObject_text blank_nil hi' [] st
    rwa [List.nil_append, List.append_nil] at e
  · have hv' : ∀ ms, v ≠ .obj ms := fun ms e => hv ⟨ms, e⟩
    exact Or.inr ⟨hv', cutObject_other (no_brace hL h hv') st⟩

/-! ### The finders on values -/

theorem spelled_first (hraw : L.Raw) {ms : Tree} {kts : List (Bytes × Bytes)} (k : Bytes)
    (h : List.Forall₂ (Written L) ms kts) :
    Scan.Rel (fun t v => Spelled L v t) (Scan.ofOption (firstOf k kts)) (Scan.ofOption (firstOf k ms)) := by
  have hk := firstOf_written hraw k h
  generalize firstOf k ms = x at hk ⊢
  generalize firstOf k kts = y at hk ⊢
  cases hk with
  | some h => exact .ok h
  | none => exact .fail

/-- `find_raw_value` finds the first member of that name, in an object. -/
theorem findRawValue_value (hL : L.Scannable) (hraw : L.Raw) (p : Profile)
    (h : Spells L (.value v) t) (hd : v.depth ≤ 2 ^ 64) (wanted : Bytes) :
    Scan.Rel (fun t v => Spelled L v t) (findRawValue p t wanted) (Scan.ofOption (v.first wanted)) := by
  rw [findRawValue_eq]
  rcases cutObject_value hL p (fun k u hsk _ => raw_reads hsk wanted) h hd (fun _ => .fail) () with
    ⟨ms, kts, rfl, hw, e⟩ | ⟨hv, e⟩
  · rw [e, fold_raw]
    exact spelled_first hraw wanted hw
  · rw [e]
    cases v with
    | obj ms => exact absurd rfl (hv ms)
    | lit _ => exact .fail
    | str _ => exact .fail
    | arr _ => exact .fail

/-- `find_protocol_version` finds the first member of that name, if it is a
string. -/
theorem findProtocolVersion_value (hL : L.Scannable) (hraw : L.Raw) (p : Profile)
    (h : Spells L (.value v) t) (hd : v.depth ≤ 2 ^ 64) : findProtocolVersion p t =
      Scan.ofOption ((v.first (ascii "protocolVersion")).bind Value.asStr) := by
  rw [findProtocolVersion_eq]
  rcases cutObject_value hL p (fun k u hsk hsh => version_reads hsk hsh) h hd (fun _ => .fail) () with
    ⟨ms, kts, rfl, hw, e⟩ | ⟨hv, e⟩
  · rw [e, fold_version]
    have hk := firstOf_written hraw (ascii "protocolVersion") hw
    rw [Value.first]
    generalize firstOf (ascii "protocolVersion") ms = x at hk ⊢
    generalize firstOf (ascii "protocolVersion") kts = y at hk ⊢
    cases hk with
    | some h => exact stringInner_value hL hraw h
    | none => rfl
  · rw [e]
    cases v with
    | obj ms => exact absurd rfl (hv ms)
    | lit _ => rfl
    | str _ => rfl
    | arr _ => rfl

/-- `find_call_target` finds the last `name` and the last `arguments`. -/
theorem findCallTarget_value (hL : L.Scannable) (hraw : L.Raw) (p : Profile)
    (h : Spells L (.value v) t) (hd : v.depth ≤ 2 ^ 64) :
    Scan.Rel (fun x v' => Spelled L v' x.1 ∧
        Option.Rel (Spelled L) (v.last (ascii "arguments")) x.2)
      (findCallTarget p t) (Scan.ofOption (v.last (ascii "name"))) := by
  rw [findCallTarget_eq]
  rcases cutObject_value hL p (fun k u hsk _ => target_reads hsk) h hd
      (fun x => do return (← Scan.ofOption x.1, x.2)) (none, none) with
    ⟨ms, kts, rfl, hw, e⟩ | ⟨hv, e⟩
  · rw [e, fold_target, Option.or_none, Option.or_none, Value.last, Value.last]
    have hk := lastOf_written hraw (ascii "name") hw
    generalize lastOf (ascii "name") ms = x at hk ⊢
    generalize lastOf (ascii "name") kts = y at hk ⊢
    cases hk with
    | some h => exact .ok ⟨h, lastOf_written hraw (ascii "arguments") hw⟩
    | none => exact .fail
  · rw [e]
    cases v with
    | obj ms => exact absurd rfl (hv ms)
    | lit _ => exact .fail
    | str _ => exact .fail
    | arr _ => exact .fail

/-- The first member of a key, and then the inside of the string. -/
theorem stringField_value (hL : L.Scannable) (hraw : L.Raw) (p : Profile)
    (h : Spells L (.value v) t) (hd : v.depth ≤ 2 ^ 64) (wanted : Bytes) :
    (findRawValue p t wanted >>= stringInner) = Scan.ofOption ((v.first wanted).bind Value.asStr) := by
  have hr := findRawValue_value hL hraw p h hd wanted
  generalize findRawValue p t wanted = x at hr
  cases hv : v.first wanted with
  | none =>
    rw [hv] at hr
    cases hr
    rfl
  | some w =>
    rw [hv] at hr
    cases hr with
    | ok hw => exact stringInner_value hL hraw hw

/-- The text that `echo` is given. -/
theorem echoText_value (hL : L.Scannable) (hraw : L.Raw) (p : Profile) {argumentsRaw : Option Bytes}
    (h : Option.Rel (Spelled L) (v.last (ascii "arguments")) argumentsRaw) (hd : v.depth ≤ 2 ^ 64) :
    (Scan.ofOption argumentsRaw >>= fun a => findRawValue p a (ascii "text") >>= stringInner) =
      Scan.ofOption (echoText v) := by
  rw [echoText_bytes]
  cases hl : v.last (ascii "arguments") with
  | none =>
    rw [hl] at h
    cases h
    rfl
  | some a =>
    rw [hl] at h
    cases h with
    | some ha =>
      exact stringField_value hL hraw p ha (le_trans (Value.depth_last hl) hd) (ascii "text")

/-- The result of a `tools/call`, spliced after the id. -/
theorem handleToolsCall_value (hL : L.Scannable) (hraw : L.Raw) (p : Profile) (id : Bytes)
    (h : Spells L (.value v) t) (hd : v.depth ≤ 2 ^ 64) : handleToolsCall p id (some t) false =
      Scan.ofOption ((callTool (some v)).map fun r => replyText "result" id r.render) := by
  have ht := findCallTarget_value hL hraw p h hd
  unfold handleToolsCall
  rw [callTool_bytes]
  rw [Scan.ofOption_some, Scan.ok_bind]
  generalize hx : findCallTarget p t = x at ht
  generalize hn : v.last (ascii "name") = n at ht
  cases n with
  | none =>
    cases ht
    rfl
  | some n =>
    cases ht with
    | @ok x _ hs =>
      obtain ⟨nameRaw, argumentsRaw⟩ := x
      obtain ⟨hn', ha⟩ := hs
      simp only [Scan.ok_bind, Option.bind_some]
      rw [stringInner_value hL hraw hn']
      cases n.asStr with
      | none => rfl
      | some name =>
        simp only [Scan.ofOption_some, Scan.ok_bind, Option.bind_some, Bool.false_eq_true, if_false]
        by_cases h1 : name = ascii "answer"
        · rw [if_pos h1, if_pos h1, answer_eq]
          rfl
        · rw [if_neg h1, if_neg h1]
          by_cases h2 : name = ascii "echo"
          · rw [if_pos h2, if_pos h2]
            simp only [← bind_assoc]
            have he := echoText_value hL hraw p ha hd
            simp only [← bind_assoc] at he
            rw [he]
            cases echoText v with
            | none => rfl
            | some text =>
              simp only [Scan.ofOption_some, Scan.ok_bind, text_eq]
              rfl
          · rw [if_neg h2, if_neg h2, unknown_eq]
            rfl

/-- A scalar has one text. -/
theorem scalar_text (hraw : L.Raw) (h : Spells L (.value v) t) (hv : IsScalar v) : t = v.render := by
  rcases hv with ⟨s, rfl⟩ | ⟨u, rfl⟩
  · cases h with
    | str h => rw [hraw h, Value.render]
  · cases h with
    | lit h => rw [Value.render]

end Values

/-! ### The dispatch on values -/

section Dispatch

variable {L : Lexicon Bytes} {params : Option (Value Bytes)} {paramsRaw : Option Bytes}

theorem requestedVersion_value (hL : L.Scannable) (hraw : L.Raw) (p : Profile)
    (h : Option.Rel (Spelled L) params paramsRaw) (hd : ∀ v ∈ params, v.depth ≤ 2 ^ 64) :
    (do findProtocolVersion p (← Scan.ofOption paramsRaw)).attempt =
      .ok ((params.bind (·.first (ascii "protocolVersion"))).bind Value.asStr) := by
  cases h with
  | none => rfl
  | @some v t h =>
    rw [Scan.ofOption_some, Scan.ok_bind, findProtocolVersion_value hL hraw p h (hd v rfl),
      Option.bind_some]
    cases (v.first (ascii "protocolVersion")).bind Value.asStr <;> rfl

theorem callTool_value (hL : L.Scannable) (hraw : L.Raw) (p : Profile)
    (h : Option.Rel (Spelled L) params paramsRaw) (hd : ∀ v ∈ params, v.depth ≤ 2 ^ 64) (id : Bytes) :
    handleToolsCall p id paramsRaw false =
      Scan.ofOption ((callTool params).map fun r => replyText "result" id r.render) := by
  cases h with
  | none => rfl
  | @some v t h => exact handleToolsCall_value hL hraw p id h (hd v rfl)

/-- Each method is answered as on the tree. -/
theorem dispatchMethod_value (hL : L.Scannable) (hraw : L.Raw) (p : Profile)
    (h : Option.Rel (Spelled L) params paramsRaw) (hd : ∀ v ∈ params, v.depth ≤ 2 ^ 64)
    (m : Bytes) (id : Value Bytes) (sse : Bool) :
    dispatchMethod p m id.render paramsRaw sse = .ok (answer m id params sse).output := by
  unfold dispatchMethod
  rw [answer_bytes]
  by_cases h1 : m = ascii "initialize"
  · rw [if_pos h1, if_pos h1, requestedVersion_value hL hraw p h hd, Scan.ok_bind, initialize_eq]
    rfl
  · rw [if_neg h1, if_neg h1]
    by_cases h2 : m = ascii "tools/list"
    · rw [if_pos h2, if_pos h2, toolsList_eq]
      rfl
    · rw [if_neg h2, if_neg h2]
      by_cases h3 : m = ascii "ping"
      · rw [if_pos h3, if_pos h3, ping_eq]
        rfl
      · rw [if_neg h3, if_neg h3]
        by_cases h4 : m = ascii "tools/call"
        · rw [if_pos h4, if_pos h4]
          have hc := callTool_value hL hraw p h hd id.render
          cases sse with
          | false =>
            rw [hc]
            cases callTool params with
            | none =>
              show _ = Scan.ok (DispatchOutput.json 200 (errorReply id "-32602" "Invalid params").render)
              rw [errorReply, render_reply, ← errInvalidParams_eq]
              rfl
            | some r => rfl
          | true =>
            rw [handleToolsCall_sse, hc]
            cases callTool params with
            | none =>
              show _ = Scan.ok (DispatchOutput.json 200 (errorReply id "-32602" "Invalid params").render)
              rw [errorReply, render_reply, ← errInvalidParams_eq]
              rfl
            | some r => rfl
        · rw [if_neg h4, if_neg h4, errMethod_eq]
          rfl

end Dispatch

/-! ### The parse of a request -/

section Request

variable {L : Lexicon Bytes} {ms : Tree} {body : Bytes}

/-- On the text of an object `parse_rpc` is a fold over its members. -/
theorem parseRpc_fold (hL : L.Scannable) (hraw : L.Raw) (p : Profile) (h : Document L (.obj ms) body)
    (hd : membersDepth ms < 2 ^ 64) (hid : ScalarIds ms) :
    ∃ kts, List.Forall₂ (Written L) ms kts ∧
      parseRpc p body = foldMembers rpcUpd .ok kts Rpc.empty := by
  obtain ⟨w, t, w', hw, ht, -, rfl⟩ := h
  obtain ⟨kts, s, rfl, hi, hwr⟩ := ht.memberTexts hL
  have hr : Interior (ReadsAt (cutRpcMember p) rpcUpd) kts s := hi.mono fun m hm hm' => by
    obtain ⟨hsk, hsh⟩ := isText_skips hL p hd hm'
    refine ⟨hsk.solid, rpc_reads ⟨fun _ => hsh, fun hk => ?_, fun _ _ => hsk⟩⟩
    obtain ⟨m', hm', hkey, hval⟩ := written_mem hwr hm
    exact idText_of_scalar hL hval (hid m' hm' ((hraw hkey).trans hk))
  refine ⟨kts, hwr, ?_⟩
  rw [parseRpc_eq]
  exact cutObject_text hw hr w' Rpc.empty

/-- What `parse_rpc` returns is what the tree has under the three keys. -/
structure RequestOf (L : Lexicon Bytes) (ms : Tree) (rpc : Rpc) : Prop where
  method : rpc.method = (lastOf (ascii "method") ms).bind Value.asStr
  id : Option.Rel (Spelled L) (lastOf (ascii "id") ms) rpc.idRaw
  params : Option.Rel (Spelled L) (lastOf (ascii "params") ms) rpc.paramsRaw

/-- A request whose methods are strings and whose ids are scalars parses. -/
theorem parseRpc_document (hL : L.Scannable) (hraw : L.Raw) (p : Profile)
    (h : Document L (.obj ms) body) (hd : membersDepth ms < 2 ^ 64) (hid : ScalarIds ms)
    (hm : StringMethods ms) : ∃ rpc, parseRpc p body = .ok rpc ∧ RequestOf L ms rpc := by
  obtain ⟨kts, hw, e⟩ := parseRpc_fold hL hraw p h hd hid
  rw [fold_rpc] at e
  · refine ⟨_, e, ⟨?_, ?_, ?_⟩⟩
    · have hk := lastOf_written hraw (ascii "method") hw
      have hs : ∀ v ∈ lastOf (ascii "method") ms, ∃ s, v = .str s := fun v hv =>
        hm _ (lastOf_mem hv) rfl
      simp only [Rpc.empty, Option.or_none]
      generalize lastOf (ascii "method") ms = x at hk hs ⊢
      generalize lastOf (ascii "method") kts = y at hk ⊢
      cases hk with
      | none => rfl
      | @some v t hv =>
        obtain ⟨s, rfl⟩ := hs v rfl
        cases hv with
        | str hv => rw [Option.map_some, unquote_quoted, ← hraw hv, Option.bind_some, Value.asStr]
    · simp only [Rpc.empty, Option.or_none]
      exact lastOf_written hraw _ hw
    · simp only [Rpc.empty, Option.or_none]
      exact lastOf_written hraw _ hw
  · rintro ⟨k, t⟩ hkt hk
    obtain ⟨m, hm', hkey, hval⟩ := written_mem hw hkt
    obtain ⟨s, hs⟩ := hm m hm' ((hraw hkey).trans hk)
    rw [hs] at hval
    cases hval with
    | str _ => exact ⟨_, rfl⟩

/-- A request with a method that is no string does not parse. -/
theorem parseRpc_badMethod (hL : L.Scannable) (hraw : L.Raw) (p : Profile)
    (h : Document L (.obj ms) body) (hd : membersDepth ms < 2 ^ 64) (hid : ScalarIds ms)
    (hm : ¬ StringMethods ms) : parseRpc p body = .fail := by
  obtain ⟨kts, hw, e⟩ := parseRpc_fold hL hraw p h hd hid
  rw [e]
  refine fold_rpc_fail _ (fun kt hkt _ => ?_) ?_
  · obtain ⟨m, -, -, hval⟩ := written_mem hw hkt
    exact shape_of_spells hL hval
  · simp only [StringMethods, not_forall] at hm
    obtain ⟨m, hm', hk, hs⟩ := hm
    obtain ⟨kt, hkt, hkey, hval⟩ := mem_written hw hm'
    refine ⟨kt, hkt, (hraw hkey).symm.trans hk, fun r hr => hs ?_⟩
    have hsi := stringInner_value hL hraw hval
    rw [hr, stringInner_quoted] at hsi
    cases hv : m.2 with
    | str s => exact ⟨s, rfl⟩
    | lit t => rw [hv] at hsi; cases hsi
    | arr vs => rw [hv] at hsi; cases hsi
    | obj ms' => rw [hv] at hsi; cases hsi

/-! ### The dispatcher -/

theorem isNotifications_iff (m : Bytes) :
    isNotifications m = true ↔ IsNotification m := by
  unfold IsNotification
  rw [isNotifications, Bool.and_eq_true, decide_eq_true_eq, List.isPrefixOf_iff_prefix]
  refine ⟨fun ⟨hl, hp⟩ => ⟨hp, ?_⟩, fun ⟨hp, hne⟩ => ⟨?_, hp⟩⟩
  · rintro rfl
    exact absurd hl (by decide)
  · obtain ⟨t, rfl⟩ := hp
    have ht : t ≠ [] := by
      rintro rfl
      exact hne (List.append_nil _)
    have := List.length_pos_iff.mpr ht
    rw [List.length_append, show (plain "notifications/" : Bytes).length = 14 by decide]
    omega

/-- The raw id is that of the tree. -/
theorem requestId_value (hraw : L.Raw) {idRaw : Option Bytes} (hid : ScalarIds ms)
    (h : Option.Rel (Spelled L) (lastOf (ascii "id") ms) idRaw) :
    (requestId ms = none ∧ hasId idRaw = false) ∨
      ∃ id, requestId ms = some id ∧ hasId idRaw = true ∧ idRaw.getD (ascii "null") = id.render := by
  rw [requestId_bytes]
  have hs : ∀ v ∈ lastOf (ascii "id") ms, IsScalar v := fun v hv => hid _ (lastOf_mem hv) rfl
  generalize lastOf (ascii "id") ms = x at h hs ⊢
  cases h with
  | none => exact Or.inl ⟨rfl, rfl⟩
  | @some v t hv =>
    have ht := scalar_text hraw hv (hs v rfl)
    rcases hs v rfl with ⟨s, rfl⟩ | ⟨u, rfl⟩
    · refine Or.inr ⟨_, rfl, ?_, ht⟩
      rw [ht, hasId, decide_eq_true_eq, Value.render, quoted]
      exact fun e => absurd (List.cons.inj e).1 (by decide)
    · obtain rfl : t = u := ht
      by_cases hn : t = ascii "null"
      · refine Or.inl ⟨if_pos hn, ?_⟩
        rw [hn]
        rfl
      · refine Or.inr ⟨.lit t, if_neg hn, ?_, rfl⟩
        rw [hasId, decide_eq_true_eq]
        exact hn

/-- A parsed request is answered as its tree is. -/
theorem dispatchParsed_reference (hL : L.Scannable) (hraw : L.Raw) (p : Profile) {rpc : Rpc}
    (h : RequestOf L ms rpc) (hd : membersDepth ms < 2 ^ 64) (hid : ScalarIds ms)
    (hm : StringMethods ms) (sse : Bool) : dispatchParsed p rpc sse = .ok (reference ms sse).output := by
  unfold dispatchParsed
  rw [reference_bytes]
  have hs : ∀ v ∈ lastOf (ascii "method") ms, ∃ s, v = .str s := fun v hv => hm _ (lastOf_mem hv) rfl
  have hpd : ∀ v ∈ lastOf (ascii "params") ms, v.depth ≤ 2 ^ 64 := fun v hv =>
    le_trans (depth_le_membersDepth (lastOf_mem hv)) (le_of_lt hd)
  rw [h.method]
  generalize lastOf (ascii "method") ms = m at hs ⊢
  cases m with
  | none =>
    rcases requestId_value hraw hid h.id with ⟨he, hh⟩ | ⟨id, he, hh, hr⟩
    · rw [he, Option.bind_none]
      simp only [hh, Bool.false_eq_true, if_false]
      rfl
    · rw [he, Option.bind_none]
      simp only [hh, hr, if_true, errInvalid_eq]
      rfl
  | some v =>
    obtain ⟨s, rfl⟩ := hs v rfl
    rw [Option.bind_some, Value.asStr]
    by_cases hn : isNotifications s = true
    · rcases requestId_value hraw hid h.id with ⟨he, hh⟩ | ⟨id, he, hh, hr⟩
      · simp only [he, hn, if_true]
        rfl
      · simp only [he, hn, if_true, if_pos ((isNotifications_iff s).mp hn)]
        rfl
    · rcases requestId_value hraw hid h.id with ⟨he, hh⟩ | ⟨id, he, hh, hr⟩
      · simp only [he, hn, hh, Bool.false_eq_true, if_false, Bool.not_false, if_true]
        rfl
      · simp only [he, hn, hh, hr, Bool.false_eq_true, if_false, Bool.not_true,
          if_neg (mt (isNotifications_iff s).mpr hn)]
        exact dispatchMethod_value hL hraw p h.params hpd s id sse

end Request

/-- Every text of an object tree with string methods and scalar ids is
answered as the tree is. -/
theorem dispatch_reference (p : Profile) (body : Slice) (ms : Tree) (sse : Bool)
    (h : Document rfc (.obj ms) body.bytes) (hm : StringMethods ms) (hid : ScalarIds ms) :
    dispatchRpc p body.bytes sse = .ok (reference ms sse).output := by
  have hd := h.membersDepth_lt
  obtain ⟨rpc, hp, hr⟩ := parseRpc_document rfc_scannable rfc_raw p h hd hid hm
  rw [dispatchRpc_ok hp]
  exact dispatchParsed_reference rfc_scannable rfc_raw p hr hd hid hm sse

theorem dispatch_reference_ping :
    dispatchRpc .release (ascii "\x7b\"id\":1,\"method\":\"ping\"\x7d") true =
      .ok (.json 200 (ascii "\x7b\"jsonrpc\":\"2.0\",\"id\":1,\"result\":\x7b\x7d\x7d")) :=
  have hid : Literal (ascii "1") := literal_integer (Or.inl rfl) (by decide) (by decide) (by decide)
  have hm : rfc.string (ascii "ping") (ascii "ping") := ⟨rfl, _, chars_plain (by decide)⟩
  have hdoc : Document rfc (.obj [(ascii "id", .lit (ascii "1")), (ascii "method", .str (ascii "ping"))])
      (ascii "\x7b\"id\":1,\"method\":\"ping\"\x7d") :=
    ⟨[], _, [], blank_nil, spells_object (.cons (written_plain rfc_ascii "id" (.lit hid))
      (.cons (written_plain rfc_ascii "method" (.str hm)) .nil)), blank_nil, by decide⟩
  (dispatch_reference .release ⟨_, by decide⟩ _ true hdoc
    (by simp [StringMethods, show ascii "id" ≠ plain "method" by decide])
    (by simp [ScalarIds, IsScalar])).trans (by decide +kernel)

end Mcp
end Statico
