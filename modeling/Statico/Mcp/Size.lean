/-
# The size of an answer

What an answer takes from its request are slices of different members, so a
scanner has never taken more than what it has moved over (`cutObject_left`).
Whatever the bytes of a request are, its answer is longer by 324 bytes at
most (`answer_bounded`), as the list of tools is.

Key definitions: `size`, `DispatchOutput.bytes`.
Key theorems: `cutObject_left`, `parseRpc_size`, `dispatchRpc_size`,
`answer_bounded`.
-/
import Statico.Mcp.Positions

namespace Statico
namespace Mcp

open Json

variable {H : Halt → Prop} {p : Profile} {body : Bytes}

/-! ### What is left -/

section Object

variable {σ α : Type} {member : σ → Bytes → Bytes → Scan (Step (σ × Bytes) α)} {close : σ → Scan α}
  {J : σ → Bytes → Prop} {P : α → Prop}

/-- One turn keeps what the members keep of the state and the rest of the text. -/
theorem cutObjectStep_left (hdrop : ∀ st s t, J st s → t <:+ s → J st t)
    (hm : ∀ st k s, J st s → s <:+ body → (member st k s).Ensures H
      (Step.Ensures (fun x => x.2 <:+ s ∧ J x.1 x.2) P))
    (hc : ∀ st s, J st s → (close st).Ensures H P) (st : σ) (s : Bytes) (hst : J st s) (hs : s <:+ body) :
    (cutObjectStep member close (st, s)).Ensures H
      (Step.Ensures (fun x => (J x.1 x.2 ∧ x.2 <:+ body) ∧ x.2.length < s.length) P) := by
  have hdone : ∀ st' t, J st' t → (close st' >>= fun a => Scan.ok (.done a)).Ensures H
      (Step.Ensures (fun x : σ × Bytes => (J x.1 x.2 ∧ x.2 <:+ body) ∧ x.2.length < s.length) P) :=
    fun st' t h => (hc st' t h).bind fun a ha => ha
  rw [cutObjectStep_eq]
  apply (cutKey_ensures s).bind
  intro x hx
  cases x with
  | none => exact hdone st s hst
  | some x =>
    obtain ⟨k, v⟩ := x
    obtain ⟨-, -, a, b, d, -, -, -, e⟩ := hx
    have hvs : v <:+ s := ⟨a ++ (quoted k ++ (b ++ byte ':' :: d)), by rw [e]; simp⟩
    have hlen : v.length < s.length := by
      rw [e]
      simp only [List.length_append, List.length_cons]
      omega
    apply (hm st k v (hdrop st s v hst hvs) (hvs.trans hs)).bind
    intro y hy
    cases y with
    | done a => exact hy
    | next y =>
      obtain ⟨st', t⟩ := y
      obtain ⟨ht, hst'⟩ : t <:+ v ∧ J st' t := hy
      apply (cutSep_ensures t).bind
      intro z hz
      cases z with
      | none => exact hdone st' t hst'
      | some r =>
        obtain ⟨w, -, rfl⟩ := hz
        have hr : r <:+ w ++ byte ',' :: r := ⟨w ++ [byte ','], by simp⟩
        have hle := (hr.trans ht).length_le
        exact ⟨⟨hdrop st' _ r hst' hr, ((hr.trans ht).trans hvs).trans hs⟩, by show r.length < s.length; omega⟩

/-- So does the loop. -/
theorem cutObject_left (hdrop : ∀ st s t, J st s → t <:+ s → J st t)
    (hm : ∀ st k s, J st s → s <:+ body → (member st k s).Ensures H
      (Step.Ensures (fun x => x.2 <:+ s ∧ J x.1 x.2) P))
    (hc : ∀ st s, J st s → (close st).Ensures H P) {st : σ} (h0 : J st body) :
    (cutObject body member close st).Ensures H P := by
  unfold cutObject
  apply (uncons_ensures _).bind
  intro x hx
  obtain ⟨c, s⟩ := x
  have hs : s <:+ body := (show s <:+ dropBlank body from ⟨[c], hx.symm⟩).trans (List.dropWhile_suffix _)
  by_cases h1 : c = byte '{'
  · simp only [h1, ne_eq, not_true_eq_false, if_false]
    refine loop_ensures (I := fun x : σ × Bytes => J x.1 x.2 ∧ x.2 <:+ body) (fun x => x.2.length)
      (fun x hx => cutObjectStep_left hdrop hm hc x.1 x.2 hx.1 hx.2) _ ⟨hdrop st body s h0 hs, hs⟩ ?_
    have := hs.length_le
    simp only
    omega
  · simp only [ne_eq, h1, not_false_eq_true, if_true]
    trivial

end Object

/-! ### What is taken -/

/-- The size of what was taken, if it was. -/
def size (o : Option Bytes) : ℕ := (o.getD []).length

theorem length_consumed {s t : Bytes} (h : t <:+ s) : (consumed s t).length + t.length = s.length := by
  obtain ⟨u, rfl⟩ := h
  rw [consumed_append, List.length_append]

theorem length_slice {t : Bytes} (h : IsSlice body t) : t.length ≤ body.length := by
  obtain ⟨s, e, hse, he, h⟩ := h
  rw [slice, if_pos ⟨hse, he⟩] at h
  cases h
  rw [List.length_take, List.length_drop]
  omega

/-- The id and the parameters are slices of different members. -/
theorem parseRpc_size (h : Skipping p H body) : (parseRpc p body).Ensures H
    fun rpc => size rpc.idRaw + size rpc.paramsRaw ≤ body.length := by
  rw [parseRpc_eq]
  apply cutObject_left (J := fun rpc s => size rpc.idRaw + size rpc.paramsRaw + s.length ≤ body.length)
  · intro rpc s t hle ht
    have := ht.length_le
    omega
  · intro rpc k s hle hs
    apply (rpcMember_taken (h.within hs.isInfix) rpc k).mono
    rintro (⟨rpc', t⟩ | r) hx
    · refine ⟨hx.suffix, ?_⟩
      have ht := hx.suffix.length_le
      cases hx with
      | method _ =>
        show size rpc.idRaw + size rpc.paramsRaw + t.length ≤ body.length
        omega
      | @id i t _ e =>
        rw [e, List.length_append] at hle
        show i.length + size rpc.paramsRaw + t.length ≤ body.length
        omega
      | params h =>
        have hlen := length_consumed h
        show size rpc.idRaw + (consumed s t).length + t.length ≤ body.length
        omega
      | other _ =>
        show size rpc.idRaw + size rpc.paramsRaw + t.length ≤ body.length
        omega
    · exact hx.elim
  · intro rpc s hle
    show size rpc.idRaw + size rpc.paramsRaw ≤ body.length
    omega
  · exact (Nat.zero_add _).le

/-- The name of a tool, or the text it echoes, is in the parameters. -/
theorem stringInner_size (raw : Bytes) : (stringInner raw).Ensures H fun r => r.length ≤ raw.length :=
  (stringInner_slice raw).mono fun _ h => length_slice h

/-- Plain, an answer to a call is longer than what it takes by 100 bytes at most. -/
theorem handleToolsCall_plain {id params out : Bytes} (h : handleToolsCall p id (some params) false = .ok out) :
    out.length ≤ id.length + params.length + 100 := by
  have hany : ∀ b, Skipping p (fun _ => True) b := fun _ _ _ _ _ => trivial
  have hprefix : rpcPrefix.length = 22 := by decide
  unfold handleToolsCall at h
  rw [Scan.ofOption_some, Scan.ok_bind] at h
  obtain ⟨⟨nameRaw, arguments⟩, ht, h⟩ := Scan.bind_eq_ok.mp h
  obtain ⟨name, hn, h⟩ := Scan.bind_eq_ok.mp h
  obtain ⟨hname, hargs⟩ := (findCallTarget_slices (hany params)).of_ok ht
  have hlen : name.length ≤ params.length :=
    calc name.length ≤ nameRaw.length := (stringInner_size (H := fun _ => True) nameRaw).of_ok hn
      _ ≤ params.length := length_slice hname
  simp only [Bool.false_eq_true, if_false] at h
  by_cases h1 : name = ascii "answer"
  · rw [if_pos h1] at h
    cases h
    have hanswer : toolsCallAnswerResult.length = 68 := by decide
    simp only [buildFramedWithId, List.length_append, List.length_nil, hprefix, hanswer]
    omega
  · rw [if_neg h1] at h
    by_cases h2 : name = ascii "echo"
    · rw [if_pos h2] at h
      obtain ⟨a, ha, h⟩ := Scan.bind_eq_ok.mp h
      obtain ⟨t, hr, h⟩ := Scan.bind_eq_ok.mp h
      obtain ⟨text, hi, h⟩ := Scan.bind_eq_ok.mp h
      cases h
      have harg : arguments = some a := (Scan.ensures_option (H := fun _ => True) arguments).of_ok ha
      have htext : text.length ≤ params.length :=
        calc text.length ≤ t.length := (stringInner_size (H := fun _ => True) t).of_ok hi
          _ ≤ a.length := length_slice ((findRawValue_slice (hany a) _).of_ok hr)
          _ ≤ params.length := length_slice (hargs a harg)
      have hpre : toolsCallTextPrefix.length = 45 := by decide
      have hsuf : toolsCallTextSuffix.length = 21 := by decide
      simp only [buildTextResult, List.length_append, List.length_nil, hprefix, hpre, hsuf]
      omega
    · rw [if_neg h2] at h
      cases h
      have hpre : toolsCallUnknownPrefix.length = 58 := by decide
      have hsuf : toolsCallUnknownSuffix.length = 20 := by decide
      simp only [buildUnknownTool, List.length_append, List.length_nil, hprefix, hpre, hsuf]
      omega

/-- As an event, by 23 more. -/
theorem handleToolsCall_size {id out : Bytes} {paramsRaw : Option Bytes} {sse : Bool}
    (h : handleToolsCall p id paramsRaw sse = .ok out) : out.length ≤ id.length + size paramsRaw + 123 := by
  cases paramsRaw with
  | none => cases h
  | some params =>
    show out.length ≤ id.length + params.length + 123
    cases sse with
    | false =>
      have := handleToolsCall_plain h
      omega
    | true =>
      rw [handleToolsCall_sse] at h
      cases hc : handleToolsCall p id (some params) false with
      | fail => rw [hc] at h; cases h
      | halt w => rw [hc] at h; cases h
      | ok plain =>
        rw [hc] at h
        cases h
        have hplain := handleToolsCall_plain hc
        have hpre : (ascii "event: message\ndata: ").length = 21 := by decide
        have hsuf : (ascii "\n\n").length = 2 := by decide
        simp only [EventStream.frame, List.length_append, hpre, hsuf]
        omega

/-! ### What is answered -/

/-- The bytes of an answer, of its last event in a stream. -/
def DispatchOutput.bytes : DispatchOutput → Bytes
  | .empty _ => []
  | .json _ b => b
  | .sseToolsCall f => f

theorem length_buildWithId (id fragment : Bytes) :
    (buildWithId id fragment).length = 22 + id.length + fragment.length := by
  have hprefix : rpcPrefix.length = 22 := by decide
  simp only [buildWithId, buildFramedWithId, List.length_append, List.length_nil, hprefix]
  omega

theorem length_buildErrorWithId (id suffix : Bytes) :
    (buildErrorWithId id suffix).length = 22 + id.length + suffix.length := by
  have hprefix : errMethodPrefix.length = 22 := by decide
  simp only [buildErrorWithId, List.length_append, hprefix]

theorem length_buildInitialize (id version : Bytes) :
    (buildInitialize id version).length = 222 + id.length + version.length := by
  have h1 : rpcPrefix.length = 22 := by decide
  have h2 : initResultPrefix.length = 30 := by decide
  have h3 : initResultMid.length + serverName.length + initResultMid2.length + cargoPkgVersion.length +
    initResultSuffix.length = 170 := by decide
  simp only [buildInitialize, List.length_append, h1, h2]
  omega

/-- The version asked for, or the default, which has 10 bytes. -/
theorem version_size {paramsRaw version : Option Bytes}
    (h : (do findProtocolVersion p (← Scan.ofOption paramsRaw) : Scan Bytes).attempt = .ok version) :
    (version.getD defaultProtocolVersion).length ≤ size paramsRaw + 10 := by
  have hfound : (do findProtocolVersion p (← Scan.ofOption paramsRaw) : Scan Bytes).Ensures (fun _ => True)
      fun v => v.length ≤ size paramsRaw := by
    apply (Scan.ensures_option paramsRaw).bind
    rintro params rfl
    exact (findProtocolVersion_slice fun _ _ _ _ => trivial).mono fun _ hv => length_slice hv
  cases version with
  | none =>
    have hdefault : defaultProtocolVersion.length = 10 := by decide
    show defaultProtocolVersion.length ≤ _
    omega
  | some v =>
    have : v.length ≤ size paramsRaw := hfound.attempt.of_ok h v rfl
    show v.length ≤ _
    omega

theorem dispatchMethod_size {m id : Bytes} {paramsRaw : Option Bytes} {sse : Bool} {out : DispatchOutput}
    (h : dispatchMethod p m id paramsRaw sse = .ok out) :
    out.bytes.length ≤ id.length + size paramsRaw + 324 := by
  unfold dispatchMethod at h
  by_cases h1 : m = ascii "initialize"
  · rw [if_pos h1] at h
    obtain ⟨version, hv, h⟩ := Scan.bind_eq_ok.mp h
    cases h
    show (buildInitialize id _).length ≤ _
    rw [length_buildInitialize]
    have := version_size hv
    omega
  rw [if_neg h1] at h
  by_cases h2 : m = ascii "tools/list"
  · rw [if_pos h2] at h
    cases h
    have hlist : toolsListResult.length = 302 := by decide +kernel
    show (buildWithId id toolsListResult).length ≤ _
    rw [length_buildWithId, hlist]
    omega
  rw [if_neg h2] at h
  by_cases h3 : m = ascii "ping"
  · rw [if_pos h3] at h
    cases h
    have hping : pingResult.length = 13 := by decide
    show (buildWithId id pingResult).length ≤ _
    rw [length_buildWithId, hping]
    omega
  rw [if_neg h3] at h
  by_cases h4 : m = ascii "tools/call"
  · rw [if_pos h4] at h
    cases hc : handleToolsCall p id paramsRaw sse with
    | halt w => rw [hc] at h; cases h
    | fail =>
      rw [hc] at h
      cases h
      have hsuf : errInvalidParamsSuffix.length = 52 := by decide
      show (buildErrorWithId id errInvalidParamsSuffix).length ≤ _
      rw [length_buildErrorWithId, hsuf]
      omega
    | ok answered =>
      have hsize := handleToolsCall_size hc
      have hbytes : out.bytes = answered := by
        rw [hc] at h
        cases sse <;> cases h <;> rfl
      rw [hbytes]
      omega
  rw [if_neg h4] at h
  cases h
  have hsuf : errMethodSuffix.length = 54 := by decide
  show (buildErrorWithId id errMethodSuffix).length ≤ _
  rw [length_buildErrorWithId, hsuf]
  omega

theorem dispatchRpc_size {sse : Bool} {out : DispatchOutput} (h : dispatchRpc p body sse = .ok out) :
    out.bytes.length ≤ body.length + 324 := by
  cases hp : parseRpc p body with
  | halt w =>
    rw [dispatchRpc_halt hp] at h
    cases h
  | fail =>
    rw [dispatchRpc_fail hp] at h
    cases h
    have hparse : errParse.length = 75 := by decide
    show errParse.length ≤ _
    omega
  | ok rpc =>
    rw [dispatchRpc_ok hp] at h
    have htaken : size rpc.idRaw + size rpc.paramsRaw ≤ body.length :=
      (parseRpc_size (H := fun _ => True) fun _ _ _ _ => trivial).of_ok hp
    rcases dispatchParsed_cases p rpc with ⟨m, id, -, hid, -, e⟩ | ⟨id, -, hid, -, e⟩ | e
    · rw [e] at h
      have hsize := dispatchMethod_size h
      have : size rpc.idRaw = id.length := by rw [hid]; rfl
      omega
    · rw [e] at h
      cases h
      have hsuf : errInvalidSuffix.length = 53 := by decide
      have : size rpc.idRaw = id.length := by rw [hid]; rfl
      show (buildErrorWithId id errInvalidSuffix).length ≤ _
      rw [length_buildErrorWithId, hsuf]
      omega
    · rw [e] at h
      cases h
      exact Nat.zero_le _

/-- No answer is longer than its request by more than 324 bytes, and the id and
the parameters that are taken for it are slices of the request, together no
longer than it. -/
theorem answer_bounded {sse : Bool} {out : DispatchOutput} (h : dispatchRpc p body sse = .ok out) :
    out.bytes.length ≤ body.length + 324 ∧
    ∀ rpc, parseRpc p body = .ok rpc → RpcSlices body rpc ∧ size rpc.idRaw + size rpc.paramsRaw ≤ body.length := by
  have hany : Skipping p (fun _ => True) body := fun _ _ _ _ => trivial
  exact ⟨dispatchRpc_size h, fun rpc hp => ⟨(parseRpc_slices hany).of_ok hp, (parseRpc_size hany).of_ok hp⟩⟩

/-- The list of tools, the longest fragment. -/
theorem answer_bounded_list : ∃ out,
    dispatchRpc .release (ascii "\x7b\"id\":1,\"method\":\"tools/list\"\x7d") false = .ok out ∧
      out.bytes.length ≤ (ascii "\x7b\"id\":1,\"method\":\"tools/list\"\x7d").length + 324 := by
  obtain ⟨out, h⟩ := dispatchRpc_total (ascii "\x7b\"id\":1,\"method\":\"tools/list\"\x7d") false
  exact ⟨out, h, (answer_bounded h).1⟩

end Mcp
end Statico
