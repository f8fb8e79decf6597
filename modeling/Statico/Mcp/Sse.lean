/-
# The two modes of the dispatcher

With `sse_tools_call` the answer to a `tools/call` is one event of a stream,
after the notifications; every other answer is the same (`dispatch_modes`).
The event's data is spliced from the id and from the tool's name or text, so
a client reads it back exactly if no line ends in these (`sse_framing_iff`).

Key definitions: `Spliced`, `CalmCall`.
Key theorems: `dispatch_modes`, `handleToolsCall_spliced`, `sse_framing_iff`.
-/
import Statico.Mcp.Slices

namespace Statico
namespace Mcp

open Json EventStream

/-! ### The notifications -/

/-- The JSON text of the `i`-th of `count` notifications. -/
def notificationData (count i : ℕ) : Bytes :=
  ascii "\x7b\"jsonrpc\":\"2.0\",\"method\":\"notifications/message\",\"params\":\x7b\"level\":" ++
  ascii "\"info\",\"data\":\"step " ++ decimal i ++ ascii "/" ++ decimal count ++ ascii "\"\x7d\x7d"

theorem sseNotification_eq (count i : ℕ) :
    sseNotification count i = frame (notificationData count i) := by
  have hprefix : ascii "event: message\ndata: \x7b\"jsonrpc\":\"2.0\",\"method\":\"notifications/message\",\"params\":" ++
      ascii "\x7b\"level\":\"info\",\"data\":\"step " = ascii "event: message\ndata: " ++
      (ascii "\x7b\"jsonrpc\":\"2.0\",\"method\":\"notifications/message\",\"params\":\x7b\"level\":" ++
        ascii "\"info\",\"data\":\"step ") := by
    decide +kernel
  have hsuffix : ascii "\"\x7d\x7d\n\n" = ascii "\"\x7d\x7d" ++ ascii "\n\n" := by decide
  rw [sseNotification, hprefix, hsuffix, frame, notificationData]
  simp only [List.append_assoc]

theorem calm_notification (count i : ℕ) : Calm (notificationData count i) := by
  simp only [notificationData, calm_append]
  exact ⟨⟨⟨⟨⟨calm_of_all (by decide), calm_of_all (by decide)⟩, calm_decimal i⟩,
    calm_of_all (by decide)⟩, calm_decimal count⟩, calm_of_all (by decide)⟩

/-- The notifications are as many events, whatever follows them. -/
theorem events_notifications (count : ℕ) (s : Bytes) :
    events fresh (lines ((buildSseNotifications count).flatten ++ s)).dropLast =
      (List.range' 1 count).map (fun i => ⟨ascii "message", notificationData count i⟩) ++
        events fresh (lines s).dropLast := by
  have hb : buildSseNotifications count =
      ((List.range' 1 count).map (notificationData count)).map frame := by
    rw [buildSseNotifications, List.map_map]
    exact List.map_congr_left fun i _ => sseNotification_eq count i
  rw [hb, events_frames, List.map_map]
  · rfl
  · intro d hd
    obtain ⟨i, -, rfl⟩ := List.mem_map.mp hd
    exact calm_notification count i

/-- A stream of frames has no byte order mark. -/
theorem dropMark_frames (count : ℕ) (data : Bytes) :
    dropMark ((buildSseNotifications count).flatten ++ frame data) =
      (buildSseNotifications count).flatten ++ frame data := by
  have hhead : ∀ d s : Bytes, ¬ [0xEF, 0xBB, 0xBF] <+: frame d ++ s := by
    intro d s h
    rw [frame_append, List.cons_prefix_iff] at h
    obtain ⟨t, e, -⟩ := h
    exact absurd (List.cons.inj e).1 (by decide)
  apply if_neg
  cases count with
  | zero =>
    have := hhead data []
    rwa [List.append_nil] at this
  | succ n =>
    rw [buildSseNotifications, List.range'_succ, List.map_cons, List.flatten_cons, sseNotification_eq,
      List.append_assoc]
    exact hhead _ _

/-- A client of the stream of `count` notifications and `f` reads as many
events and then one with the data `data`. -/
def ReadsBack (count : ℕ) (f data : Bytes) : Prop :=
  ∃ evs e, parse ((buildSseNotifications count).flatten ++ f) = evs ++ [e] ∧ evs.length = count ∧
    (∀ x ∈ evs ++ [e], x.type = ascii "message") ∧ e.data = data

theorem readsBack_iff (count : ℕ) (data : Bytes) : ReadsBack count (frame data) data ↔ Calm data := by
  have hp : parse ((buildSseNotifications count).flatten ++ frame data) =
      (List.range' 1 count).map (fun i => ⟨ascii "message", notificationData count i⟩) ++
        events fresh (lines (frame data)).dropLast := by
    rw [parse, dropMark_frames, events_notifications]
  rw [← frame_iff]
  constructor
  · rintro ⟨evs, e, h, hl, ht, hd⟩
    have hlen : evs.length = ((List.range' 1 count).map
        (fun i => (⟨ascii "message", notificationData count i⟩ : Event))).length := by
      rw [List.length_map, List.length_range', hl]
    obtain ⟨-, he⟩ := List.append_inj (hp.symm.trans h) hlen.symm
    exact ⟨e, he, ht e (List.mem_append_right _ List.mem_cons_self), hd⟩
  · rintro ⟨e, h, ht, hd⟩
    refine ⟨_, e, hp.trans (by rw [h]), ?_, ?_, hd⟩
    · rw [List.length_map, List.length_range']
    · intro x hx
      rcases List.mem_append.mp hx with hx | hx
      · obtain ⟨i, -, rfl⟩ := List.mem_map.mp hx
        rfl
      · rw [List.mem_singleton.mp hx, ht]

/-! ### The modes -/

/-- The body calls a tool and wants an answer. -/
def Call (p : Profile) (body id params : Bytes) : Prop :=
  ∃ rpc, parseRpc p body = .ok rpc ∧ rpc.method = some (ascii "tools/call") ∧
    rpc.idRaw = some id ∧ id ≠ ascii "null" ∧ rpc.paramsRaw = some params

theorem Call.dispatch {p : Profile} {body id params : Bytes} (h : Call p body id params) (sse : Bool) :
    dispatchRpc p body sse = dispatchMethod p (ascii "tools/call") id (some params) sse := by
  obtain ⟨rpc, hp, hm, hi, hn, hr⟩ := h
  have hh : hasId (some id) = true := by rw [hasId, decide_eq_true_eq]; exact hn
  rw [dispatchRpc_ok hp]
  unfold dispatchParsed
  rw [hm, hi, hr]
  simp only [hh, show isNotifications (ascii "tools/call") = false by decide, Bool.false_eq_true,
    if_false, Bool.not_true, Option.getD_some]

/-- An answered call, in both modes. -/
theorem Call.answered {p : Profile} {body id params out : Bytes} (h : Call p body id params)
    (hout : handleToolsCall p id (some params) false = .ok out) :
    dispatchRpc p body false = .ok (.json 200 out) ∧
      dispatchRpc p body true = .ok (.sseToolsCall (frame out)) := by
  rw [h.dispatch, h.dispatch]
  unfold dispatchMethod
  rw [handleToolsCall_sse, hout]
  exact ⟨rfl, rfl⟩

theorem dispatchMethod_modes (p : Profile) (m id : Bytes) (paramsRaw : Option Bytes) :
    dispatchMethod p m id paramsRaw true = dispatchMethod p m id paramsRaw false ∨
      m = ascii "tools/call" ∧ ∃ params out, paramsRaw = some params ∧
        handleToolsCall p id (some params) false = .ok out := by
  by_cases hm : m = ascii "tools/call"
  · rw [hm]
    unfold dispatchMethod
    rw [handleToolsCall_sse]
    cases hc : handleToolsCall p id paramsRaw false with
    | ok out =>
      cases paramsRaw with
      | none => cases hc
      | some params => exact Or.inr ⟨rfl, params, out, rfl, hc⟩
    | fail => exact Or.inl rfl
    | halt w => exact Or.inl rfl
  · apply Or.inl
    unfold dispatchMethod
    rw [if_neg hm, if_neg hm]

/-- The two modes differ in the answered calls of tools only. -/
theorem dispatch_modes (p : Profile) (body : Bytes) :
    dispatchRpc p body true = dispatchRpc p body false ∨
      ∃ id params out, Call p body id params ∧ handleToolsCall p id (some params) false = .ok out := by
  cases hp : parseRpc p body with
  | fail => rw [dispatchRpc_fail hp, dispatchRpc_fail hp]; exact Or.inl rfl
  | halt w => rw [dispatchRpc_halt hp, dispatchRpc_halt hp]; exact Or.inl rfl
  | ok rpc =>
    rw [dispatchRpc_ok hp, dispatchRpc_ok hp]
    rcases dispatchParsed_cases p rpc with ⟨m, id, hm, hi, hn, e⟩ | ⟨id, -, -, -, e⟩ | e
    · rw [e, e]
      rcases dispatchMethod_modes p m id rpc.paramsRaw with hmod | ⟨rfl, params, out, hpar, hout⟩
      · exact Or.inl hmod
      · exact Or.inr ⟨id, params, out, ⟨rpc, hp, hm, hi, hn, hpar⟩, hout⟩
    · rw [e, e]
      exact Or.inl rfl
    · rw [e, e]
      exact Or.inl rfl

/-- The dispatcher halts only where `cutValue` halts in a piece of the body. -/
theorem dispatchRpc_ensures {p : Profile} {H : Halt → Prop} {body : Bytes} (hs : Skipping p H body)
    (sse : Bool) : (dispatchRpc p body sse).Ensures H fun _ => True := by
  have hplain : (dispatchRpc p body false).Ensures H fun _ => True := by
    have hparse := parseRpc_ensures hs
    cases hp : parseRpc p body with
    | fail =>
      rw [dispatchRpc_fail hp]
      trivial
    | halt w =>
      rw [dispatchRpc_halt hp]
      rw [hp] at hparse
      exact hparse
    | ok rpc =>
      rw [dispatchRpc_ok hp]
      exact (dispatchParsed_ensures hs (hparse.of_ok hp)).mono fun _ _ => trivial
  cases sse with
  | false => exact hplain
  | true =>
    rcases dispatch_modes p body with e | ⟨id, params, out, hc, hout⟩
    · rw [e]
      exact hplain
    · rw [(hc.answered hout).2]
      trivial

/-- Without `sse_tools_call` no answer is an event. -/
theorem dispatch_plain (p : Profile) (body f : Bytes) : dispatchRpc p body false ≠ .ok (.sseToolsCall f) := by
  intro h
  cases hp : parseRpc p body with
  | fail => rw [dispatchRpc_fail hp] at h; cases h
  | halt w => rw [dispatchRpc_halt hp] at h; cases h
  | ok rpc =>
    rw [dispatchRpc_ok hp] at h
    have hs : Skipping p (fun _ => True) body := fun _ _ _ _ => trivial
    exact (dispatchParsed_ensures hs ((parseRpc_ensures hs).of_ok hp)).of_ok h

/-! ### What a call splices -/

/-- What is copied from the parameters of a call into its answer: nothing, the
text of an `echo`, or the name of an unknown tool. -/
inductive Spliced (p : Profile) (params : Bytes) : Bytes → Prop
  | answer {nameRaw : Bytes} {arguments : Option Bytes} :
      findCallTarget p params = .ok (nameRaw, arguments) → stringInner nameRaw = .ok (ascii "answer") →
      Spliced p params []
  | echo {nameRaw arguments textRaw text : Bytes} :
      findCallTarget p params = .ok (nameRaw, some arguments) →
      stringInner nameRaw = .ok (ascii "echo") → findRawValue p arguments (ascii "text") = .ok textRaw →
      stringInner textRaw = .ok text → Spliced p params text
  | unknown {nameRaw name : Bytes} {arguments : Option Bytes} :
      findCallTarget p params = .ok (nameRaw, arguments) → stringInner nameRaw = .ok name →
      name ≠ ascii "answer" → name ≠ ascii "echo" → Spliced p params name

theorem calm_answer (id : Bytes) :
    Calm (buildFramedWithId [] id toolsCallAnswerResult []) ↔ Calm id ∧ Calm [] := by
  have h1 : Calm rpcPrefix := calm_of_all (by decide)
  have h2 : Calm toolsCallAnswerResult := calm_of_all (by decide)
  have h0 : Calm [] := fun _ h => by cases h
  simp [buildFramedWithId, calm_append, h0, h1, h2]

theorem calm_text (id text : Bytes) : Calm (buildTextResult [] id text []) ↔ Calm id ∧ Calm text := by
  have h1 : Calm rpcPrefix := calm_of_all (by decide)
  have h2 : Calm toolsCallTextPrefix := calm_of_all (by decide)
  have h3 : Calm toolsCallTextSuffix := calm_of_all (by decide)
  simp [buildTextResult, calm_append, h1, h2, h3]

theorem calm_unknown (id name : Bytes) : Calm (buildUnknownTool [] id name []) ↔ Calm id ∧ Calm name := by
  have h1 : Calm rpcPrefix := calm_of_all (by decide)
  have h2 : Calm toolsCallUnknownPrefix := calm_of_all (by decide)
  have h3 : Calm toolsCallUnknownSuffix := calm_of_all (by decide)
  simp [buildUnknownTool, calm_append, h1, h2, h3]

/-- A call that splices something is answered, and lines end in the answer
where they end in the id or in what is spliced. -/
theorem Spliced.answered {p : Profile} {params piece : Bytes} (h : Spliced p params piece) (id : Bytes) :
    ∃ out, handleToolsCall p id (some params) false = .ok out ∧ (Calm out ↔ Calm id ∧ Calm piece) := by
  unfold handleToolsCall
  cases h with
  | answer ht hn =>
    rw [Scan.ofOption_some, Scan.ok_bind, ht, Scan.ok_bind]
    simp only [hn, Scan.ok_bind, Bool.false_eq_true, if_false, if_true]
    exact ⟨_, rfl, calm_answer id⟩
  | echo ht hn hr hi =>
    rw [Scan.ofOption_some, Scan.ok_bind, ht, Scan.ok_bind]
    simp only [hn, hr, hi, Scan.ok_bind, Scan.ofOption_some, Bool.false_eq_true, if_false, if_true,
      show ascii "echo" ≠ ascii "answer" by decide]
    exact ⟨_, rfl, calm_text id piece⟩
  | unknown ht hn h1 h2 =>
    rw [Scan.ofOption_some, Scan.ok_bind, ht, Scan.ok_bind]
    simp only [hn, h1, h2, Scan.ok_bind, Bool.false_eq_true, if_false]
    exact ⟨_, rfl, calm_unknown id piece⟩

/-- Every answered call splices something. -/
theorem spliced_of_answered {p : Profile} {id params out : Bytes}
    (h : handleToolsCall p id (some params) false = .ok out) : ∃ piece, Spliced p params piece := by
  unfold handleToolsCall at h
  rw [Scan.ofOption_some, Scan.ok_bind] at h
  obtain ⟨⟨nameRaw, arguments⟩, ht, h⟩ := Scan.bind_eq_ok.mp h
  obtain ⟨name, hn, h⟩ := Scan.bind_eq_ok.mp h
  simp only [Bool.false_eq_true, if_false] at h
  by_cases h1 : name = ascii "answer"
  · exact ⟨[], .answer ht (h1 ▸ hn)⟩
  · by_cases h2 : name = ascii "echo"
    · rw [if_neg h1, if_pos h2] at h
      obtain ⟨a, ha, h⟩ := Scan.bind_eq_ok.mp h
      obtain ⟨t, hr, h⟩ := Scan.bind_eq_ok.mp h
      obtain ⟨text, hi, -⟩ := Scan.bind_eq_ok.mp h
      cases arguments with
      | none => cases ha
      | some a' =>
        cases ha
        exact ⟨text, .echo ht (h2 ▸ hn) hr hi⟩
    · exact ⟨name, .unknown ht hn h1 h2⟩

/-! ### Framing -/

/-- No line ends in what a call of the body splices. -/
def CalmCall (p : Profile) (body : Bytes) : Prop :=
  ∀ id params piece, Call p body id params → Spliced p params piece → Calm id ∧ Calm piece

/-- The event of a call is read back, after any number of notifications, and
all other answers are the same in both modes, exactly if no line ends in what a
call splices. -/
theorem sse_framing_iff (p : Profile) (body : Bytes) :
    ((∀ count f, dispatchRpc p body true = .ok (.sseToolsCall f) →
        ∃ out, dispatchRpc p body false = .ok (.json 200 out) ∧ ReadsBack count f out) ∧
      ((∀ f, dispatchRpc p body true ≠ .ok (.sseToolsCall f)) →
        dispatchRpc p body true = dispatchRpc p body false)) ↔ CalmCall p body := by
  constructor
  · rintro ⟨h, -⟩ id params piece hc hs
    obtain ⟨out, hout, hcalm⟩ := hs.answered id
    obtain ⟨hj, hs'⟩ := hc.answered hout
    obtain ⟨out', hj', hr⟩ := h 0 _ hs'
    obtain rfl : out = out' := by
      rw [hj] at hj'
      cases hj'
      rfl
    exact hcalm.mp ((readsBack_iff 0 out).mp hr)
  · intro h
    rcases dispatch_modes p body with e | ⟨id, params, out, hc, hout⟩
    · refine ⟨fun count f hf => ?_, fun _ => e⟩
      rw [e] at hf
      exact absurd hf (dispatch_plain p body f)
    · obtain ⟨hj, hs⟩ := hc.answered hout
      refine ⟨fun count f hf => ⟨out, hj, ?_⟩, fun hne => absurd hs (hne _)⟩
      obtain rfl : frame out = f := by
        rw [hs] at hf
        cases hf
        rfl
      obtain ⟨piece, hp⟩ := spliced_of_answered hout
      obtain ⟨out', hout', hcalm⟩ := hp.answered id
      obtain rfl : out = out' := by
        rw [hout] at hout'
        cases hout'
        rfl
      exact (readsBack_iff count out).mpr (hcalm.mpr (h id params piece hc hp))

/-- A line feed in the name of a tool ends a line of the event. -/
theorem sse_framing_line_feed :
    ¬ ∀ count f, dispatchRpc .release (ascii ("\x7b\"id\":1,\"method\":\"tools/call\"," ++
        "\"params\":\x7b\"name\":\"a\nb\"\x7d\x7d")) true = .ok (.sseToolsCall f) →
      ∃ out, dispatchRpc .release (ascii ("\x7b\"id\":1,\"method\":\"tools/call\"," ++
        "\"params\":\x7b\"name\":\"a\nb\"\x7d\x7d")) false = .ok (.json 200 out) ∧
        ReadsBack count f out := by
  intro h
  let data := ascii ("\x7b\"jsonrpc\":\"2.0\",\"id\":1,\"result\":\x7b\"content\":[\x7b\"type\":" ++
    "\"text\",\"text\":\"unknown tool a\nb\"\x7d],\"isError\":true\x7d\x7d")
  obtain ⟨out, hout, hr⟩ := h 0 (frame data) (by decide +kernel)
  obtain rfl : data = out := by
    have hd : dispatchRpc .release (ascii ("\x7b\"id\":1,\"method\":\"tools/call\"," ++
      "\"params\":\x7b\"name\":\"a\nb\"\x7d\x7d")) false = .ok (.json 200 data) := by decide +kernel
    rw [hd] at hout
    cases hout
    rfl
  exact absurd ((readsBack_iff 0 data).mp hr (byte '\n') (by decide +kernel)) (by decide)

end Mcp
end Statico
