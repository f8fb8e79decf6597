/-
# The scanners are total and in bounds

A slice out of range is a halt of the model, and so is a loop past its
bound. A release build has neither, whatever the bytes are: an escape may be
the last byte, a string or a bracket may stay open. `dispatch_rpc` returns,
the positions of `parse_string` and `skip_value` move on and stay in the
body, and what the object scanners return are slices in range.

Key definitions: `IsSlice`, `RpcSlices`.
Key theorems: `parseString_bounds`, `skipValue_bounds`, `scanners_total`.
-/
import Statico.Mcp.Sse

namespace Statico
namespace Mcp

open Json

variable {H : Halt → Prop} {p : Profile} {body s t : Bytes}

/-! ### Positions -/

/-- A string starts after its quote, and its closing quote is in the body. -/
theorem parseString_bounds (body : Bytes) (pos : ℕ) : (parseString body pos).Ensures H
    fun x => pos < x.1 ∧ x.1 ≤ x.2.1 ∧ x.2.1 < x.2.2 ∧ x.2.2 ≤ body.length := by
  by_cases hp : pos ≤ body.length
  · have hat : At body pos (body.drop pos) := ⟨hp, rfl⟩
    apply (parseString_at hat).ensures (cutQuoted_ensures _)
    rintro _ y ⟨rfl, e⟩ -
    have hlen := hat.length
    rw [e, List.length_append] at hlen
    simp only [quoted, List.length_cons, List.length_append, List.length_nil] at hlen
    simp only
    omega
  · have hget : get body pos = .fail := by
      unfold get
      rw [List.getElem?_eq_none (by omega)]
      rfl
    unfold parseString
    rw [hget]
    trivial

/-- A value ends in the body, and not before it starts. -/
theorem skipValue_bounds (h : Skipping p H body) (pos : ℕ) :
    (skipValue p body pos).Ensures H fun n => pos ≤ n ∧ n ≤ body.length := by
  by_cases hp : pos ≤ body.length
  · have hat : At body pos (body.drop pos) := ⟨hp, rfl⟩
    have hskip := h.within (List.drop_suffix pos body).isInfix
    apply (skipValue_at hat).ensures (cutValue_ensures hskip)
    intro n t hn ht
    have hstart := hat.length
    have hend := hn.1.length
    have hle := ht.1.length_le
    exact ⟨by omega, hn.1.1⟩
  · rw [skipValue_beyond p hp]
    trivial

/-! ### Slices -/

/-- A slice of the text whose bounds are in range. -/
def IsSlice (body t : Bytes) : Prop := ∃ s e, s ≤ e ∧ e ≤ body.length ∧ slice body s e = .ok t

theorem isSlice_within (h : t <:+: body) : IsSlice body t := by
  obtain ⟨u, v, rfl⟩ := h
  have hat : At (u ++ t ++ v) u.length (t ++ v) := by
    rw [List.append_assoc]
    exact At.split u (t ++ v)
  have hend : At (u ++ t ++ v) (u.length + t.length) v := hat.append
  exact ⟨_, _, Nat.le_add_right _ _, hend.1, hat.slice hend⟩

theorem isSlice_consumed (hs : s <:+ body) : IsSlice body (consumed s t) :=
  isSlice_within (consumed_within.trans hs.isInfix)

theorem isSlice_quoted {r : Bytes} (hs : s <:+ body) (h : s = quoted r ++ t) : IsSlice body r := by
  have hq : quoted r <:+: s := ⟨[], t, by rw [h]; rfl⟩
  have hr : r <:+: quoted r := ⟨[byte '"'], [byte '"'], rfl⟩
  exact isSlice_within ((hr.trans hq).trans hs.isInfix)

theorem stringInner_slice (raw : Bytes) : (stringInner raw).Ensures H (IsSlice raw) := by
  apply (stringInner_ensures raw).mono
  intro r hr
  exact isSlice_quoted (List.suffix_refl raw) (hr.trans (List.append_nil _).symm)

/-- The parts of a request are slices of the body. -/
structure RpcSlices (body : Bytes) (rpc : Rpc) : Prop where
  method : ∀ t ∈ rpc.method, IsSlice body t
  id : ∀ t ∈ rpc.idRaw, IsSlice body t
  params : ∀ t ∈ rpc.paramsRaw, IsSlice body t

theorem RpcSlices.taken {rpc rpc' : Rpc} (h : RpcSlices body rpc) (hs : s <:+ body)
    (ht : RpcTaken rpc s rpc' t) : RpcSlices body rpc' := by
  cases ht with
  | method e =>
    refine ⟨?_, h.id, h.params⟩
    rintro _ ⟨⟩
    exact isSlice_quoted hs e
  | id _ e =>
    refine ⟨h.method, ?_, h.params⟩
    rintro _ ⟨⟩
    exact isSlice_within ((List.prefix_append _ t).isInfix.trans (e ▸ hs.isInfix))
  | params _ =>
    refine ⟨h.method, h.id, ?_⟩
    rintro _ ⟨⟩
    exact isSlice_consumed hs
  | other _ => exact h

theorem parseRpc_slices (h : Skipping p H body) : (parseRpc p body).Ensures H (RpcSlices body) := by
  rw [parseRpc_eq]
  apply cutObject_ensures (J := RpcSlices body)
  · intro rpc k s hrpc hs _
    exact rpcMember_ensures (h.within hs.isInfix) rpc k fun _ _ ht => hrpc.taken hs ht
  · intro rpc hrpc
    exact hrpc
  · exact ⟨by rintro _ ⟨⟩, by rintro _ ⟨⟩, by rintro _ ⟨⟩⟩

theorem findProtocolVersion_slice (h : Skipping p H body) :
    (findProtocolVersion p body).Ensures H (IsSlice body) := by
  rw [findProtocolVersion_eq]
  apply cutObject_ensures (J := fun _ => True)
  · intro _ k s _ hs _
    unfold cutVersionMember
    by_cases h1 : k = ascii "protocolVersion"
    · rw [if_pos h1]
      exact (cutQuoted_ensures s).bind fun x hx => isSlice_quoted hs hx.2
    · rw [if_neg h1]
      exact (cutValue_ensures (h.within hs.isInfix)).bind fun t ht => ⟨ht.1, trivial⟩
  · intro _ _
    trivial
  · trivial

theorem findRawValue_slice (h : Skipping p H body) (wanted : Bytes) :
    (findRawValue p body wanted).Ensures H (IsSlice body) := by
  rw [findRawValue_eq, rawMember_eq]
  apply cutObject_ensures (J := fun _ => True)
  · intro st k s _ hs _
    apply valueMember_ensures (J := fun _ => True) (h.within hs.isInfix)
    intro t _
    unfold rawUpd
    split_ifs
    · exact isSlice_consumed hs
    · trivial
  · exact fun _ _ => trivial
  · trivial

theorem findCallTarget_slices (h : Skipping p H body) : (findCallTarget p body).Ensures H
    fun x => IsSlice body x.1 ∧ ∀ a ∈ x.2, IsSlice body a := by
  rw [findCallTarget_eq, targetMember_eq]
  apply cutObject_ensures (J := fun st => (∀ n ∈ st.1, IsSlice body n) ∧ ∀ a ∈ st.2, IsSlice body a)
  · intro st k s hst hs _
    apply valueMember_ensures
      (J := fun st : Option Bytes × Option Bytes => (∀ n ∈ st.1, IsSlice body n) ∧ ∀ a ∈ st.2, IsSlice body a)
      (h.within hs.isInfix)
    intro t _
    unfold targetUpd
    split_ifs
    · refine ⟨?_, hst.2⟩
      rintro _ ⟨⟩
      exact isSlice_consumed hs
    · refine ⟨hst.1, ?_⟩
      rintro _ ⟨⟩
      exact isSlice_consumed hs
    · exact hst
  · intro st hst
    exact (Scan.ensures_option st.1).bind fun n hn => ⟨hst.1 n hn, hst.2⟩
  · exact ⟨by rintro _ ⟨⟩, by rintro _ ⟨⟩⟩

/-! ### The dispatcher returns -/

theorem dispatchMethod_ne_fail (p : Profile) (m id : Bytes) (paramsRaw : Option Bytes) (sse : Bool) :
    dispatchMethod p m id paramsRaw sse ≠ .fail := by
  unfold dispatchMethod
  by_cases h1 : m = ascii "initialize"
  · rw [if_pos h1]
    cases (do findProtocolVersion p (← Scan.ofOption paramsRaw) : Scan Bytes) <;>
      exact fun h => by cases h
  · rw [if_neg h1]
    by_cases h4 : m = ascii "tools/call"
    · rw [h4, if_neg (by decide), if_neg (by decide), if_pos rfl]
      cases handleToolsCall p id paramsRaw sse <;> cases sse <;> exact fun h => by cases h
    · rw [if_neg h4]
      split_ifs <;> exact fun h => by cases h

/-- A scan that fails is an answer of the dispatcher. -/
theorem dispatchRpc_ne_fail (p : Profile) (body : Bytes) (sse : Bool) :
    dispatchRpc p body sse ≠ .fail := by
  intro h
  cases hp : parseRpc p body with
  | fail =>
    rw [dispatchRpc_fail hp] at h
    cases h
  | halt w =>
    rw [dispatchRpc_halt hp] at h
    cases h
  | ok rpc =>
    rw [dispatchRpc_ok hp] at h
    rcases dispatchParsed_cases p rpc with ⟨m, id, -, -, -, e⟩ | ⟨id, -, -, -, e⟩ | e
    · rw [e] at h
      exact dispatchMethod_ne_fail p m id _ sse h
    · rw [e] at h
      cases h
    · rw [e] at h
      cases h

theorem dispatchRpc_total (body : Bytes) (sse : Bool) : ∃ out, dispatchRpc .release body sse = .ok out := by
  have hens := dispatchRpc_ensures (skipping_release (H := fun _ => False) body) sse
  cases hx : dispatchRpc .release body sse with
  | ok out => exact ⟨out, rfl⟩
  | fail => exact absurd hx (dispatchRpc_ne_fail .release body sse)
  | halt w =>
    rw [hx] at hens
    exact hens.elim

/-- On any bytes the dispatcher returns, no scanner halts, the positions they
return are in the body, and what they cut out is a slice in range. -/
theorem scanners_total (body : Bytes) :
    (∀ sse, ∃ out, dispatchRpc .release body sse = .ok out) ∧
    (∀ pos, (parseString body pos).Ensures (fun _ => False) fun x =>
      pos < x.1 ∧ x.1 ≤ x.2.1 ∧ x.2.1 < x.2.2 ∧ x.2.2 ≤ body.length) ∧
    (∀ pos, (skipValue .release body pos).Ensures (fun _ => False) fun n => pos ≤ n ∧ n ≤ body.length) ∧
    (parseRpc .release body).Ensures (fun _ => False) (RpcSlices body) ∧
    (findProtocolVersion .release body).Ensures (fun _ => False) (IsSlice body) ∧
    (∀ wanted, (findRawValue .release body wanted).Ensures (fun _ => False) (IsSlice body)) ∧
    (findCallTarget .release body).Ensures (fun _ => False)
      (fun x => IsSlice body x.1 ∧ ∀ a ∈ x.2, IsSlice body a) ∧
    (stringInner body).Ensures (fun _ => False) (IsSlice body) := by
  have hs : Skipping .release (fun _ => False) body := skipping_release body
  exact ⟨dispatchRpc_total body, parseString_bounds body, skipValue_bounds hs, parseRpc_slices hs,
    findProtocolVersion_slice hs, findRawValue_slice hs, findCallTarget_slices hs,
    stringInner_slice body⟩

end Mcp
end Statico
