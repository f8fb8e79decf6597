/-
# Well-formed bodies

What the dispatcher makes of a body that is a JSON object. It reports a
parse error if a method is no string, or if the text of an object or array
under `id` throws it off the track; it answers with a JSON text whenever
every id is a scalar.

Key theorems: `parse_error_iff`, `answers_wellFormed`.
-/
import Statico.Mcp.Lenient
import Statico.Mcp.Spelling

namespace Statico
namespace Mcp

open Json

/-- `{"k":v}` -/
def oneMember (k : String) (v : Value Bytes) : Bytes := objectText (joinMembers [(ascii k, v.render)])

theorem document_oneMember (k : String) {v : Value Bytes} (hv : Spells rfc (.value v) v.render)
    (hk : (ascii k).all isPlain = true := by decide) :
    Document rfc (.obj [(ascii k, v)]) (oneMember k v) :=
  (spells_object (.cons (written_plain rfc_ascii k hv hk) .nil)).document

section Document

variable {body : Slice} {ms : Tree}

/-- With scalar ids the scanners parse exactly the requests whose methods are
strings. -/
theorem lenientObject_iff (h : Document rfc (.obj ms) body.bytes) (hid : ScalarIds ms) :
    LenientObject body.bytes ↔ StringMethods ms := by
  rw [← parseRpc_lenient]
  constructor
  · rintro ⟨rpc, hp⟩
    by_contra hm
    rw [parseRpc_badMethod rfc_scannable rfc_raw .release h h.membersDepth_lt hid hm] at hp
    cases hp
  · intro hm
    obtain ⟨rpc, hp, -⟩ := parseRpc_document rfc_scannable rfc_raw .release h h.membersDepth_lt hid hm
    exact ⟨rpc, hp⟩

/-- The members of a well-formed object stand for themselves. -/
theorem names_rfc {b : Bytes} (h : Document rfc (.obj ms) b) : Names rfc (.members ms) (.members ms) := by
  obtain ⟨w, t, w', -, ht, -, -⟩ := h
  have hself : ∀ {s r : Bytes}, rfc.string s r → rfc.string r r := fun h => ⟨rfl, h.2⟩
  obtain ⟨m, hm, -⟩ := ht.names hself id
  obtain rfl := hm.eq rfc_raw
  cases hm with
  | obj hm => exact hm

theorem plainWords_rfc : PlainWords rfc ms := by
  have h : ∀ w r, Plainly rfc w r := fun w r h => h.1.symm
  refine ⟨fun m _ => ⟨h _ _, h _ _, h _ _⟩, fun r _ => ⟨h _ _, h _ _, h _ _, h _ _, ?_⟩, fun ps _ => ?_⟩
  · rintro s ⟨rfl, -⟩ hn
    exact hn
  · exact ⟨fun m _ => ⟨h _ _, h _ _, h _ _⟩, fun r _ => ⟨h _ _, h _ _⟩, fun as _ m _ => h _ _⟩

/-- A request with scalar ids is answered with a JSON text. -/
theorem reference_wellFormed (h : Document rfc (.obj ms) body.bytes) {st : ℕ} {out : Bytes}
    (ho : (reference ms false).output = .json st out) : WellFormed out := by
  have ha := reference_names rfc_transparent (names_rfc h) plainWords_rfc false
  generalize reference ms false = r at ha ho
  cases ha with
  | empty _ => cases ho
  | json _ hs =>
    cases ho
    exact ⟨_, hs.document⟩
  | event _ => cases ho

theorem errParse_wellFormed : WellFormed errParse := by
  have null : Spells rfc (.value (.lit (ascii "null"))) (ascii "null") := .lit (Or.inl rfl)
  rw [errParse_eq]
  exact ⟨_, (spells_reply rfc_ascii "error" null
    (spells_error rfc_ascii (literal_negative (by decide) (by decide) (by decide)))).document⟩

end Document

/-- The scanner gets past a well-formed text. -/
theorem wellFormed_cut {b : Bytes} (h : WellFormed b) (hb : b.length < 2 ^ 64) :
    ∃ f, cutValue .release b = .ok f := by
  obtain ⟨v, w, t, w', hw, ht, hw', rfl⟩ := h
  have hd := ht.depth_le
  have hs := spells_skips rfc_scannable .release ht (by
    simp only [Node.depth, List.length_append] at hd hb
    omega)
  refine ⟨w', ?_⟩
  have hcut := hs.cut w' (by
    rw [← List.append_nil w']
    exact follow_blank hw' fun _ _ e => by cases e)
  unfold cutValue at hcut ⊢
  rw [dropBlank_append hw]
  exact hcut

/-- A well-formed object is reported as unparsable exactly if a method is no
string, or if the scanners lose their way in a structured id. -/
theorem parse_error_iff (body : Slice) (ms : Tree) (h : Document rfc (.obj ms) body.bytes) :
    (∀ sse, dispatchRpc .release body.bytes sse ≠ .ok (.json 400 errParse)) ↔
      ScalarIds ms ∧ StringMethods ms ∨ ¬ ScalarIds ms ∧ LenientObject body.bytes := by
  have hsse : (∀ sse, dispatchRpc .release body.bytes sse ≠ .ok (.json 400 errParse)) ↔
      LenientObject body.bytes := by
    simp only [ne_eq, dispatch_parse_error, not_not]
    exact ⟨fun h => h false, fun h _ => h⟩
  rw [hsse]
  by_cases hid : ScalarIds ms
  · rw [lenientObject_iff h hid]
    simp only [hid, not_true_eq_false, false_and, or_false, true_and]
  · simp only [hid, false_and, false_or, not_false_eq_true, true_and]

/-- `{"id":true}` is not reported as unparsable. -/
theorem parse_error_iff_id :
    dispatchRpc .release (oneMember "id" (.lit (ascii "true"))) true ≠ .ok (.json 400 errParse) :=
  (parse_error_iff ⟨_, by decide⟩ _ (document_oneMember "id" (.lit (Or.inr (Or.inl rfl))))).mpr
    (Or.inl ⟨by simp [ScalarIds, IsScalar],
      by simp [StringMethods, show ascii "id" ≠ plain "method" by decide]⟩) true

/-- `{"method":true}` is reported as unparsable. -/
theorem parse_error_method :
    ¬ (WellFormedObject (oneMember "method" (.lit (ascii "true"))) →
      ∀ sse, dispatchRpc .release (oneMember "method" (.lit (ascii "true"))) sse ≠
        .ok (.json 400 errParse)) := by
  intro h
  exact h ⟨_, document_oneMember "method" (.lit (Or.inr (Or.inl rfl)))⟩ false (by decide +kernel)

/-- The answer to a well-formed object is well-formed, if no id is structured
or the body is reported as unparsable. -/
theorem answers_wellFormed (body : Slice) (ms : Tree) (h : Document rfc (.obj ms) body.bytes)
    (hid : ScalarIds ms ∨ ¬ LenientObject body.bytes) (st : ℕ) (out : Bytes)
    (hd : dispatchRpc .release body.bytes false = .ok (.json st out)) : WellFormed out := by
  by_cases hl : LenientObject body.bytes
  · have hid := hid.resolve_right (not_not_intro hl)
    rw [dispatch_reference .release body ms false h ((lenientObject_iff h hid).mp hl) hid] at hd
    exact reference_wellFormed h (Scan.ok.inj hd)
  · rw [(dispatch_parse_error body false).mpr hl] at hd
    cases hd
    exact errParse_wellFormed

/-- The answer to `{"id":true}` is well-formed. -/
theorem answers_wellFormed_id : WellFormed (buildErrorWithId (ascii "true") errInvalidSuffix) :=
  answers_wellFormed ⟨oneMember "id" (.lit (ascii "true")), by decide⟩ _
    (document_oneMember "id" (.lit (Or.inr (Or.inl rfl)))) (Or.inl (by simp [ScalarIds, IsScalar])) 400 _
    (by decide +kernel)

/-- The answer to `{"id":{}}` has the id `{`. -/
theorem answers_wellFormed_object :
    ¬ (WellFormedObject (oneMember "id" (.obj [])) → ∀ st out,
      dispatchRpc .release (oneMember "id" (.obj [])) false = .ok (.json st out) → WellFormed out) := by
  intro h
  have hdoc := document_oneMember "id" (.objEmpty blank_nil)
  obtain ⟨f, hf⟩ := wellFormed_cut (h ⟨_, hdoc⟩ 400 (buildErrorWithId (ascii "\x7b") errInvalidSuffix)
    (by decide +kernel)) (by decide)
  have hfail : cutValue .release (buildErrorWithId (ascii "\x7b") errInvalidSuffix) = .fail := by
    decide +kernel
  rw [hfail] at hf
  cases hf

end Mcp
end Statico
