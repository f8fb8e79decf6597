/-
# What the four object scanners read

On the text of a JSON object each of the four object scanners of `mcp.rs` is
a fold over the keys and value texts (`foldMembers`), and the fold picks a
member by its key: `parse_rpc` and `find_call_target` the last one,
`find_raw_value` and `find_protocol_version` the first.

Key definitions: `rpcUpd`, `versionUpd`, `rawUpd`, `targetUpd`, `valueMember`,
`IdText`.
Key theorems: `fold_rpc`, `fold_version`, `fold_raw`, `fold_target`.
-/
import Statico.Mcp.JsonText

namespace Statico
namespace Mcp

open Json

/-! ### Quoted strings -/

/-- The text of a value that is a string, or starts as no string does. -/
def Shape (t : Bytes) : Prop :=
  (∃ r, Closed r ∧ t = quoted r) ∨ ∃ c u, t = c :: u ∧ c ≠ byte '"'

/-- What stands between the first and the last byte. -/
def unquote (t : Bytes) : Bytes := t.tail.dropLast

theorem unquote_quoted (r : Bytes) : unquote (quoted r) = r := by simp [unquote, quoted]

theorem stringInner_quoted (r : Bytes) : stringInner (quoted r) = .ok r := by
  unfold stringInner
  have hl : (quoted r).length = r.length + 2 := by simp [quoted]
  have hh : (quoted r).head? = some (byte '"') := rfl
  have ht : (quoted r).getLast? = some (byte '"') := by
    rw [quoted, ← List.cons_append, List.getLast?_concat]
  rw [if_pos ⟨by omega, hh, ht⟩, slice, if_pos ⟨by omega, by omega⟩, hl]
  congr 1
  simp [quoted]

theorem stringInner_other {c : UInt8} (hc : c ≠ byte '"') (u : Bytes) : stringInner (c :: u) = .fail := by
  unfold stringInner
  rw [if_neg]
  rintro ⟨-, h, -⟩
  rw [List.head?_cons, Option.some.injEq] at h
  exact hc h

theorem cutQuoted_other {c : UInt8} (hc : c ≠ byte '"') (u : Bytes) : cutQuoted (c :: u) = .fail := by
  rw [cutQuoted, uncons_cons, Scan.ok_bind]
  simp only [ne_eq, hc, not_false_eq_true, if_true]

/-- A quoted string is cut off by its inside. -/
theorem cutQuoted_shape {t : Bytes} (h : Shape t) (f : Bytes) :
    cutQuoted (t ++ f) = (stringInner t >>= fun r => .ok (r, f)) := by
  rcases h with ⟨r, hr, rfl⟩ | ⟨c, u, rfl, hc⟩
  · rw [cutQuoted_quoted hr, stringInner_quoted]
    rfl
  · rw [List.cons_append, cutQuoted_other hc, stringInner_other hc]
    rfl

/-! ### The members -/

theorem method_ne_id : ascii "method" ≠ ascii "id" := by decide
theorem method_ne_params : ascii "method" ≠ ascii "params" := by decide
theorem id_ne_params : ascii "id" ≠ ascii "params" := by decide
theorem name_ne_arguments : ascii "name" ≠ ascii "arguments" := by decide

/-- A text that the `id` branch of `parse_rpc` takes whole. -/
def IdText (t : Bytes) : Prop :=
  (∃ r, Closed r ∧ t = quoted r) ∨
    (∃ c u, t = c :: u ∧ c ≠ byte '"') ∧ ∀ b ∈ t, Json.isDelim b = false

def rpcUpd (rpc : Rpc) (k t : Bytes) : Scan (Step Rpc Rpc) :=
  if k = ascii "method" then stringInner t >>= fun m => .ok (.next { rpc with method := some m })
  else if k = ascii "id" then .ok (.next { rpc with idRaw := some t })
  else if k = ascii "params" then .ok (.next { rpc with paramsRaw := some t })
  else .ok (.next rpc)

def versionUpd (_ : Unit) (k t : Bytes) : Scan (Step Unit Bytes) :=
  if k = ascii "protocolVersion" then stringInner t >>= fun v => .ok (.done v) else .ok (.next ())

def rawUpd (wanted : Bytes) (_ : Unit) (k t : Bytes) : Scan (Step Unit Bytes) :=
  if k = wanted then .ok (.done t) else .ok (.next ())

def targetUpd (st : Option Bytes × Option Bytes) (k t : Bytes) :
    Scan (Step (Option Bytes × Option Bytes) (Bytes × Option Bytes)) :=
  if k = ascii "name" then .ok (.next (some t, st.2))
  else if k = ascii "arguments" then .ok (.next (st.1, some t))
  else .ok (.next st)

section Values

variable {σ α : Type}

/-- A member that is cut off and then taken into account by its key and text. -/
def valueMember (p : Profile) (upd : σ → Bytes → Bytes → Scan (Step σ α)) (st : σ) (key s : Bytes) :
    Scan (Step (σ × Bytes) α) := do
  let t ← cutValue p s
  match ← upd st key (consumed s t) with
  | .done a => return .done a
  | .next st => return .next (st, t)

theorem rawMember_eq (p : Profile) (wanted : Bytes) :
    cutRawMember p wanted = valueMember p (rawUpd wanted) := by
  funext st key s
  unfold cutRawMember valueMember rawUpd
  apply congrArg
  funext t
  by_cases h1 : key = wanted
  · rw [if_pos h1, if_pos h1]
    rfl
  · rw [if_neg h1, if_neg h1]
    rfl

theorem targetMember_eq (p : Profile) : cutTargetMember p = valueMember p targetUpd := by
  funext st key s
  unfold cutTargetMember valueMember targetUpd
  cases cutValue p s with
  | fail => rfl
  | halt w => rfl
  | ok t =>
    simp only [Scan.ok_bind]
    by_cases h1 : key = ascii "name"
    · rw [if_pos h1, if_pos h1]
      rfl
    · by_cases h2 : key = ascii "arguments"
      · rw [if_neg h1, if_neg h1, if_pos h2, if_pos h2]
        rfl
      · rw [if_neg h1, if_neg h1, if_neg h2, if_neg h2]
        rfl

end Values

section Reads

variable {p : Profile} {k t : Bytes}

/-- What `parse_rpc` needs of a member to read it. -/
structure RpcReadable (p : Profile) (k t : Bytes) : Prop where
  method : k = ascii "method" → Shape t
  id : k = ascii "id" → IdText t
  other : k ≠ ascii "method" → k ≠ ascii "id" → Skips p t

theorem rpc_reads (h : RpcReadable p k t) : Reads (cutRpcMember p) rpcUpd k t := by
  intro rpc f hf
  unfold cutRpcMember rpcUpd
  by_cases h1 : k = ascii "method"
  · rw [if_pos h1, if_pos h1, cutQuoted_shape (h.method h1)]
    cases stringInner t <;> rfl
  · rw [if_neg h1, if_neg h1]
    by_cases h2 : k = ascii "id"
    · rw [if_pos h2, if_pos h2]
      rcases h.id h2 with ⟨r, hr, rfl⟩ | ⟨⟨c, u, rfl, hc⟩, hd⟩
      · rw [show uncons (quoted r ++ f) = .ok (byte '"', _) from rfl, Scan.ok_bind]
        simp only [if_true]
        rw [cutQuoted_quoted hr]
        rfl
      · rw [takeWhile_bare hf hd, dropWhile_bare hf hd, List.cons_append, uncons_cons, Scan.ok_bind]
        simp only [if_neg hc, reduceCtorEq, if_false]
        rfl
    · rw [if_neg h2, if_neg h2, (h.other h1 h2).cut f hf]
      by_cases h3 : k = ascii "params"
      · rw [if_pos h3, if_pos h3, Scan.ok_bind, consumed_append]
        rfl
      · rw [if_neg h3, if_neg h3]
        rfl

theorem version_reads (h : Skips p t) (hs : Shape t) : Reads (cutVersionMember p) versionUpd k t := by
  intro _ f hf
  unfold cutVersionMember versionUpd
  by_cases h1 : k = ascii "protocolVersion"
  · rw [if_pos h1, if_pos h1, cutQuoted_shape hs]
    cases stringInner t <;> rfl
  · rw [if_neg h1, if_neg h1, h.cut f hf]
    rfl

/-- A member that cuts its value off reads every value that is skipped. -/
theorem value_reads {σ α : Type} {upd : σ → Bytes → Bytes → Scan (Step σ α)} (h : Skips p t) :
    Reads (valueMember p upd) upd k t := by
  intro st f hf
  unfold valueMember
  rw [h.cut f hf, Scan.ok_bind, consumed_append]
  apply congrArg
  funext x
  cases x <;> rfl

theorem raw_reads (h : Skips p t) (wanted : Bytes) :
    Reads (cutRawMember p wanted) (rawUpd wanted) k t := by
  rw [rawMember_eq]
  exact value_reads h

theorem target_reads (h : Skips p t) : Reads (cutTargetMember p) targetUpd k t := by
  rw [targetMember_eq]
  exact value_reads h

end Reads

/-! ### The folds -/

/-- `parse_rpc` keeps the last `method`, `id` and `params`. -/
theorem fold_rpc : ∀ {ms : List (Bytes × Bytes)} (rpc : Rpc),
    (∀ m ∈ ms, m.1 = ascii "method" → ∃ r, m.2 = quoted r) →
    foldMembers rpcUpd .ok ms rpc =
      .ok ⟨((lastOf (ascii "method") ms).map unquote).or rpc.method,
        (lastOf (ascii "id") ms).or rpc.idRaw, (lastOf (ascii "params") ms).or rpc.paramsRaw⟩
  | [], _, _ => rfl
  | (k, t) :: ms, rpc, h => by
    have ih := fun rpc' => @fold_rpc ms rpc' fun m hm => h m (List.mem_cons_of_mem _ hm)
    simp only [foldMembers, rpcUpd, lastOf]
    by_cases h1 : k = ascii "method"
    · obtain ⟨r, rfl⟩ := h _ List.mem_cons_self h1
      rw [if_pos h1, stringInner_quoted, Scan.ok_bind, Scan.ok_bind]
      simp only [ih, h1, if_true, Option.map_or, Option.map_some, unquote_quoted, Option.or_assoc,
        Option.some_or, method_ne_id, method_ne_params, if_false, Option.or_none]
    · rw [if_neg h1]
      by_cases h2 : k = ascii "id"
      · rw [if_pos h2, Scan.ok_bind]
        simp only [ih, h2, if_true, Option.or_assoc, Option.some_or,
          method_ne_id.symm, id_ne_params, if_false, Option.or_none]
      · rw [if_neg h2]
        by_cases h3 : k = ascii "params"
        · rw [if_pos h3, Scan.ok_bind]
          simp only [ih, h3, if_true, Option.or_assoc, Option.some_or,
            method_ne_params.symm, id_ne_params.symm, if_false, Option.or_none]
        · rw [if_neg h3, Scan.ok_bind]
          simp only [ih, h1, h2, h3, if_false, Option.or_none]

/-- A `method` that is no string ends `parse_rpc`. -/
theorem fold_rpc_fail : ∀ {ms : List (Bytes × Bytes)} (rpc : Rpc),
    (∀ m ∈ ms, m.1 = ascii "method" → Shape m.2) →
    (∃ m ∈ ms, m.1 = ascii "method" ∧ ∀ r, m.2 ≠ quoted r) → foldMembers rpcUpd .ok ms rpc = .fail
  | [], _, _, h => by
    obtain ⟨m, hm, -⟩ := h
    cases hm
  | (k, t) :: ms, rpc, hs, h => by
    have ih : (∃ m ∈ ms, m.1 = ascii "method" ∧ ∀ r, m.2 ≠ quoted r) → ∀ rpc',
        foldMembers rpcUpd .ok ms rpc' = .fail := fun h rpc' =>
      fold_rpc_fail rpc' (fun m hm => hs m (List.mem_cons_of_mem _ hm)) h
    have htail : (k = ascii "method" → ∃ r, t = quoted r) →
        ∃ m ∈ ms, m.1 = ascii "method" ∧ ∀ r, m.2 ≠ quoted r := by
      intro hk
      obtain ⟨m, hm, hmm, hr⟩ := h
      rcases List.mem_cons.mp hm with rfl | hm
      · obtain ⟨r, e⟩ := hk hmm
        exact absurd e (hr r)
      · exact ⟨m, hm, hmm, hr⟩
    rw [foldMembers, rpcUpd]
    by_cases h1 : k = ascii "method"
    · rw [if_pos h1]
      rcases hs _ List.mem_cons_self h1 with ⟨r, -, e⟩ | ⟨c, u, e, hc⟩
      · obtain rfl : t = quoted r := e
        rw [stringInner_quoted, Scan.ok_bind, Scan.ok_bind]
        exact ih (htail fun _ => ⟨r, rfl⟩) _
      · obtain rfl : t = c :: u := e
        rw [stringInner_other hc]
        rfl
    · have ht := htail fun e => absurd e h1
      rw [if_neg h1]
      split_ifs <;> exact ih ht _

/-- `find_protocol_version` reads the first one. -/
theorem fold_version : ∀ (ms : List (Bytes × Bytes)),
    foldMembers versionUpd (fun _ => .fail) ms () =
      (Scan.ofOption (firstOf (ascii "protocolVersion") ms) >>= stringInner)
  | [] => rfl
  | (k, t) :: ms => by
    simp only [foldMembers, versionUpd, firstOf]
    by_cases h1 : k = ascii "protocolVersion"
    · rw [if_pos h1, if_pos h1, Scan.ofOption_some, Scan.ok_bind]
      cases stringInner t <;> rfl
    · rw [if_neg h1, if_neg h1, Scan.ok_bind]
      exact fold_version ms

/-- `find_raw_value` reads the first one. -/
theorem fold_raw (wanted : Bytes) : ∀ (ms : List (Bytes × Bytes)),
    foldMembers (rawUpd wanted) (fun _ => .fail) ms () = Scan.ofOption (firstOf wanted ms)
  | [] => rfl
  | (k, t) :: ms => by
    simp only [foldMembers, rawUpd, firstOf]
    by_cases h1 : k = wanted
    · rw [if_pos h1, if_pos h1]
      rfl
    · rw [if_neg h1, if_neg h1, Scan.ok_bind]
      exact fold_raw wanted ms

/-- `find_call_target` keeps the last `name` and the last `arguments`. -/
theorem fold_target : ∀ (ms : List (Bytes × Bytes)) (st : Option Bytes × Option Bytes),
    foldMembers targetUpd (fun x => do return (← Scan.ofOption x.1, x.2)) ms st =
      (Scan.ofOption ((lastOf (ascii "name") ms).or st.1) >>= fun n =>
        .ok (n, (lastOf (ascii "arguments") ms).or st.2))
  | [], _ => rfl
  | (k, t) :: ms, st => by
    simp only [foldMembers, targetUpd, lastOf]
    by_cases h1 : k = ascii "name"
    · rw [if_pos h1, Scan.ok_bind]
      simp only [fold_target ms, h1, if_true, Option.or_assoc, Option.some_or,
        name_ne_arguments, if_false, Option.or_none]
    · rw [if_neg h1]
      by_cases h2 : k = ascii "arguments"
      · rw [if_pos h2, Scan.ok_bind]
        simp only [fold_target ms, h2, if_true, Option.or_assoc, Option.some_or,
          name_ne_arguments.symm, if_false, Option.or_none]
      · rw [if_neg h2, Scan.ok_bind]
        simp only [fold_target ms, h1, h2, if_false, Option.or_none]

end Mcp
end Statico
