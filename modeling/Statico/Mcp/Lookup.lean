/-
# One object, several lookups

`find_call_target`, `find_raw_value` and `find_protocol_version` are three
loops over the same members. `objectMembers` lists what they read there: the
keys and the slices of the values, whatever the bytes are. The loops are folds
over that list (`cutObject_members`), and they part where a key is repeated:
`find_call_target` keeps its last value, the other two return its first
(`lookups_agree_iff`).

`find_protocol_version` reads its string directly, the generic lookup cuts
the value off and strips the quotes; the two agree on every input of a
release build (`findProtocolVersion_generic`).

Key definitions: `objectMembers`, `Turn`.
Key theorems: `cutObject_members`, `objectMembers_text`, `lookups_agree_iff`,
`findProtocolVersion_generic`.
-/
import Statico.Mcp.Reference
import Statico.Mcp.Slices

namespace Statico
namespace Mcp

open Json

/-! ### What follows an object -/

section Object

variable {σ α β : Type} {member : σ → Bytes → Bytes → Scan (Step (σ × Bytes) α)} {close : σ → Scan α}

theorem cutObjectStep_bind (k : α → Scan β) (x : σ × Bytes) :
    (cutObjectStep member close x >>= Step.finish k) =
      cutObjectStep (fun st key s => member st key s >>= Step.finish k) (fun st => close st >>= k) x := by
  obtain ⟨st, s⟩ := x
  rw [cutObjectStep_eq, cutObjectStep_eq, bind_assoc]
  apply congrArg
  funext o
  cases o with
  | none =>
    simp only [bind_assoc]
    rfl
  | some kv =>
    simp only [bind_assoc]
    apply congrArg
    funext r
    cases r with
    | done a => simp only [Step.finish, Scan.ok_bind, bind_assoc]
    | next y =>
      simp only [Step.finish, Scan.ok_bind, bind_assoc]
      apply congrArg
      funext z
      cases z with
      | none =>
        simp only [bind_assoc]
        rfl
      | some r => rfl

/-- What follows the scan of an object can as well be done at its members. -/
theorem cutObject_bind (k : α → Scan β) (body : Bytes) (st : σ) :
    (cutObject body member close st >>= k) = cutObject body
      (fun st key s => member st key s >>= Step.finish k) (fun st => close st >>= k) st := by
  unfold cutObject
  rw [bind_assoc]
  apply congrArg
  funext x
  by_cases h1 : x.1 = byte '{'
  · simp only [h1, ne_eq, not_true_eq_false, if_false]
    rw [loop_bind]
    apply loop_rel (R := Eq)
    · intro x y h
      rw [h, cutObjectStep_bind]
      exact (Scan.Rel.refl _).mono fun a b e => by
        rw [e]
        cases b with
        | next s => exact .next rfl
        | done b => exact .done b
    · rfl
  · simp only [ne_eq, h1, not_false_eq_true, if_true]
    rfl

/-- The members are asked only where no white space stands. -/
theorem cutObject_congr {member' : σ → Bytes → Bytes → Scan (Step (σ × Bytes) α)}
    (h : ∀ st key s, Solid s → member st key s = member' st key s) (body : Bytes) (st : σ) :
    cutObject body member close st = cutObject body member' close st := by
  have hstep : cutObjectStep member close = cutObjectStep member' close := by
    funext x
    unfold cutObjectStep
    simp only [h _ _ _ (solid_dropBlank _)]
  unfold cutObject
  rw [hstep]

end Object

/-! ### A string, read or cut off -/

/-- At a value the string is read or, cut off, stripped of its quotes. -/
theorem cutQuoted_value {s : Bytes} (hs : Solid s) : (cutQuoted s >>= fun x => .ok x.1) =
    (cutValue .release s >>= fun t => stringInner (consumed s t)) := by
  cases s with
  | nil => rfl
  | cons c u =>
    rw [cutValue_cons .release (solid_cons.mp hs)]
    by_cases h1 : c = byte '"'
    · rw [if_pos h1, h1, cutQuoted, uncons_cons, Scan.ok_bind]
      simp only [ne_eq, not_true_eq_false, if_false]
      cases hc : cutString u with
      | none => rfl
      | some x =>
        obtain ⟨-, rfl⟩ := cutString_spec u x.1 x.2 hc
        have hq : byte '"' :: (x.1 ++ byte '"' :: x.2) = quoted x.1 ++ x.2 := by simp [quoted]
        show Scan.ok x.1 = stringInner (consumed _ x.2)
        rw [hq, consumed_append, stringInner_quoted]
    · rw [← cutValue_cons .release (solid_cons.mp hs), cutQuoted_other h1, Scan.fail_bind]
      have hens := cutValue_release (H := fun _ => False) (c :: u)
      cases hc : cutValue .release (c :: u) with
      | fail => rfl
      | halt w =>
        rw [hc] at hens
        exact hens.elim
      | ok t =>
        rw [Scan.ok_bind]
        unfold consumed
        generalize (c :: u).length - t.length = n
        cases n with
        | zero => rfl
        | succ n => exact (stringInner_other h1 _).symm

/-- `find_protocol_version` is the generic lookup, and then the inside of the
string, on every input of a release build. -/
theorem findProtocolVersion_generic (params : Bytes) : findProtocolVersion .release params =
    (findRawValue .release params (ascii "protocolVersion") >>= stringInner) := by
  rw [findProtocolVersion_eq, findRawValue_eq, cutObject_bind]
  apply cutObject_congr
  intro _ key s hs
  unfold cutVersionMember cutRawMember
  by_cases h1 : key = ascii "protocolVersion"
  · simp only [if_pos h1, bind_assoc, Scan.pure_def, Scan.ok_bind, Step.finish]
    rw [← bind_assoc, ← cutQuoted_value hs, bind_assoc]
    rfl
  · simp only [if_neg h1, bind_assoc]
    rfl

/-! ### The members as a list -/

section Members

variable {σ α : Type}

def collectUpd (ms : List (Bytes × Bytes)) (k t : Bytes) :
    Scan (Step (List (Bytes × Bytes)) (List (Bytes × Bytes))) := .ok (.next (ms ++ [(k, t)]))

/-- The members of the object `params` starts with, to the closing brace: their
keys and the slices of their values. -/
def objectMembers (p : Profile) (params : Bytes) : Scan (List (Bytes × Bytes)) :=
  cutObject params (valueMember p collectUpd) .ok []

/-- What one turn reads: the closing brace, a last member, or a member and what
follows its comma. -/
inductive Turn
  | stop
  | last (k t : Bytes)
  | more (k t rest : Bytes)

def cutTurn (p : Profile) (s : Bytes) : Scan Turn := do
  match ← cutKey s with
  | none => return .stop
  | some (k, v) =>
    let t ← cutValue p v
    match ← cutSep t with
    | none => return .last k (consumed v t)
    | some rest => return .more k (consumed v t) rest

/-- What a loop that is asked at every value does with a turn. -/
def Turn.run (upd : σ → Bytes → Bytes → Scan (Step σ α)) (close : σ → Scan α) (st : σ) :
    Turn → Scan (Step (σ × Bytes) α)
  | .stop => close st >>= fun a => .ok (.done a)
  | .last k t => upd st k t >>= fun
    | .next st => close st >>= fun a => .ok (.done a)
    | .done a => .ok (.done a)
  | .more k t rest => upd st k t >>= fun
    | .next st => .ok (.next (st, rest))
    | .done a => .ok (.done a)

variable {p : Profile} {upd : σ → Bytes → Bytes → Scan (Step σ α)} {close : σ → Scan α}

/-- A turn that can be read is run. -/
theorem cutObjectStep_turn {s : Bytes} {T : Turn} (h : cutTurn p s = .ok T) (st : σ) :
    cutObjectStep (valueMember p upd) close (st, s) = T.run upd close st := by
  unfold cutTurn at h
  rw [cutObjectStep_eq]
  obtain ⟨o, ho, h⟩ := Scan.bind_eq_ok.mp h
  rw [ho, Scan.ok_bind]
  cases o with
  | none =>
    cases h
    rfl
  | some kv =>
    obtain ⟨k, v⟩ := kv
    obtain ⟨t, ht, h⟩ := Scan.bind_eq_ok.mp h
    obtain ⟨z, hz, h⟩ := Scan.bind_eq_ok.mp h
    simp only [valueMember, ht, Scan.ok_bind, bind_assoc]
    cases z with
    | none =>
      cases h
      apply congrArg
      funext r
      cases r with
      | done a => rfl
      | next st' => simp only [Scan.pure_def, Scan.ok_bind, hz]
    | some rest =>
      cases h
      apply congrArg
      funext r
      cases r with
      | done a => rfl
      | next st' => simp only [Scan.pure_def, Scan.ok_bind, hz]

/-- A member is taken into account and the loop goes on. -/
def GoesOn (upd : σ → Bytes → Bytes → Scan (Step σ α)) : Prop :=
  ∀ st k t, ∃ st', upd st k t = .ok (.next st')

theorem goesOn_collect : GoesOn collectUpd := fun ms k t => ⟨ms ++ [(k, t)], rfl⟩

/-- If no member ends the loop, a turn that succeeds was read to its end. -/
theorem cutTurn_of_step (hu : GoesOn upd) {s : Bytes} {st : σ} {x : Step (σ × Bytes) α}
    (h : cutObjectStep (valueMember p upd) close (st, s) = .ok x) : ∃ T, cutTurn p s = .ok T := by
  unfold cutTurn
  rw [cutObjectStep_eq] at h
  obtain ⟨o, ho, h⟩ := Scan.bind_eq_ok.mp h
  rw [ho, Scan.ok_bind]
  cases o with
  | none => exact ⟨.stop, rfl⟩
  | some kv =>
    obtain ⟨k, v⟩ := kv
    simp only [valueMember, bind_assoc] at h
    obtain ⟨t, ht, h⟩ := Scan.bind_eq_ok.mp h
    obtain ⟨st', hst⟩ := hu st k (consumed v t)
    simp only [hst, Scan.pure_def, Scan.ok_bind] at h
    obtain ⟨z, hz, -⟩ := Scan.bind_eq_ok.mp h
    simp only [ht, hz, Scan.ok_bind]
    cases z with
    | none => exact ⟨_, rfl⟩
    | some rest => exact ⟨_, rfl⟩

/-- The loop that collects the members, and any other loop over them. -/
theorem loop_turns : ∀ (n : ℕ) {acc ms : List (Bytes × Bytes)} {s : Bytes} (st : σ),
    loop (cutObjectStep (valueMember p collectUpd) .ok) n (acc, s) = .ok ms →
    ∃ rest, ms = acc ++ rest ∧
      loop (cutObjectStep (valueMember p upd) close) n (st, s) = foldMembers upd close rest st
  | 0, _, _, _, _, h => by cases h
  | n + 1, acc, ms, s, st, h => by
    rw [loop_succ] at h
    obtain ⟨x, hx, h⟩ := Scan.bind_eq_ok.mp h
    obtain ⟨T, hT⟩ := cutTurn_of_step goesOn_collect hx
    rw [cutObjectStep_turn hT] at hx
    rw [loop_succ, cutObjectStep_turn hT]
    cases T with
    | stop =>
      cases hx
      cases h
      refine ⟨[], (List.append_nil _).symm, ?_⟩
      simp only [Turn.run, foldMembers, bind_assoc, Scan.ok_bind]
      exact bind_pure (close st)
    | last k t =>
      cases hx
      cases h
      refine ⟨[(k, t)], rfl, ?_⟩
      simp only [Turn.run, foldMembers, bind_assoc]
      apply congrArg
      funext r
      cases r with
      | done a => rfl
      | next st' =>
        simp only [bind_assoc, Scan.ok_bind]
        exact bind_pure (close st')
    | more k t r =>
      cases hx
      obtain ⟨rest, rfl, -⟩ := loop_turns n st h
      refine ⟨(k, t) :: rest, List.append_assoc _ _ _, ?_⟩
      simp only [Turn.run, foldMembers, bind_assoc]
      apply congrArg
      funext x
      cases x with
      | done a => rfl
      | next st' =>
        obtain ⟨rest', e, hl⟩ := loop_turns n st' h
        rw [List.append_cancel_left e]
        exact hl

theorem loop_collects (hu : GoesOn upd) : ∀ (n : ℕ) {acc : List (Bytes × Bytes)} {s : Bytes} {st : σ}
    {a : α}, loop (cutObjectStep (valueMember p upd) close) n (st, s) = .ok a →
    ∃ ms, loop (cutObjectStep (valueMember p collectUpd) .ok) n (acc, s) = .ok ms
  | 0, _, _, _, _, h => by cases h
  | n + 1, acc, s, st, a, h => by
    rw [loop_succ] at h
    obtain ⟨x, hx, h⟩ := Scan.bind_eq_ok.mp h
    obtain ⟨T, hT⟩ := cutTurn_of_step hu hx
    rw [cutObjectStep_turn hT] at hx
    rw [loop_succ, cutObjectStep_turn hT]
    cases T with
    | stop => exact ⟨acc, rfl⟩
    | last k t => exact ⟨acc ++ [(k, t)], rfl⟩
    | more k t r =>
      obtain ⟨st', hst⟩ := hu st k t
      rw [Turn.run, hst] at hx
      cases hx
      exact loop_collects hu n h

/-- A loop over the members of an object is a fold over their list. -/
theorem cutObject_members {body : Bytes} {ms : List (Bytes × Bytes)} (h : objectMembers p body = .ok ms)
    (st : σ) : cutObject body (valueMember p upd) close st = foldMembers upd close ms st := by
  unfold objectMembers cutObject at h
  unfold cutObject
  obtain ⟨x, hx, h⟩ := Scan.bind_eq_ok.mp h
  rw [hx, Scan.ok_bind]
  by_cases h1 : x.1 = byte '{'
  · simp only [h1, ne_eq, not_true_eq_false, if_false] at h ⊢
    obtain ⟨rest, rfl, hl⟩ := loop_turns _ st h
    exact hl
  · simp only [ne_eq, h1, not_false_eq_true, if_true] at h
    cases h

/-- Where a loop that no member ends succeeds, the members can be listed. -/
theorem objectMembers_of_scan (hu : GoesOn upd) {body : Bytes} {st : σ} {a : α}
    (h : cutObject body (valueMember p upd) close st = .ok a) : ∃ ms, objectMembers p body = .ok ms := by
  unfold cutObject at h
  unfold objectMembers cutObject
  obtain ⟨x, hx, h⟩ := Scan.bind_eq_ok.mp h
  rw [hx, Scan.ok_bind]
  by_cases h1 : x.1 = byte '{'
  · simp only [h1, ne_eq, not_true_eq_false, if_false] at h ⊢
    exact loop_collects hu _ h
  · simp only [ne_eq, h1, not_false_eq_true, if_true] at h
    cases h

/-- On the text of a JSON object the list is its keys and the texts of its values. -/
theorem objectMembers_text (p : Profile) {ms : Tree} {t : Bytes}
    (h : Spells rfc (.value (.obj ms)) t) (hd : membersDepth ms < 2 ^ 64) :
    ∃ kts, objectMembers p t = .ok kts ∧ List.Forall₂ (Written rfc) ms kts := by
  have hcollect : ∀ (kts acc : List (Bytes × Bytes)),
      foldMembers collectUpd .ok kts acc = .ok (acc ++ kts) := by
    intro kts
    induction kts with
    | nil =>
      intro acc
      rw [List.append_nil]
      rfl
    | cons kt kts ih =>
      intro acc
      exact (ih (acc ++ [kt])).trans (by rw [List.append_assoc]; rfl)
  have hreads : ∀ k u, Skips p u → Shape u → Reads (valueMember p collectUpd) collectUpd k u :=
    fun k u hu _ => value_reads hu
  rcases cutObject_value rfc_scannable p hreads h (Nat.succ_le_of_lt hd) .ok [] with
    ⟨_, kts, e, hw, hcut⟩ | ⟨hne, -⟩
  · cases e
    exact ⟨kts, hcut.trans (hcollect kts []), hw⟩
  · exact absurd rfl (hne ms)

end Members

/-! ### The lookups on the list -/

section Lookups

variable {p : Profile}

theorem goesOn_target : GoesOn targetUpd := by
  intro st k t
  unfold targetUpd
  split_ifs <;> exact ⟨_, rfl⟩

/-- `find_raw_value` returns the first value of the key. -/
theorem findRawValue_members {params : Bytes} {ms : List (Bytes × Bytes)}
    (h : objectMembers p params = .ok ms) (wanted : Bytes) :
    findRawValue p params wanted = .ofOption (firstOf wanted ms) := by
  rw [findRawValue_eq, rawMember_eq, cutObject_members h, fold_raw]

/-- `find_call_target` returns the last values of its two keys. -/
theorem findCallTarget_members {params : Bytes} {ms : List (Bytes × Bytes)}
    (h : objectMembers p params = .ok ms) : findCallTarget p params =
      (Scan.ofOption (lastOf (ascii "name") ms) >>= fun n => .ok (n, lastOf (ascii "arguments") ms)) := by
  rw [findCallTarget_eq, targetMember_eq, cutObject_members h]
  exact (fold_target ms (none, none)).trans (by simp only [Option.or_none])

theorem findCallTarget_listed {params name : Bytes} {arguments : Option Bytes}
    (h : findCallTarget p params = .ok (name, arguments)) :
    ∃ ms, objectMembers p params = .ok ms ∧ lastOf (ascii "name") ms = some name ∧
      lastOf (ascii "arguments") ms = arguments := by
  have hscan := h
  rw [findCallTarget_eq, targetMember_eq] at hscan
  obtain ⟨ms, hms⟩ := objectMembers_of_scan goesOn_target hscan
  rw [findCallTarget_members hms] at h
  cases hl : lastOf (ascii "name") ms with
  | none =>
    rw [hl] at h
    cases h
  | some n =>
    rw [hl] at h
    cases h
    exact ⟨ms, hms, hl, rfl⟩

/-- The two lookups of a `tools/call` agree exactly if the first and the last
value of `name` are the same, and those of `arguments`. -/
theorem lookups_agree_iff (p : Profile) (params : Bytes) :
    (∀ name arguments, findCallTarget p params = .ok (name, arguments) →
      findRawValue p params (ascii "name") = .ok name ∧
        findRawValue p params (ascii "arguments") = .ofOption arguments) ↔
    ∀ ms, objectMembers p params = .ok ms → lastOf (ascii "name") ms ≠ none →
      firstOf (ascii "name") ms = lastOf (ascii "name") ms ∧
        firstOf (ascii "arguments") ms = lastOf (ascii "arguments") ms := by
  have hinj : ∀ x y : Option Bytes, Scan.ofOption x = Scan.ofOption y → x = y := by
    intro x y e
    cases x <;> cases y <;> cases e <;> rfl
  constructor
  · intro h ms hms hname
    obtain ⟨name, hl⟩ := Option.ne_none_iff_exists'.mp hname
    have htarget := findCallTarget_members hms
    rw [hl] at htarget
    obtain ⟨h1, h2⟩ := h name _ htarget
    rw [findRawValue_members hms] at h1 h2
    rw [hl]
    exact ⟨hinj _ (some name) h1, hinj _ _ h2⟩
  · intro h name arguments htarget
    obtain ⟨ms, hms, hl, rfl⟩ := findCallTarget_listed htarget
    obtain ⟨h1, h2⟩ := h ms hms (by rw [hl]; exact Option.some_ne_none name)
    rw [findRawValue_members hms, findRawValue_members hms, h1, h2, hl]
    exact ⟨rfl, rfl⟩

/-- In a JSON object that repeats no key they agree. -/
theorem lookups_agree_unique (p : Profile) {ms : Tree} {t name : Bytes} {arguments : Option Bytes}
    (h : Spells rfc (.value (.obj ms)) t) (hd : membersDepth ms < 2 ^ 64)
    (hk : (ms.map Prod.fst).Nodup) (htarget : findCallTarget p t = .ok (name, arguments)) :
    findRawValue p t (ascii "name") = .ok name ∧
      findRawValue p t (ascii "arguments") = .ofOption arguments := by
  obtain ⟨kts, hms, hw⟩ := objectMembers_text p h hd
  have hkeys : ms.map Prod.fst = kts.map Prod.fst := by
    clear h hd hk hms
    induction hw with
    | nil => rfl
    | cons hkt _ ih => rw [List.map_cons, List.map_cons, rfc_raw hkt.1, ih]
  have hsame : ∀ k, firstOf k kts = lastOf k kts := fun k => firstOf_eq_lastOf k (hkeys ▸ hk)
  refine (lookups_agree_iff p t).mpr (fun ms' hms' _ => ?_) name arguments htarget
  rw [hms] at hms'
  cases hms'
  exact ⟨hsame _, hsame _⟩

/-- The name of the last member, and the value of the first one. -/
theorem lookups_repeated : ¬ ∀ name arguments,
    findCallTarget .release (ascii "\x7b\"name\":\"a\",\"name\":\"b\"\x7d") = .ok (name, arguments) →
      findRawValue .release (ascii "\x7b\"name\":\"a\",\"name\":\"b\"\x7d") (ascii "name") = .ok name ∧
        findRawValue .release (ascii "\x7b\"name\":\"a\",\"name\":\"b\"\x7d") (ascii "arguments") =
          .ofOption arguments := by
  intro h
  have hraw := (h (ascii "\"b\"") none (by decide +kernel)).1
  exact absurd hraw (by decide +kernel)

end Lookups

end Mcp
end Statico
