/-
# The scanners on JSON texts

What the suffix scanners do on a text the grammar derives. Inside a bracket
the counter comes back to where it was after any balanced piece of text
(`Passes`); so `cutValue` takes exactly one value (`spells_cut`), and the
object loop is a fold over the members' texts (`cutObject_text`).

Key definitions: `Passes`, `Follow`, `Reads`, `foldMembers`.
Key theorems: `spells_passes`, `spells_cut`, `cutObject_text`.
-/
import Statico.Lib.Json.Grammar
import Statico.Mcp.Cut

namespace Statico
namespace Mcp

open Json

theorem incr_eq (p : Profile) {d : ℕ} (h : d + 1 < 2 ^ 64) : p.incr d = .ok (d + 1) := by
  cases p with
  | checked => rw [Profile.incr, if_pos h]
  | release => rw [Profile.incr, Nat.mod_eq_of_lt h]

theorem decr_eq (p : Profile) {d : ℕ} (h : d + 1 < 2 ^ 64) : p.decr (d + 1) = .ok d := by
  cases p with
  | checked => rw [Profile.decr, if_neg (Nat.succ_ne_zero d), Nat.add_sub_cancel]
  | release =>
    have : (d + 1 + (2 ^ 64 - 1)) % 2 ^ 64 = d := by omega
    rw [Profile.decr, this]

/-! ### Balanced pieces of text -/

/-- Inside a bracket the counter is back after `t`, which nests `N` deep. -/
def Passes (N : ℕ) (t : Bytes) : Prop :=
  ∀ (p : Profile) (close : UInt8) (d : ℕ) (rest : Bytes), 1 ≤ d → d + N < 2 ^ 64 →
    cutNested p close d (t ++ rest) = cutNested p close d rest

namespace Passes

variable {N M : ℕ} {t u : Bytes}

theorem nil : Passes N [] := fun _ _ _ _ _ _ => rfl

theorem mono (h : Passes N t) (hNM : N ≤ M) : Passes M t :=
  fun p close d rest hd hb => h p close d rest hd (by omega)

theorem append (ht : Passes N t) (hu : Passes N u) : Passes N (t ++ u) := by
  intro p close d rest hd hb
  rw [List.append_assoc, ht p close d _ hd hb, hu p close d rest hd hb]

theorem cons {c : UInt8} (h1 : c ≠ byte '"') (h2 : ¬ (c = byte '{' ∨ c = byte '['))
    (h3 : ¬ (c = byte '}' ∨ c = byte ']')) (ht : Passes N t) : Passes N (c :: t) := by
  intro p close d rest hd hb
  rw [List.cons_append, cutNested_other h1 h2 h3, ht p close d rest hd hb]

theorem bare : ∀ {t : Bytes}, (∀ b ∈ t, Bare b) → Passes N t
  | [], _ => nil
  | c :: t, h => by
    obtain ⟨hd, h1, h2, h3⟩ := h c List.mem_cons_self
    refine cons h1 (fun e => e.elim h2 h3) ?_ (bare fun b hb => h b (List.mem_cons_of_mem _ hb))
    rintro (rfl | rfl)
    · exact absurd hd (by decide)
    · exact absurd hd (by decide)

theorem blank : ∀ {w : Bytes}, Blank w → Passes N w
  | [], _ => nil
  | c :: w, h => by
    obtain ⟨hc, hw⟩ := blank_cons.mp h
    refine cons ?_ ?_ ?_ (blank hw)
    · rintro rfl; exact absurd hc (by decide)
    · rintro (rfl | rfl) <;> exact absurd hc (by decide)
    · rintro (rfl | rfl) <;> exact absurd hc (by decide)

theorem quoted {r : Bytes} (h : Closed r) : Passes N (Json.quoted r) := by
  intro p close d rest _ _
  rw [Json.quoted, List.cons_append, cutNested_quote, List.append_assoc, List.cons_append,
    List.nil_append, cutString_closed h]
  rfl

theorem bracket {o c : UInt8} (ho : o = byte '{' ∨ o = byte '[') (hc : c = byte '}' ∨ c = byte ']')
    (ht : Passes N t) : Passes (N + 1) (o :: (t ++ [c])) := by
  intro p close d rest hd hb
  rw [List.cons_append, cutNested_open ho, incr_eq p (by omega), Scan.ok_bind, List.append_assoc,
    ht p close (d + 1) _ (by omega) (by omega), List.cons_append, List.nil_append, cutNested_close hc,
    decr_eq p (by omega), Scan.ok_bind, if_neg fun h => by omega]

theorem memberText (g : Gaps) {k : Bytes} {tail : Bytes} (hk : Closed k) (ht : Passes N t)
    (htail : Passes N tail) : Passes N (Json.memberText g k t tail) := by
  obtain ⟨h1, h2, h3, h4⟩ := g.blank
  exact (blank h1).append ((quoted hk).append ((blank h2).append (cons (by decide) (by decide)
    (by decide) ((blank h3).append (ht.append ((blank h4).append htail))))))

end Passes

/-- The text of a node passes at the node's depth. -/
theorem spells_passes {S : Type} {L : Lexicon S} (hL : L.Scannable) {n : Node S} {s : Bytes}
    (h : Spells L n s) : Passes n.depth s := by
  induction h with
  | lit h => exact .bare (hL.token h).2
  | str h => exact .quoted (hL.closed h)
  | arrEmpty hw => exact .bracket (Or.inr rfl) (Or.inr rfl) (.blank hw)
  | arr _ ih => exact .bracket (Or.inr rfl) (Or.inr rfl) ih
  | objEmpty hw => exact .bracket (Or.inl rfl) (Or.inl rfl) (.blank hw)
  | obj _ ih => exact .bracket (Or.inl rfl) (Or.inl rfl) ih
  | elem ha _ hb ih => exact (Passes.blank ha).append ((ih.mono (le_max_left _ _)).append (.blank hb))
  | elems ha _ hb _ ih1 ih2 =>
    exact (Passes.blank ha).append ((ih1.mono (le_max_left _ _)).append ((Passes.blank hb).append
      (.cons (by decide) (by decide) (by decide) (ih2.mono (le_max_right _ _)))))
  | member g hk _ ih => exact .memberText g (hL.closed hk) (ih.mono (le_max_left _ _)) .nil
  | members g hk _ _ ih1 ih2 =>
    exact .memberText g (hL.closed hk) (ih1.mono (le_max_left _ _))
      (.cons (by decide) (by decide) (by decide) (ih2.mono (le_max_right _ _)))

/-! ### One value -/

/-- Where a token ends: at the end of the text, or at a delimiter. -/
def Follow (f : Bytes) : Prop := ∀ c s, f = c :: s → Json.isDelim c = true

theorem follow_cons {c : UInt8} {s : Bytes} : Follow (c :: s) ↔ Json.isDelim c = true :=
  ⟨fun h => h c s rfl, fun h _ _ e => by cases e; exact h⟩

theorem follow_blank {w f : Bytes} (hw : Blank w) (hf : Follow f) : Follow (w ++ f) := by
  cases w with
  | nil => exact hf
  | cons b w => exact follow_cons.mpr (by simp [Json.isDelim, (blank_cons.mp hw).1])

theorem dropWhile_bare {f : Bytes} (hf : Follow f) : ∀ {t : Bytes}, (∀ b ∈ t, Json.isDelim b = false) →
    (t ++ f).dropWhile (!Json.isDelim ·) = f
  | [], _ => by
    cases f with
    | nil => rfl
    | cons c s => rw [List.nil_append, List.dropWhile_cons, if_neg (by simp [hf c s rfl])]
  | c :: t, h => by
    rw [List.cons_append, List.dropWhile_cons, if_pos (by simp [h c List.mem_cons_self])]
    exact dropWhile_bare hf fun b hb => h b (List.mem_cons_of_mem _ hb)

theorem takeWhile_bare {f : Bytes} (hf : Follow f) : ∀ {t : Bytes}, (∀ b ∈ t, Json.isDelim b = false) →
    (t ++ f).takeWhile (!Json.isDelim ·) = t
  | [], _ => by
    cases f with
    | nil => rfl
    | cons c s => rw [List.nil_append, List.takeWhile_cons, if_neg (by simp [hf c s rfl])]
  | c :: t, h => by
    rw [List.cons_append, List.takeWhile_cons, if_pos (by simp [h c List.mem_cons_self]),
      takeWhile_bare hf fun b hb => h b (List.mem_cons_of_mem _ hb)]

/-- The text `t` is one that `cutValue` takes whole, and no more. -/
structure Skips (p : Profile) (t : Bytes) : Prop where
  solid : ∀ f, Solid (t ++ f)
  cut : ∀ f, Follow f → cutValue p (t ++ f) = .ok f

theorem cutValue_quoted (p : Profile) {r : Bytes} (hr : Closed r) (f : Bytes) :
    cutValue p (quoted r ++ f) = .ok f := by
  rw [quoted, List.cons_append, cutValue_cons p (by decide), if_pos rfl, List.append_assoc,
    List.cons_append, List.nil_append, cutString_closed hr]
  rfl

theorem cutValue_bracket (p : Profile) {o c : UInt8} {N : ℕ} {t : Bytes}
    (ho : o = byte '{' ∧ c = byte '}' ∨ o = byte '[' ∧ c = byte ']') (ht : Passes N t)
    (hN : 1 + N < 2 ^ 64) (f : Bytes) : cutValue p (o :: (t ++ [c]) ++ f) = .ok f := by
  have hc : c = byte '}' ∨ c = byte ']' := ho.imp And.right And.right
  have hcl : closer o = c := by rcases ho with ⟨rfl, rfl⟩ | ⟨rfl, rfl⟩ <;> rfl
  have hb : isBlank o = false := by rcases ho with ⟨rfl, -⟩ | ⟨rfl, -⟩ <;> decide
  have hq : o ≠ byte '"' := by rcases ho with ⟨rfl, -⟩ | ⟨rfl, -⟩ <;> decide
  rw [List.cons_append, cutValue_cons p hb, if_neg hq, if_pos (ho.imp And.left And.left), hcl,
    List.append_assoc, List.cons_append, List.nil_append, ht p c 1 _ le_rfl hN, cutNested_close hc,
    decr_eq p (d := 0) (by decide), Scan.ok_bind, if_pos ⟨rfl, rfl⟩]

theorem cutValue_token (p : Profile) {t f : Bytes} (ht : Token t) (hf : Follow f) :
    cutValue p (t ++ f) = .ok f := by
  obtain ⟨hne, hb⟩ := ht
  obtain ⟨c, u, rfl⟩ := List.exists_cons_of_ne_nil hne
  obtain ⟨hd, h1, h2, h3⟩ := hb c List.mem_cons_self
  have hdw := dropWhile_bare hf fun b hb' => (hb b hb').1
  rw [List.cons_append] at hdw ⊢
  rw [cutValue_cons p (isBlank_of_isDelim hd), if_neg h1, if_neg (not_or.mpr ⟨h2, h3⟩), hdw]

section Value

variable {S : Type} {L : Lexicon S}

/-- A value is skipped exactly. What follows matters to a token only. -/
theorem spells_cut (hL : L.Scannable) (p : Profile) {v : Value S} {t f : Bytes}
    (h : Spells L (.value v) t) (hd : v.depth < 2 ^ 64) (hf : (∃ x, v = .lit x) → Follow f) :
    cutValue p (t ++ f) = .ok f := by
  cases h with
  | lit h => exact cutValue_token p (hL.token h) (hf ⟨t, rfl⟩)
  | str h => exact cutValue_quoted p (hL.closed h) f
  | arrEmpty hw =>
    exact cutValue_bracket p (Or.inr ⟨rfl, rfl⟩) (Passes.blank (N := 0) hw) (by decide) f
  | arr h =>
    refine cutValue_bracket p (Or.inr ⟨rfl, rfl⟩) (spells_passes hL h) ?_ f
    simp only [Value.depth] at hd
    simp only [Node.depth]
    omega
  | objEmpty hw =>
    exact cutValue_bracket p (Or.inl ⟨rfl, rfl⟩) (Passes.blank (N := 0) hw) (by decide) f
  | obj h =>
    refine cutValue_bracket p (Or.inl ⟨rfl, rfl⟩) (spells_passes hL h) ?_ f
    simp only [Value.depth] at hd
    simp only [Node.depth]
    omega

theorem spells_skips (hL : L.Scannable) (p : Profile) {v : Value S} {t : Bytes}
    (h : Spells L (.value v) t) (hd : v.depth < 2 ^ 64) : Skips p t :=
  ⟨h.solid hL, fun _ hf => spells_cut hL p h hd fun _ => hf⟩

end Value

/-- `skip_value` returns the position just past the value, whatever stands
before it and, but for a token, whatever follows. -/
theorem skipValue_value (p : Profile) (body : Slice) {v : Value Bytes} {u w t f : Bytes}
    (h : Spells rfc (.value v) t) (hw : Blank w) (hf : (∃ x, v = .lit x) → Follow f)
    (e : body.bytes = u ++ (w ++ (t ++ f))) :
    skipValue p body.bytes u.length = .ok (u.length + w.length + t.length) := by
  have hdepth : v.depth < 2 ^ 64 := by
    have hle : v.depth ≤ t.length := h.depth_le
    have hlen := congrArg List.length e
    have hfits := body.fits
    simp only [List.length_append] at hlen
    omega
  have hcut : cutValue p (w ++ (t ++ f)) = .ok f := by
    calc cutValue p (w ++ (t ++ f)) = cutValue p (t ++ f) :=
          cutValue_blank p hw (h.solid rfc_scannable f)
      _ = .ok f := spells_cut rfc_scannable p h hdepth hf
  have hstart : At body.bytes u.length (w ++ (t ++ f)) := by
    rw [e]
    exact At.split u _
  have hend : At body.bytes (u.length + w.length + t.length) f := hstart.append.append
  have hrel := skipValue_at (p := p) hstart
  rw [hcut] at hrel
  obtain ⟨n, hn, hat⟩ := hrel.exists_ok
  rw [hn, hat.1.unique hend]

/-- An array of a string with a bracket and a quote in it, and an object. -/
theorem skipValue_value_mixed :
    skipValue .release (ascii "7: [\"]\\\"\", \x7b\x7d]]x") 2 = .ok 14 := by
  have hw : Blank [byte ' '] := blank_cons.mpr ⟨by decide, blank_nil⟩
  have hc : Chars (ascii "]" ++ ascii "\\\"") _ :=
    (chars_plain (by decide)).append (.cons (.escape (u := 0x22) (by decide)) .nil)
  have hs : rfc.string (ascii "]\\\"") (ascii "]\\\"") := ⟨rfl, _, hc⟩
  have hv : Spells rfc (.value (.arr [.str (ascii "]\\\""), .obj []])) (ascii "[\"]\\\"\", \x7b\x7d]") :=
    .arr (.elems blank_nil (.str hs) blank_nil (.elem hw (.objEmpty blank_nil) blank_nil))
  exact skipValue_value .release ⟨_, by decide⟩ (u := ascii "7:") (f := ascii "]x") hv hw
    (fun h => by cases h.choose_spec) (by decide)

/-! ### The members of one object -/

section Object

variable {σ α : Type}

/-- At the value text `t` of the key `k` a member of the object loop does
`upd` and goes on after the text. -/
def Reads (member : σ → Bytes → Bytes → Scan (Step (σ × Bytes) α))
    (upd : σ → Bytes → Bytes → Scan (Step σ α)) (k t : Bytes) : Prop :=
  ∀ st f, Follow f → member st k (t ++ f) = (upd st k t >>= fun
    | .next st' => .ok (.next (st', f))
    | .done a => .ok (.done a))

/-- The members of an object, one after the other. -/
def foldMembers (upd : σ → Bytes → Bytes → Scan (Step σ α)) (close : σ → Scan α) :
    List (Bytes × Bytes) → σ → Scan α
  | [], st => close st
  | (k, t) :: ms, st => upd st k t >>= fun
    | .next st' => foldMembers upd close ms st'
    | .done a => .ok a

variable {member : σ → Bytes → Bytes → Scan (Step (σ × Bytes) α)}
  {upd : σ → Bytes → Bytes → Scan (Step σ α)} {close : σ → Scan α}

theorem memberText_append (g : Gaps) (k t tail rest : Bytes) :
    memberText g k t tail ++ rest = memberText g k t (tail ++ rest) := by
  simp [memberText]

theorem cutQuoted_quoted {r : Bytes} (hr : Closed r) (s : Bytes) :
    cutQuoted (quoted r ++ s) = .ok (r, s) := by
  rw [cutQuoted, quoted, List.cons_append, uncons_cons, Scan.ok_bind]
  simp only [ne_eq, not_true_eq_false, if_false, List.append_assoc, List.cons_append, List.nil_append,
    cutString_closed hr]
  rfl

section Turn

variable {w rest : Bytes}

theorem cutKey_close (hw : Blank w) : cutKey (w ++ byte '}' :: rest) = .ok none := by
  unfold cutKey
  simp only [dropBlank_eq hw (solid_cons.mpr (show isBlank (byte '}') = false by decide)), uncons_cons,
    Scan.ok_bind, if_true]
  rfl

theorem cutKey_member {a k b d v : Bytes} (ha : Blank a) (hk : Closed k) (hb : Blank b) (hd : Blank d)
    (hv : Solid v) : cutKey (a ++ (quoted k ++ (b ++ byte ':' :: (d ++ v)))) = .ok (some (k, v)) := by
  have hsolid : Solid (quoted k ++ (b ++ byte ':' :: (d ++ v))) := solid_cons.mpr (by decide)
  have hquote : uncons (quoted k ++ (b ++ byte ':' :: (d ++ v))) = .ok (byte '"', _) := rfl
  unfold cutKey
  simp only [dropBlank_eq ha hsolid, hquote, Scan.ok_bind, if_neg (show byte '"' ≠ byte '}' by decide),
    cutQuoted_quoted hk]
  simp only [dropBlank_eq hb (solid_cons.mpr (show isBlank (byte ':') = false by decide)), uncons_cons,
    Scan.ok_bind, ne_eq, not_true_eq_false, if_false, dropBlank_eq hd hv]
  rfl

theorem cutSep_comma (hw : Blank w) : cutSep (w ++ byte ',' :: rest) = .ok (some rest) := by
  unfold cutSep
  rw [dropBlank_eq hw (solid_cons.mpr (by decide)), uncons_cons, Scan.ok_bind]
  exact if_pos rfl

theorem cutSep_close (hw : Blank w) : cutSep (w ++ byte '}' :: rest) = .ok none := by
  unfold cutSep
  rw [dropBlank_eq hw (solid_cons.mpr (by decide)), uncons_cons, Scan.ok_bind]
  exact (if_neg (by decide)).trans (if_pos rfl)

end Turn

/-- One turn of the loop reads one member, and what separates it from the next. -/
theorem cutObjectStep_member {g : Gaps} {k t tail : Bytes} (hk : Closed k) (ht : ∀ f, Solid (t ++ f))
    (hr : Reads member upd k t) (hf : Follow tail) (st : σ) :
    cutObjectStep member close (st, memberText g k t tail) =
      (upd st k t >>= fun
        | .next st' => cutSep (g.afterValue ++ tail) >>= fun
          | none => close st' >>= fun a => .ok (.done a)
          | some r => .ok (.next (st', r))
        | .done a => .ok (.done a)) := by
  obtain ⟨h1, h2, h3, h4⟩ := g.blank
  rw [cutObjectStep_eq, memberText, cutKey_member h1 hk h2 h3 (ht _), Scan.ok_bind]
  simp only [hr st _ (follow_blank h4 hf), bind_assoc]
  apply congrArg
  funext x
  cases x <;> rfl

/-- What is asked of the key and the value text of a member to be read. -/
def ReadsAt (member : σ → Bytes → Bytes → Scan (Step (σ × Bytes) α))
    (upd : σ → Bytes → Bytes → Scan (Step σ α)) (k t : Bytes) : Prop :=
  (∀ f, Solid (t ++ f)) ∧ Reads member upd k t

/-- The loop over the members of an object is the fold over their texts. -/
theorem loop_members {ms : List (Bytes × Bytes)} {s : Bytes}
    (h : MemberTexts (ReadsAt member upd) ms s) (rest : Bytes) :
    ∀ (n : ℕ) (st : σ), s.length < n →
      loop (cutObjectStep member close) n (st, s ++ byte '}' :: rest) = foldMembers upd close ms st := by
  induction h with
  | @last k t g hk ht =>
    intro n st hn
    obtain ⟨n, rfl⟩ := Nat.exists_eq_succ_of_ne_zero (Nat.ne_of_gt (Nat.zero_lt_of_lt hn))
    rw [memberText_append, List.nil_append, loop_succ,
      cutObjectStep_member hk ht.1 ht.2 (follow_cons.mpr (by decide)), cutSep_close g.blank.2.2.2,
      foldMembers, bind_assoc]
    apply congrArg
    funext x
    cases x with
    | done a => rfl
    | next st' =>
      simp only [Scan.ok_bind, bind_assoc]
      exact bind_pure (close st')
  | @more k t s ms g hk ht _ ih =>
    intro n st hn
    obtain ⟨n, rfl⟩ := Nat.exists_eq_succ_of_ne_zero (Nat.ne_of_gt (Nat.zero_lt_of_lt hn))
    have hl := length_memberText g k t (byte ',' :: s)
    rw [List.length_cons] at hl
    rw [memberText_append, List.cons_append, loop_succ,
      cutObjectStep_member hk ht.1 ht.2 (follow_cons.mpr (by decide)), cutSep_comma g.blank.2.2.2,
      foldMembers, bind_assoc]
    apply congrArg
    funext x
    cases x with
    | done a => rfl
    | next st' => exact ih n st' (by omega)

/-- The object loop on the text of an object, whatever follows it. -/
theorem cutObject_text {ms : List (Bytes × Bytes)} {s w : Bytes} (hw : Blank w)
    (h : Interior (ReadsAt member upd) ms s) (rest : Bytes) (st : σ) :
    cutObject (w ++ (objectText s ++ rest)) member close st = foldMembers upd close ms st := by
  unfold cutObject
  rw [objectText, List.cons_append, dropBlank_eq hw (solid_cons.mpr (by decide)), uncons_cons,
    Scan.ok_bind]
  simp only [ne_eq, not_true_eq_false, if_false, List.append_assoc, List.cons_append, List.nil_append]
  rcases h with ⟨rfl, hs⟩ | h
  · have hstep : cutObjectStep member close (st, s ++ byte '}' :: rest) =
        (close st >>= fun a => .ok (.done a)) := by
      rw [cutObjectStep_eq, cutKey_close hs]
      rfl
    rw [loop_succ, hstep, foldMembers]
    cases close st <;> rfl
  · apply loop_members h rest _ st
    simp only [List.length_append, List.length_cons]
    omega

/-- A text that starts with anything but a brace holds no members. -/
theorem cutObject_other {s : Bytes} (hs : ∀ c t, s = c :: t → c ≠ byte '{' ∧ isBlank c = false)
    (st : σ) : cutObject s member close st = .fail := by
  unfold cutObject
  cases s with
  | nil => rfl
  | cons c t =>
    obtain ⟨hc, hb⟩ := hs c t rfl
    rw [dropBlank_solid (solid_cons.mpr hb), uncons_cons, Scan.ok_bind]
    simp only [ne_eq, hc, not_false_eq_true, if_true]

end Object

end Mcp
end Statico
