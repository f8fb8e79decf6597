/-
# The grammar of JSON texts

`Spells L n s` derives the bytes `s` from the node `n` of a JSON tree, with
any white space between the tokens. What a string may look like and what it
stands for is left to a `Lexicon`: `rfc` keeps the characters between the
quotes as they are written, `decoded` keeps the code units they denote, and
`loose` takes any content a scanner can delimit.

`MemberTexts` forgets what lies below the members of one object: it lists
its keys and the texts of their values.

Key definitions: `Value`, `Lexicon`, `Spells`, `Document`, `MemberTexts`.
Key theorems: `Spells.solid`, `Spells.memberTexts`, `Spells.depth_le`.
-/
import Statico.Lib.Json.Text

namespace Statico
namespace Json

/-- A JSON value whose strings are elements of `S`; a number, `true`, `false`
or `null` is its text. -/
inductive Value (S : Type) where
  | lit (text : Bytes)
  | str (s : S)
  | arr (elems : List (Value S))
  | obj (members : List (S × Value S))

section Depth

variable {S : Type}

mutual
/-- How deep objects and arrays are nested. -/
def Value.depth : Value S → ℕ
  | .lit _ => 0
  | .str _ => 0
  | .arr vs => elemsDepth vs + 1
  | .obj ms => membersDepth ms + 1

def elemsDepth : List (Value S) → ℕ
  | [] => 0
  | v :: vs => max v.depth (elemsDepth vs)

def membersDepth : List (S × Value S) → ℕ
  | [] => 0
  | (_, v) :: ms => max v.depth (membersDepth ms)
end

theorem depth_le_membersDepth {k : S} {v : Value S} : ∀ {ms : List (S × Value S)}, (k, v) ∈ ms →
    v.depth ≤ membersDepth ms
  | (k', v') :: ms, h => by
    rw [membersDepth]
    rcases List.mem_cons.mp h with e | h
    · cases e
      exact le_max_left _ _
    · exact le_trans (depth_le_membersDepth h) (le_max_right _ _)

end Depth

/-- A node of a tree: a value, or what stands between two brackets. -/
inductive Node (S : Type) where
  | value (v : Value S)
  | elems (vs : List (Value S))
  | members (ms : List (S × Value S))

def Node.depth {S : Type} : Node S → ℕ
  | .value v => v.depth
  | .elems vs => elemsDepth vs
  | .members ms => membersDepth ms

/-! ### Layouts -/

/-- The white space around the tokens of one member. -/
structure Gaps where
  beforeKey : Bytes
  afterKey : Bytes
  beforeValue : Bytes
  afterValue : Bytes
  blank : Blank beforeKey ∧ Blank afterKey ∧ Blank beforeValue ∧ Blank afterValue

/-- No white space at all. -/
def Gaps.none : Gaps := ⟨[], [], [], [], blank_nil, blank_nil, blank_nil, blank_nil⟩

/-- A member of an object, and the text after it. -/
def memberText (g : Gaps) (k t tail : Bytes) : Bytes :=
  g.beforeKey ++ (quoted k ++ (g.afterKey ++ byte ':' :: (g.beforeValue ++ (t ++ (g.afterValue ++ tail)))))

def objectText (s : Bytes) : Bytes := byte '{' :: (s ++ [byte '}'])

def arrayText (s : Bytes) : Bytes := byte '[' :: (s ++ [byte ']'])

/-! ### The grammar -/

structure Lexicon (S : Type) where
  /-- The content between the quotes, and the string it stands for. -/
  string : S → Bytes → Prop
  literal : Bytes → Prop

/-- Strings as they are written. -/
def rfc : Lexicon Bytes where
  string s r := s = r ∧ ∃ us, Chars r us
  literal := Literal

/-- Strings as what they denote. -/
def decoded : Lexicon (List ℕ) where
  string us r := Chars r us
  literal := Literal

/-- Strings and tokens of any characters that do not end them. -/
def loose : Lexicon Bytes where
  string s r := s = r ∧ Closed r
  literal := Token

/-- A lexicon whose tokens end where a scanner sees them end. -/
structure Lexicon.Scannable {S : Type} (L : Lexicon S) : Prop where
  closed : ∀ {s r}, L.string s r → Closed r
  token : ∀ {t}, L.literal t → Token t

theorem rfc_scannable : rfc.Scannable := ⟨fun h => h.2.choose_spec.closed, fun h => h.token⟩
theorem loose_scannable : loose.Scannable := ⟨fun h => h.2, fun h => h⟩

section Spells

variable {S : Type} (L : Lexicon S)

/-- The bytes `s` spell the node `n`. -/
inductive Spells : Node S → Bytes → Prop
  | lit {t : Bytes} : L.literal t → Spells (.value (.lit t)) t
  | str {s : S} {r : Bytes} : L.string s r → Spells (.value (.str s)) (quoted r)
  | arrEmpty {w : Bytes} : Blank w → Spells (.value (.arr [])) (arrayText w)
  | arr {vs : List (Value S)} {s : Bytes} : Spells (.elems vs) s →
      Spells (.value (.arr vs)) (arrayText s)
  | objEmpty {w : Bytes} : Blank w → Spells (.value (.obj [])) (objectText w)
  | obj {ms : List (S × Value S)} {s : Bytes} : Spells (.members ms) s →
      Spells (.value (.obj ms)) (objectText s)
  | elem {v : Value S} {a t b : Bytes} : Blank a → Spells (.value v) t → Blank b →
      Spells (.elems [v]) (a ++ (t ++ b))
  | elems {v : Value S} {vs : List (Value S)} {a t b s : Bytes} : Blank a → Spells (.value v) t →
      Blank b → Spells (.elems vs) s → Spells (.elems (v :: vs)) (a ++ (t ++ (b ++ byte ',' :: s)))
  | member {k : S} {v : Value S} {r t : Bytes} (g : Gaps) : L.string k r → Spells (.value v) t →
      Spells (.members [(k, v)]) (memberText g r t [])
  | members {k : S} {v : Value S} {ms : List (S × Value S)} {r t s : Bytes} (g : Gaps) :
      L.string k r → Spells (.value v) t → Spells (.members ms) s →
      Spells (.members ((k, v) :: ms)) (memberText g r t (byte ',' :: s))

/-- A JSON text: a value with white space around it. -/
def Document (v : Value S) (b : Bytes) : Prop :=
  ∃ w t w', Blank w ∧ Spells L (.value v) t ∧ Blank w' ∧ b = w ++ (t ++ w')

end Spells

/-- The bytes are a JSON text of RFC 8259. -/
def WellFormed (b : Bytes) : Prop := ∃ v, Document rfc v b

/-- The bytes are a JSON object of RFC 8259. -/
def WellFormedObject (b : Bytes) : Prop := ∃ ms, Document rfc (.obj ms) b

section Facts

variable {S : Type} {L : Lexicon S}

/-- A value starts with neither white space nor a delimiter. -/
theorem Spells.head (hL : L.Scannable) {v : Value S} {t : Bytes} (h : Spells L (.value v) t) :
    ∃ c r, t = c :: r ∧ isDelim c = false := by
  cases h with
  | lit h =>
    obtain ⟨hne, hb⟩ := hL.token h
    obtain ⟨c, r, rfl⟩ := List.exists_cons_of_ne_nil hne
    exact ⟨c, r, rfl, (hb c List.mem_cons_self).1⟩
  | str _ => exact ⟨_, _, rfl, by decide⟩
  | arrEmpty _ => exact ⟨_, _, rfl, by decide⟩
  | arr _ => exact ⟨_, _, rfl, by decide⟩
  | objEmpty _ => exact ⟨_, _, rfl, by decide⟩
  | obj _ => exact ⟨_, _, rfl, by decide⟩

theorem isBlank_of_isDelim {c : UInt8} (h : isDelim c = false) : isBlank c = false := by
  simp only [isDelim, Bool.or_eq_false_iff] at h
  exact h.2

theorem Spells.solid (hL : L.Scannable) {v : Value S} {t : Bytes} (h : Spells L (.value v) t)
    (s : Bytes) : Solid (t ++ s) := by
  obtain ⟨c, r, rfl, hc⟩ := h.head hL
  exact solid_cons.mpr (isBlank_of_isDelim hc)

theorem Spells.document {v : Value S} {t : Bytes} (h : Spells L (.value v) t) : Document L v t :=
  ⟨[], t, [], blank_nil, h, blank_nil, (List.append_nil t).symm⟩

theorem length_memberText (g : Gaps) (k t tail : Bytes) :
    t.length + tail.length ≤ (memberText g k t tail).length := by
  simp only [memberText, List.length_append, List.length_cons]
  omega

/-- Every level of nesting takes a byte. -/
theorem Spells.depth_le {n : Node S} {s : Bytes} (h : Spells L n s) : n.depth ≤ s.length := by
  induction h with
  | lit _ => exact Nat.zero_le _
  | str _ => exact Nat.zero_le _
  | arrEmpty _ => simp [Node.depth, Value.depth, elemsDepth, arrayText]
  | arr _ ih =>
    simp only [Node.depth] at ih
    simp only [Node.depth, Value.depth, arrayText, List.length_cons, List.length_append]
    omega
  | objEmpty _ => simp [Node.depth, Value.depth, membersDepth, objectText]
  | obj _ ih =>
    simp only [Node.depth] at ih
    simp only [Node.depth, Value.depth, objectText, List.length_cons, List.length_append]
    omega
  | elem _ _ _ ih =>
    simp only [Node.depth] at ih
    simp only [Node.depth, elemsDepth, List.length_append]
    omega
  | elems _ _ _ _ ih1 ih2 =>
    simp only [Node.depth] at ih1 ih2
    simp only [Node.depth, elemsDepth, List.length_append, List.length_cons]
    omega
  | @member _ _ r t g _ _ ih =>
    simp only [Node.depth] at ih
    simp only [Node.depth, membersDepth]
    have := length_memberText g r t []
    omega
  | @members _ _ _ r t s g _ _ _ ih1 ih2 =>
    simp only [Node.depth] at ih1 ih2
    simp only [Node.depth, membersDepth]
    have := length_memberText g r t (byte ',' :: s)
    simp only [List.length_cons] at this
    omega

/-- A document that is an object ends in white space or in its brace. -/
theorem Document.getLast {ms : List (S × Value S)} {b : Bytes} (h : Document L (.obj ms) b) :
    (∀ c, b.getLast? = some c → isBlank c = true) ∨ b.getLast? = some (byte '}') := by
  obtain ⟨w, t, w', -, ht, hw', rfl⟩ := h
  have hlast : t.getLast? = some (byte '}') := by
    cases ht with
    | objEmpty _ => rw [objectText, ← List.cons_append, List.getLast?_concat]
    | obj _ => rw [objectText, ← List.cons_append, List.getLast?_concat]
  rcases List.eq_nil_or_concat w' with rfl | ⟨v, c, rfl⟩
  · apply Or.inr
    rw [List.append_nil, List.getLast?_append, hlast, Option.some_or]
  · apply Or.inl
    intro d hd
    rw [List.concat_eq_append] at hd hw'
    rw [← List.append_assoc, ← List.append_assoc, List.getLast?_concat, Option.some.injEq] at hd
    rw [← hd]
    exact hw' c (List.mem_append_right _ List.mem_cons_self)

/-- The nesting of a document in memory is less than a word counts. -/
theorem Document.membersDepth_lt {ms : List (S × Value S)} {body : Slice}
    (h : Document L (.obj ms) body.bytes) : membersDepth ms < 2 ^ 64 := by
  obtain ⟨w, t, w', -, ht, -, e⟩ := h
  have hd := ht.depth_le
  have hl := congrArg List.length e
  have := body.fits
  simp only [List.length_append] at hl
  simp only [Node.depth, Value.depth] at hd
  omega

end Facts

/-! ### One object -/

/-- The members between the braces of one object: their keys and the texts of
their values. -/
inductive MemberTexts (V : Bytes → Bytes → Prop) : List (Bytes × Bytes) → Bytes → Prop
  | last {k t : Bytes} (g : Gaps) : Closed k → V k t → MemberTexts V [(k, t)] (memberText g k t [])
  | more {k t s : Bytes} {ms : List (Bytes × Bytes)} (g : Gaps) : Closed k → V k t →
      MemberTexts V ms s → MemberTexts V ((k, t) :: ms) (memberText g k t (byte ',' :: s))

/-- What stands between the braces of an object: white space, or members. -/
def Interior (V : Bytes → Bytes → Prop) (ms : List (Bytes × Bytes)) (s : Bytes) : Prop :=
  ms = [] ∧ Blank s ∨ MemberTexts V ms s

theorem MemberTexts.mono {V W : Bytes → Bytes → Prop} {ms : List (Bytes × Bytes)} {s : Bytes}
    (h : MemberTexts V ms s) (hVW : ∀ m ∈ ms, V m.1 m.2 → W m.1 m.2) : MemberTexts W ms s := by
  induction h with
  | last g hk ht => exact .last g hk (hVW _ List.mem_cons_self ht)
  | more g hk ht _ ih =>
    exact .more g hk (hVW _ List.mem_cons_self ht) (ih fun m hm => hVW m (List.mem_cons_of_mem _ hm))

theorem Interior.mono {V W : Bytes → Bytes → Prop} {ms : List (Bytes × Bytes)} {s : Bytes}
    (h : Interior V ms s) (hVW : ∀ m ∈ ms, V m.1 m.2 → W m.1 m.2) : Interior W ms s :=
  h.imp id fun h => h.mono hVW

section Texts

variable {S : Type} {L : Lexicon S}

/-- The text of a value nested at most `N` deep. -/
def IsText (L : Lexicon S) (N : ℕ) (t : Bytes) : Prop := ∃ v, Spells L (.value v) t ∧ v.depth ≤ N

theorem IsText.mono {N M : ℕ} {t : Bytes} (h : IsText L N t) (hNM : N ≤ M) : IsText L M t := by
  obtain ⟨v, hv, hd⟩ := h
  exact ⟨v, hv, by omega⟩

/-- The member `m` is written with this key and this text of its value. -/
def Written (L : Lexicon S) (m : S × Value S) (kt : Bytes × Bytes) : Prop :=
  L.string m.1 kt.1 ∧ Spells L (.value m.2) kt.2

theorem mem_of_forall₂ {α β : Type} {R : α → β → Prop} {as : List α} {bs : List β} {a : α}
    (h : List.Forall₂ R as bs) (ha : a ∈ as) : ∃ b ∈ bs, R a b := by
  induction h with
  | nil => cases ha
  | cons h _ ih =>
    rcases List.mem_cons.mp ha with rfl | ha
    · exact ⟨_, List.mem_cons_self, h⟩
    · obtain ⟨b, hb, hr⟩ := ih ha
      exact ⟨b, List.mem_cons_of_mem _ hb, hr⟩

theorem mem_written {ms : List (S × Value S)} {kts : List (Bytes × Bytes)} {m : S × Value S}
    (h : List.Forall₂ (Written L) ms kts) (hm : m ∈ ms) : ∃ kt ∈ kts, Written L m kt :=
  mem_of_forall₂ h hm

theorem written_mem {ms : List (S × Value S)} {kts : List (Bytes × Bytes)} {kt : Bytes × Bytes}
    (h : List.Forall₂ (Written L) ms kts) (hkt : kt ∈ kts) : ∃ m ∈ ms, Written L m kt :=
  mem_of_forall₂ h.flip hkt

theorem Spells.memberTexts_aux (hL : L.Scannable) {n : Node S} {s : Bytes} (h : Spells L n s) :
    ∀ ms, n = .members ms → ∃ kts, MemberTexts (fun _ t => IsText L (membersDepth ms) t) kts s ∧
      List.Forall₂ (Written L) ms kts := by
  induction h with
  | @member k v r t g hk hv _ =>
    rintro _ ⟨⟩
    exact ⟨[(r, t)], .last g (hL.closed hk) ⟨v, hv, le_max_left _ _⟩, .cons ⟨hk, hv⟩ .nil⟩
  | @members k v ms r t s g hk hv _ _ ih =>
    rintro _ ⟨⟩
    obtain ⟨kts, hm, hw⟩ := ih ms rfl
    exact ⟨(r, t) :: kts, .more g (hL.closed hk) ⟨v, hv, le_max_left _ _⟩
      (hm.mono fun _ _ h => h.mono (le_max_right _ _)), .cons ⟨hk, hv⟩ hw⟩
  | _ => intro ms e; cases e

/-- The text of an object lists its members' keys and texts in order. -/
theorem Spells.memberTexts (hL : L.Scannable) {ms : List (S × Value S)} {t : Bytes}
    (h : Spells L (.value (.obj ms)) t) :
    ∃ kts s, t = objectText s ∧ Interior (fun _ t => IsText L (membersDepth ms) t) kts s ∧
      List.Forall₂ (Written L) ms kts := by
  cases h with
  | objEmpty hw => exact ⟨[], _, rfl, Or.inl ⟨rfl, hw⟩, .nil⟩
  | obj h =>
    obtain ⟨kts, hm, hw⟩ := h.memberTexts_aux hL _ rfl
    exact ⟨kts, _, rfl, Or.inr hm, hw⟩

end Texts

/-! ### Compact texts -/

/-- The text of members, one after the other without white space. -/
def joinMembers : List (Bytes × Bytes) → Bytes
  | [] => []
  | [(k, t)] => memberText .none k t []
  | (k, t) :: m :: ms => memberText .none k t (byte ',' :: joinMembers (m :: ms))

/-- The text of elements, one after the other without white space. -/
def joinElems : List Bytes → Bytes
  | [] => []
  | [t] => t
  | t :: u :: ts => t ++ byte ',' :: joinElems (u :: ts)

theorem memberTexts_join {V : Bytes → Bytes → Prop} : ∀ {kts : List (Bytes × Bytes)}, kts ≠ [] →
    (∀ kt ∈ kts, Closed kt.1 ∧ V kt.1 kt.2) → MemberTexts V kts (joinMembers kts)
  | [], h, _ => absurd rfl h
  | [(_, _)], _, h =>
    have hm := h _ List.mem_cons_self
    .last .none hm.1 hm.2
  | (_, _) :: _ :: _, _, h =>
    have hm := h _ List.mem_cons_self
    .more .none hm.1 hm.2 (memberTexts_join (List.cons_ne_nil _ _)
      fun kt hkt => h kt (List.mem_cons_of_mem _ hkt))

section Compact

variable {S : Type} {L : Lexicon S}

theorem spells_joinMembers : ∀ {ms : List (S × Value S)} {kts : List (Bytes × Bytes)},
    List.Forall₂ (Written L) ms kts → ms ≠ [] → Spells L (.members ms) (joinMembers kts)
  | _, _, .nil, h => absurd rfl h
  | [(_, _)], [(_, _)], .cons h .nil, _ => .member .none h.1 h.2
  | (_, _) :: _ :: _, (_, _) :: _ :: _, .cons h (.cons h' hs), _ =>
    .members .none h.1 h.2 (spells_joinMembers (.cons h' hs) (List.cons_ne_nil _ _))

/-- An object is spelled by the texts of its members. -/
theorem spells_object {ms : List (S × Value S)} {kts : List (Bytes × Bytes)}
    (h : List.Forall₂ (Written L) ms kts) :
    Spells L (.value (.obj ms)) (objectText (joinMembers kts)) := by
  cases h with
  | nil => exact .objEmpty blank_nil
  | cons h hs => exact .obj (spells_joinMembers (.cons h hs) (List.cons_ne_nil _ _))

theorem spells_joinElems : ∀ {vs : List (Value S)} {ts : List Bytes},
    List.Forall₂ (fun v t => Spells L (.value v) t) vs ts → vs ≠ [] →
      Spells L (.elems vs) (joinElems ts)
  | _, _, .nil, h => absurd rfl h
  | [v], [t], .cons h .nil, _ => by
    have := Spells.elem blank_nil h blank_nil
    rwa [List.nil_append, List.append_nil] at this
  | _ :: _ :: _, _ :: _ :: _, .cons h (.cons h' hs), _ =>
    .elems blank_nil h blank_nil (spells_joinElems (.cons h' hs) (List.cons_ne_nil _ _))

/-- An array is spelled by the texts of its elements. -/
theorem spells_array {vs : List (Value S)} {ts : List Bytes}
    (h : List.Forall₂ (fun v t => Spells L (.value v) t) vs ts) :
    Spells L (.value (.arr vs)) (arrayText (joinElems ts)) := by
  cases h with
  | nil => exact .arrEmpty blank_nil
  | cons h hs => exact .arr (spells_joinElems (.cons h hs) (List.cons_ne_nil _ _))

end Compact

/-! ### Strings as they are written -/

/-- A lexicon in which a string is its own content. -/
def Lexicon.Raw (L : Lexicon Bytes) : Prop := ∀ {s r}, L.string s r → s = r

theorem rfc_raw : rfc.Raw := fun h => h.1

namespace Value

/-- The string a value is, if it is one. -/
def asStr {S : Type} : Value S → Option S
  | .str s => some s
  | _ => none

section Lookup

variable {S : Type} [DecidableEq S]

/-- The first member `k` of an object. -/
def first (k : S) : Value S → Option (Value S)
  | .obj ms => firstOf k ms
  | _ => none

/-- The last member `k` of an object. -/
def last (k : S) : Value S → Option (Value S)
  | .obj ms => lastOf k ms
  | _ => none

theorem depth_last {k : S} {v w : Value S} (h : v.last k = some w) : w.depth ≤ v.depth := by
  cases v with
  | obj ms => exact le_trans (depth_le_membersDepth (lastOf_mem h)) (Nat.le_succ _)
  | lit _ => cases h
  | str _ => cases h
  | arr _ => cases h

end Lookup

mutual
/-- The value without white space. -/
def render : Value Bytes → Bytes
  | .lit t => t
  | .str r => quoted r
  | .arr vs => arrayText (renderElems vs)
  | .obj ms => objectText (renderMembers ms)

def renderElems : List (Value Bytes) → Bytes
  | [] => []
  | [v] => v.render
  | v :: w :: vs => v.render ++ byte ',' :: renderElems (w :: vs)

def renderMembers : List (Bytes × Value Bytes) → Bytes
  | [] => []
  | [(k, v)] => memberText .none k v.render []
  | (k, v) :: m :: ms => memberText .none k v.render (byte ',' :: renderMembers (m :: ms))
end

end Value

section Lookup

variable {L : Lexicon Bytes} {ms : List (Bytes × Value Bytes)} {kts : List (Bytes × Bytes)}

/-- A value, and its text. -/
abbrev Spelled (L : Lexicon Bytes) (v : Value Bytes) (t : Bytes) : Prop := Spells L (.value v) t

theorem lastOf_written (hraw : L.Raw) (k : Bytes) (h : List.Forall₂ (Written L) ms kts) :
    Option.Rel (Spelled L) (lastOf k ms) (lastOf k kts) := by
  induction h with
  | nil => exact .none
  | @cons m kt ms kts h _ ih =>
    obtain ⟨k1, v⟩ := m
    obtain ⟨k2, t⟩ := kt
    obtain rfl : k1 = k2 := hraw h.1
    simp only [lastOf]
    generalize lastOf k ms = x at ih ⊢
    generalize lastOf k kts = y at ih ⊢
    cases ih with
    | some h => exact .some h
    | none =>
      by_cases hk : k1 = k
      · simp only [hk, if_true, Option.none_or]
        exact .some h.2
      · simp only [hk, if_false, Option.none_or]
        exact .none

theorem firstOf_written (hraw : L.Raw) (k : Bytes) (h : List.Forall₂ (Written L) ms kts) :
    Option.Rel (Spelled L) (firstOf k ms) (firstOf k kts) := by
  induction h with
  | nil => exact .none
  | @cons m kt ms kts h _ ih =>
    obtain ⟨k1, v⟩ := m
    obtain ⟨k2, t⟩ := kt
    obtain rfl : k1 = k2 := hraw h.1
    simp only [firstOf]
    by_cases hk : k1 = k
    · simp only [hk, if_true]
      exact .some h.2
    · simp only [hk, if_false]
      exact ih

end Lookup

end Json
end Statico
