/-
# One tree, spelled and denoted

A text has the tree of its strings as they are written, and for a lexicon the
tree of what they stand for. `Names L` relates the two: it forgets layout and
keeps the shape. A text of the second tree is one of a first tree that names
it (`Spells.names`), and rendering the first gives a text of the second
(`Names.render`).

Looking a key up in both trees gives related values, if the key as it is
written tells whether it stands for the wanted one (`Tells`).

Key definitions: `Names`, `Tells`.
Key theorems: `Spells.names`, `Names.render`, `names_last`, `names_first`.
-/
import Statico.Lib.Json.Grammar

namespace Statico
namespace Json

section Names

variable {S : Type} (L : Lexicon S)

/-- The tree as it is written, and what it stands for. -/
inductive Names : Node Bytes → Node S → Prop
  | lit {t : Bytes} : L.literal t → Names (.value (.lit t)) (.value (.lit t))
  | str {s : S} {r : Bytes} : L.string s r → Names (.value (.str r)) (.value (.str s))
  | arr {rs : List (Value Bytes)} {vs : List (Value S)} : Names (.elems rs) (.elems vs) →
      Names (.value (.arr rs)) (.value (.arr vs))
  | obj {rs : List (Bytes × Value Bytes)} {vs : List (S × Value S)} : Names (.members rs) (.members vs) →
      Names (.value (.obj rs)) (.value (.obj vs))
  | noElems : Names (.elems []) (.elems [])
  | elems {r : Value Bytes} {v : Value S} {rs : List (Value Bytes)} {vs : List (Value S)} :
      Names (.value r) (.value v) → Names (.elems rs) (.elems vs) → Names (.elems (r :: rs)) (.elems (v :: vs))
  | noMembers : Names (.members []) (.members [])
  | members {k : Bytes} {s : S} {r : Value Bytes} {v : Value S} {rs : List (Bytes × Value Bytes)}
      {vs : List (S × Value S)} : L.string s k → Names (.value r) (.value v) →
      Names (.members rs) (.members vs) → Names (.members ((k, r) :: rs)) (.members ((s, v) :: vs))

/-- A value as it is written, and what it stands for. -/
abbrev NamesValue (r : Value Bytes) (v : Value S) : Prop := Names L (.value r) (.value v)

end Names

section Facts

variable {S : Type} {L : Lexicon S}

/-- A text has a tree of strings as they are written. -/
theorem Spells.names {R : Lexicon Bytes} (hstr : ∀ {s r}, L.string s r → R.string r r)
    (hlit : ∀ {t}, L.literal t → R.literal t) {n : Node S} {t : Bytes} (h : Spells L n t) :
    ∃ m, Names L m n ∧ Spells R m t := by
  induction h with
  | lit h => exact ⟨_, .lit h, .lit (hlit h)⟩
  | str h => exact ⟨_, .str h, .str (hstr h)⟩
  | arrEmpty hw => exact ⟨_, .arr .noElems, .arrEmpty hw⟩
  | arr _ ih =>
    obtain ⟨m, hm, ht⟩ := ih
    cases hm with
    | noElems => exact ⟨_, .arr .noElems, .arr ht⟩
    | elems h1 h2 => exact ⟨_, .arr (.elems h1 h2), .arr ht⟩
  | objEmpty hw => exact ⟨_, .obj .noMembers, .objEmpty hw⟩
  | obj _ ih =>
    obtain ⟨m, hm, ht⟩ := ih
    cases hm with
    | noMembers => exact ⟨_, .obj .noMembers, .obj ht⟩
    | members h1 h2 h3 => exact ⟨_, .obj (.members h1 h2 h3), .obj ht⟩
  | @elem v _ _ _ ha _ hb ih =>
    obtain ⟨m, hm, ht⟩ := ih
    obtain ⟨r, rfl⟩ : ∃ r, m = .value r := by cases hm <;> exact ⟨_, rfl⟩
    exact ⟨_, .elems hm .noElems, .elem ha ht hb⟩
  | elems ha _ hb _ ih1 ih2 =>
    obtain ⟨m, hm, ht⟩ := ih1
    obtain ⟨m2, hm2, ht2⟩ := ih2
    obtain ⟨r, rfl⟩ : ∃ r, m = .value r := by cases hm <;> exact ⟨_, rfl⟩
    obtain ⟨rs, rfl⟩ : ∃ rs, m2 = .elems rs := by cases hm2 <;> exact ⟨_, rfl⟩
    exact ⟨_, .elems hm hm2, .elems ha ht hb ht2⟩
  | member g hk _ ih =>
    obtain ⟨m, hm, ht⟩ := ih
    obtain ⟨r, rfl⟩ : ∃ r, m = .value r := by cases hm <;> exact ⟨_, rfl⟩
    exact ⟨_, .members hk hm .noMembers, .member g (hstr hk) ht⟩
  | members g hk _ _ ih1 ih2 =>
    obtain ⟨m, hm, ht⟩ := ih1
    obtain ⟨m2, hm2, ht2⟩ := ih2
    obtain ⟨r, rfl⟩ : ∃ r, m = .value r := by cases hm <;> exact ⟨_, rfl⟩
    obtain ⟨rs, rfl⟩ : ∃ rs, m2 = .members rs := by cases hm2 <;> exact ⟨_, rfl⟩
    exact ⟨_, .members hk hm hm2, .members g (hstr hk) ht ht2⟩

/-- Where a string is its own content, a tree stands for itself. -/
theorem Names.eq {R : Lexicon Bytes} (hraw : R.Raw) {m n : Node Bytes} (h : Names R m n) : m = n := by
  induction h with
  | lit _ => rfl
  | str h => rw [hraw h]
  | arr _ ih => rw [Node.elems.inj ih]
  | obj _ ih => rw [Node.members.inj ih]
  | noElems => rfl
  | elems _ _ ih1 ih2 => rw [Node.value.inj ih1, Node.elems.inj ih2]
  | noMembers => rfl
  | members hk _ _ ih1 ih2 => rw [hraw hk, Node.value.inj ih1, Node.members.inj ih2]

/-- What a node's rendering spells: nothing between two brackets is no text. -/
def Rendered (L : Lexicon S) : Node Bytes → Node S → Prop
  | .value r, .value v => Spells L (.value v) r.render
  | .elems rs, .elems vs => rs = [] ∧ vs = [] ∨ Spells L (.elems vs) (Value.renderElems rs)
  | .members rs, .members vs => rs = [] ∧ vs = [] ∨ Spells L (.members vs) (Value.renderMembers rs)
  | _, _ => True

theorem Names.rendered {n : Node Bytes} {m : Node S} (h : Names L n m) : Rendered L n m := by
  induction h with
  | lit h => exact .lit h
  | str h => exact .str h
  | arr _ ih =>
    rcases ih with ⟨rfl, rfl⟩ | ih
    · exact .arrEmpty blank_nil
    · exact .arr ih
  | obj _ ih =>
    rcases ih with ⟨rfl, rfl⟩ | ih
    · exact .objEmpty blank_nil
    · exact .obj ih
  | noElems => exact Or.inl ⟨rfl, rfl⟩
  | @elems r v rs vs _ h2 ih1 ih2 =>
    apply Or.inr
    have ih1' : Spells L (.value v) r.render := ih1
    cases rs with
    | nil =>
      cases h2
      have := Spells.elem blank_nil ih1' blank_nil
      rwa [List.nil_append, List.append_nil] at this
    | cons r' rs =>
      rcases ih2 with ⟨e, -⟩ | ih2
      · cases e
      · exact .elems blank_nil ih1' blank_nil ih2
  | noMembers => exact Or.inl ⟨rfl, rfl⟩
  | @members k s r v rs vs hk _ h2 ih1 ih2 =>
    apply Or.inr
    have ih1' : Spells L (.value v) r.render := ih1
    cases rs with
    | nil =>
      cases h2
      exact .member .none hk ih1'
    | cons r' rs =>
      rcases ih2 with ⟨e, -⟩ | ih2
      · cases e
      · exact .members .none hk ih1' ih2

/-- A value without white space is a text of what it stands for. -/
theorem Names.render {r : Value Bytes} {v : Value S} (h : NamesValue L r v) :
    Spells L (.value v) r.render := h.rendered

/-- A member as it is written, and what it stands for. -/
abbrev NamesMember (L : Lexicon S) (r : Bytes × Value Bytes) (v : S × Value S) : Prop :=
  L.string v.1 r.1 ∧ NamesValue L r.2 v.2

theorem names_members : ∀ {rs : List (Bytes × Value Bytes)} {vs : List (S × Value S)},
    Names L (.members rs) (.members vs) → List.Forall₂ (NamesMember L) rs vs
  | _, _, .noMembers => .nil
  | _, _, .members hk hv hms => .cons ⟨hk, hv⟩ (names_members hms)

/-- The string a value is, as it is written and what it stands for. -/
theorem Names.asStr {r : Value Bytes} {v : Value S} (h : NamesValue L r v) :
    Option.Rel (fun r s => L.string s r) r.asStr v.asStr := by
  cases h with
  | lit _ => exact .none
  | str h => exact .some h
  | arr _ => exact .none
  | obj _ => exact .none

/-! ### Looking up -/

/-- The content `r` is the word `w` if and only if it stands for `k`. -/
def Tells (L : Lexicon S) (k : S) (w r : Bytes) : Prop := ∀ s, L.string s r → (s = k ↔ r = w)

variable [DecidableEq S] {k : S} {w : Bytes}

theorem names_last : ∀ {rs : List (Bytes × Value Bytes)} {vs : List (S × Value S)},
    Names L (.members rs) (.members vs) → (∀ m ∈ rs, Tells L k w m.1) →
      Option.Rel (NamesValue L) (lastOf w rs) (lastOf k vs)
  | _, _, .noMembers, _ => .none
  | _, _, @Names.members _ _ k' s _ _ rs vs hk hv hms, ht => by
    have ih := names_last hms fun m hm => ht m (List.mem_cons_of_mem _ hm)
    have hkw : s = k ↔ k' = w := ht _ List.mem_cons_self s hk
    simp only [lastOf]
    generalize lastOf w rs = x at ih ⊢
    generalize lastOf k vs = y at ih ⊢
    cases ih with
    | some h => exact .some h
    | none =>
      by_cases h : k' = w
      · rw [if_pos h, if_pos (hkw.mpr h)]
        exact .some hv
      · rw [if_neg h, if_neg (mt hkw.mp h)]
        exact .none

theorem names_first : ∀ {rs : List (Bytes × Value Bytes)} {vs : List (S × Value S)},
    Names L (.members rs) (.members vs) → (∀ m ∈ rs, Tells L k w m.1) →
      Option.Rel (NamesValue L) (firstOf w rs) (firstOf k vs)
  | _, _, .noMembers, _ => .none
  | _, _, @Names.members _ _ k' s _ _ _ _ hk hv hms, ht => by
    have hkw : s = k ↔ k' = w := ht _ List.mem_cons_self s hk
    simp only [firstOf]
    by_cases h : k' = w
    · rw [if_pos h, if_pos (hkw.mpr h)]
      exact .some hv
    · rw [if_neg h, if_neg (mt hkw.mp h)]
      exact names_first hms fun m hm => ht m (List.mem_cons_of_mem _ hm)

end Facts

end Json
end Statico
