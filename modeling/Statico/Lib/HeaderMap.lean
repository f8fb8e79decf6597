/-
# Header maps

A library for HTTP keeps the header fields of a message in a map. Each header
that is added becomes a field with its name in lower case: behind the fields
of that name, and behind all others if there is none. A map may refuse a
header, because of its name or its value or because it is full. Nothing more
is known of it, and it is enough: what was added is there, and the fields of
one name are in the order in which they were added (`appendAll_same`).

Key definitions: `SameFields`, `HeaderMap`, `field`, `HeaderMap.appendAll`.
Key theorems: `SameFields.perm`, `append_new`, `appendAll_same`.
-/
import Statico.Lib.Http1

namespace Statico
namespace Http1

/-! ### Fields in another order -/

/-- The same fields, those of each name in the same order. -/
def SameFields (fs gs : List (Bytes × Bytes)) : Prop :=
  ∀ name : Bytes, fs.filter (·.1 = name) = gs.filter (·.1 = name)

namespace SameFields

variable {fs gs hs : List (Bytes × Bytes)}

theorem refl (fs : List (Bytes × Bytes)) : SameFields fs fs := fun _ => rfl

theorem trans (h : SameFields fs gs) (h' : SameFields gs hs) : SameFields fs hs :=
  fun name => (h name).trans (h' name)

theorem append_right (h : SameFields fs gs) (hs : List (Bytes × Bytes)) : SameFields (fs ++ hs) (gs ++ hs) := by
  intro name
  rw [List.filter_append, List.filter_append, h name]

theorem perm (h : SameFields fs gs) : fs.Perm gs := by
  rw [List.perm_iff_count]
  intro f
  have hcount : ∀ l : List (Bytes × Bytes), l.count f = (l.filter (·.1 = f.1)).count f := fun l =>
    (List.count_filter (p := fun g : Bytes × Bytes => decide (g.1 = f.1)) (decide_eq_true rfl)).symm
  rw [hcount, h f.1, ← hcount]

/-- Changing values keeps the order. -/
theorem map (h : SameFields fs gs) (g : Bytes → Bytes) :
    SameFields (fs.map fun f => (f.1, g f.2)) (gs.map fun f => (f.1, g f.2)) := by
  intro name
  have hmap : ∀ l : List (Bytes × Bytes), (l.map fun f => (f.1, g f.2)).filter (·.1 = name) =
      (l.filter (·.1 = name)).map fun f => (f.1, g f.2) := fun l => List.filter_map
  rw [hmap, h name, hmap]

end SameFields

/-! ### Maps -/

/-- The field of a header. -/
def field (h : Bytes × Bytes) : Bytes × Bytes := (h.1.map lower, h.2)

/-- A field has the name of its header. -/
theorem named_field {name : String} {h : Bytes × Bytes} : Named name (field h) ↔ Named name h := by
  have e : (h.1.map lower).map lower = h.1.map lower := by
    rw [List.map_map]
    exact List.map_congr_left fun b _ => lower_lower b
  rw [Named, field, e, Named]

/-- Header maps, each by its fields in the order in which it gives them. -/
structure HeaderMap where
  append : List (Bytes × Bytes) → Bytes × Bytes → Option (List (Bytes × Bytes))
  isField : ∀ {fs gs : List (Bytes × Bytes)} {h : Bytes × Bytes}, append fs h = some gs → IsField (field h)
  place : ∀ {fs gs : List (Bytes × Bytes)} {h : Bytes × Bytes}, append fs h = some gs →
    ∃ before after, fs = before ++ after ∧ gs = before ++ field h :: after ∧
      (∀ f ∈ after, f.1 ≠ (field h).1) ∧ ((∀ f ∈ fs, f.1 ≠ (field h).1) → after = [])

namespace HeaderMap

variable {m : HeaderMap} {fs gs hs : List (Bytes × Bytes)} {h : Bytes × Bytes}

/-! ### One header -/

/-- A header with a name of its own comes last. -/
theorem append_new (ha : m.append fs h = some gs) (hnew : ∀ f ∈ fs, f.1 ≠ (field h).1) : gs = fs ++ [field h] := by
  obtain ⟨before, after, rfl, rfl, -, hlast⟩ := m.place ha
  rw [hlast hnew, List.append_nil]

theorem append_same (ha : m.append fs h = some gs) : SameFields gs (fs ++ [field h]) := by
  obtain ⟨before, after, rfl, rfl, hafter, -⟩ := m.place ha
  intro name
  simp only [List.filter_append, List.filter_cons, List.filter_nil, List.append_assoc]
  split_ifs with hname
  · have hnone : after.filter (·.1 = name) = [] := by
      rw [List.filter_eq_nil_iff]
      intro f hf hn
      exact hafter f hf ((of_decide_eq_true hn).trans (of_decide_eq_true hname).symm)
    rw [hnone, List.nil_append]
  · rw [List.append_nil]

/-! ### Many headers -/

variable (m) in
/-- Headers added one after another. -/
def appendAll (fs hs : List (Bytes × Bytes)) : Option (List (Bytes × Bytes)) := hs.foldlM m.append fs

theorem appendAll_append (fs hs hs' : List (Bytes × Bytes)) :
    m.appendAll fs (hs ++ hs') = (m.appendAll fs hs).bind fun gs => m.appendAll gs hs' :=
  List.foldlM_append

theorem appendAll_singleton : m.appendAll fs [h] = m.append fs h := by
  show (m.append fs h).bind some = m.append fs h
  cases m.append fs h <;> rfl

/-- What holds of a map at first, and is kept by each header, holds at the end. -/
theorem appendAll_induction {P : List (Bytes × Bytes) → List (Bytes × Bytes) → Prop} (h0 : P fs [])
    (hstep : ∀ {gs hs h gs'}, P gs hs → m.append gs h = some gs' → P gs' (hs ++ [h]))
    (ha : m.appendAll fs hs = some gs) : P gs hs := by
  induction hs using List.reverseRecOn generalizing gs with
  | nil =>
    cases ha
    exact h0
  | append_singleton hs h ih =>
    rw [appendAll_append] at ha
    obtain ⟨gs', hgs, ha⟩ := Option.bind_eq_some_iff.mp ha
    rw [appendAll_singleton] at ha
    exact hstep (ih hgs) ha

/-- The fields are those of the headers, in the order of each name. -/
theorem appendAll_same (ha : m.appendAll fs hs = some gs) : SameFields gs (fs ++ hs.map field) := by
  refine appendAll_induction (P := fun gs hs => SameFields gs (fs ++ hs.map field)) ?_ ?_ ha
  · rw [List.map_nil, List.append_nil]
    exact .refl fs
  · intro gs hs h gs' hsame hstep
    rw [List.map_append, ← List.append_assoc]
    exact (append_same hstep).trans (hsame.append_right _)

/-- What was added to fields are fields. -/
theorem appendAll_isField (ha : m.appendAll fs hs = some gs) (hfs : ∀ f ∈ fs, IsField f) : ∀ f ∈ gs, IsField f := by
  refine appendAll_induction (P := fun gs _ => ∀ f ∈ gs, IsField f) hfs ?_ ha
  intro gs _ h gs' hgs hstep f hf
  rcases List.mem_append.mp ((append_same hstep).perm.subset hf) with hf | hf
  · exact hgs f hf
  · rw [List.mem_singleton.mp hf]
    exact m.isField hstep

end HeaderMap

end Http1
end Statico
