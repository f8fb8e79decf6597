/-
# Accounts that many parties add to

Parties run side by side. A move of a party leaves entries for it to post, it
posts them one by one, each added to its account at once, and it moves again
when all are posted; the parties' moves and posts come in any order. Then an
account holds the sum of what was posted to it (`Reachable.read_eq`), what
holds of each party alone holds of its state and its log (`Reachable.party`),
and posting alone leads to a state with nothing to post (`settle`). Accounts
are read meanwhile, one after another and each of them piece by piece, so what
is read lies between what an account held when reading it began and when it
ended (`Readings.values`).

Key definitions: `Accounts`, `Ledger.Step`, `Readings`.
Key theorems: `Reachable.read_eq`, `Reachable.party`, `settle`,
`Readings.values`.
-/
import Mathlib

namespace Statico

/-! ### Entries -/

section Total

variable {κ : Type} [DecidableEq κ]

/-- What entries add to an account. -/
def total (k : κ) (es : List (κ × ℕ)) : ℕ := (es.map fun e => if e.1 = k then e.2 else 0).sum

@[simp] theorem total_nil (k : κ) : total k [] = 0 := rfl

@[simp] theorem total_cons (k : κ) (e : κ × ℕ) (es : List (κ × ℕ)) :
    total k (e :: es) = (if e.1 = k then e.2 else 0) + total k es := rfl

@[simp] theorem total_append (k : κ) (es fs : List (κ × ℕ)) :
    total k (es ++ fs) = total k es + total k fs := by
  rw [total, List.map_append, List.sum_append]
  rfl

theorem total_le_within {k : κ} {es fs : List (κ × ℕ)} (h : es <+: fs) : total k es ≤ total k fs := by
  obtain ⟨gs, rfl⟩ := h
  rw [total_append]
  exact Nat.le_add_right _ _

end Total

/-- A prefix ends in the first list or in the second. -/
theorem prefix_append_cases {α : Type} {as bs cs : List α} (h : cs <+: as ++ bs) :
    cs <+: as ∨ ∃ ds, ds <+: bs ∧ cs = as ++ ds := by
  by_cases hl : cs.length ≤ as.length
  · exact Or.inl (List.prefix_of_prefix_length_le h (List.prefix_append as bs) hl)
  · have has : as <+: cs := List.prefix_of_prefix_length_le (List.prefix_append as bs) h (by omega)
    obtain ⟨ds, rfl⟩ := has
    exact Or.inr ⟨ds, (List.prefix_append_right_inj as).mp h, rfl⟩

/-- Replacing one summand. -/
theorem sum_map_set {α : Type} (f : α → ℕ) {as : List α} {i : ℕ} {a : α} (h : as[i]? = some a) (b : α) :
    ((as.set i b).map f).sum + f a = (as.map f).sum + f b := by
  induction as generalizing i with
  | nil => cases h
  | cons c cs ih =>
    cases i with
    | zero =>
      cases h
      show f b + (cs.map f).sum + f a = f a + (cs.map f).sum + f b
      omega
    | succ i =>
      have hcs := ih (i := i) h
      show f c + ((cs.set i b).map f).sum + f a = f c + (cs.map f).sum + f b
      omega

/-- Replacing an element by one that maps to the same. -/
theorem map_set_eq {α β : Type} (f : α → β) {as : List α} {i : ℕ} {a : α} (h : as[i]? = some a) {b : α}
    (hb : f b = f a) : (as.set i b).map f = as.map f := by
  obtain ⟨hi, rfl⟩ := List.getElem?_eq_some_iff.mp h
  have hmap : i < (as.map f).length := by rwa [List.length_map]
  rw [List.map_set, hb, ← List.getElem_map f (h := hmap), List.set_getElem_self]

/-! ### Ledgers -/

/-- A party: its state, what it posted, and what it has still to post. -/
structure Party (σ κ : Type) where
  state : σ
  posted : List (κ × ℕ)
  pending : List (κ × ℕ)

/-- All entries of a party so far. -/
def Party.log {σ κ : Type} (p : Party σ κ) : List (κ × ℕ) := p.posted ++ p.pending

theorem Party.posted_prefix {σ κ : Type} (p : Party σ κ) : p.posted <+: p.log := List.prefix_append _ _

structure Ledger (A σ κ : Type) where
  accounts : A
  parties : List (Party σ κ)

/-- Accounts that are read and added to under keys. -/
structure Accounts (A κ : Type) [DecidableEq κ] where
  read : A → κ → ℕ
  add : A → κ × ℕ → A
  read_add : ∀ a e k, read (add a e) k = read a k + if e.1 = k then e.2 else 0

namespace Ledger

section Machine

variable {A σ κ : Type} [DecidableEq κ] (acc : Accounts A κ) (init : σ → Prop)
  (move : σ → List (κ × ℕ) → σ → Prop)

/-- One step of one party. -/
inductive Step : Ledger A σ κ → Ledger A σ κ → Prop
  | join {l : Ledger A σ κ} {s : σ} : init s → Step l ⟨l.accounts, l.parties ++ [⟨s, [], []⟩]⟩
  | move {l : Ledger A σ κ} {i : ℕ} {p : Party σ κ} {es : List (κ × ℕ)} {s : σ} :
      l.parties[i]? = some p → p.pending = [] → move p.state es s →
      Step l ⟨l.accounts, l.parties.set i ⟨s, p.posted, es⟩⟩
  | post {l : Ledger A σ κ} {i : ℕ} {p : Party σ κ} {e : κ × ℕ} {es : List (κ × ℕ)} :
      l.parties[i]? = some p → p.pending = e :: es →
      Step l ⟨acc.add l.accounts e, l.parties.set i ⟨p.state, p.posted ++ [e], es⟩⟩

/-- A run, in any order of the parties' steps. -/
abbrev Run : Ledger A σ κ → Ledger A σ κ → Prop := Relation.ReflTransGen (Step acc init move)

/-- The ledgers of a system that starts with the accounts `a` and no parties. -/
def Reachable (a : A) : Ledger A σ κ → Prop := Run acc init move ⟨a, []⟩

/-- Nothing is left to post. -/
def Idle (l : Ledger A σ κ) : Prop := ∀ p ∈ l.parties, p.pending = []

variable {acc} {init} {move} {l m : Ledger A σ κ} {a : A}

/-! #### Sums -/

/-- An account holds what was posted to it. -/
theorem Reachable.read_eq (h : Reachable acc init move a l) (k : κ) :
    acc.read l.accounts k = acc.read a k + (l.parties.map fun p => total k p.posted).sum := by
  induction h with
  | refl => rfl
  | @tail l m _ hst ih =>
    cases hst with
    | join _ =>
      rw [ih, List.map_append, List.sum_append]
      rfl
    | @move i p es s hi _ _ =>
      have hset := sum_map_set (fun p => total k p.posted) hi ⟨s, p.posted, es⟩
      dsimp only at hset
      rw [ih]
      dsimp only
      omega
    | @post i p e es hi _ =>
      have hset := sum_map_set (fun p => total k p.posted) hi ⟨p.state, p.posted ++ [e], es⟩
      dsimp only at hset
      rw [total_append, total_cons, total_nil] at hset
      rw [acc.read_add, ih]
      dsimp only
      omega

/-- With nothing left to post it holds all entries for it. -/
theorem Reachable.read_idle (h : Reachable acc init move a l) (hi : l.Idle) (k : κ) :
    acc.read l.accounts k = acc.read a k + (l.parties.map fun p => total k p.log).sum := by
  have hlog : l.parties.map (fun p => total k p.posted) = l.parties.map fun p => total k p.log := by
    apply List.map_congr_left
    intro p hp
    rw [Party.log, hi p hp, List.append_nil]
  rw [h.read_eq, hlog]

/-! #### Parties -/

/-- What holds of each party at its start, and is kept by its moves, holds of
all parties, whatever the order of their steps. -/
theorem Reachable.party {P : σ → List (κ × ℕ) → Prop} (h0 : ∀ s, init s → P s [])
    (hmove : ∀ s es t log, P s log → move s es t → P t (log ++ es)) (h : Reachable acc init move a l) :
    ∀ p ∈ l.parties, P p.state p.log := by
  induction h with
  | refl =>
    intro p hp
    cases hp
  | tail _ hst ih =>
    cases hst with
    | @join s hs =>
      intro p hp
      rcases List.mem_append.mp hp with hp | hp
      · exact ih p hp
      · rw [List.mem_singleton.mp hp]
        exact h0 s hs
    | @move i p es s hi hnil hmv =>
      intro q hq
      rcases List.mem_or_eq_of_mem_set hq with hq | rfl
      · exact ih q hq
      · have hp := ih p (List.mem_of_getElem? hi)
        rw [Party.log, hnil, List.append_nil] at hp
        exact hmove _ _ _ _ hp hmv
    | @post i p e es hi hcons =>
      intro q hq
      rcases List.mem_or_eq_of_mem_set hq with hq | rfl
      · exact ih q hq
      · have hp := ih p (List.mem_of_getElem? hi)
        have hlog : p.posted ++ [e] ++ es = p.log := by
          rw [Party.log, hcons, List.append_assoc, List.singleton_append]
        show P p.state (p.posted ++ [e] ++ es)
        rw [hlog]
        exact hp

/-! #### Readers -/

/-- Accounts only grow. -/
theorem Run.read_mono (h : Run acc init move l m) (k : κ) :
    acc.read l.accounts k ≤ acc.read m.accounts k := by
  induction h with
  | refl => exact le_rfl
  | @tail m n _ hst ih =>
    cases hst with
    | join _ => exact ih
    | move _ _ _ => exact ih
    | post _ _ =>
      rw [acc.read_add]
      exact le_trans ih (Nat.le_add_right _ _)

variable (acc init move) in
/-- Reading accounts one after another in the course of a run. Reading one of
them takes its time, and entries that are posted to it meanwhile may be read or
not. -/
inductive Readings : Ledger A σ κ → List κ → List ℕ → Ledger A σ κ → Prop
  | nil {l m : Ledger A σ κ} : Run acc init move l m → Readings l [] [] m
  | cons {l m m' n : Ledger A σ κ} {k : κ} {v : ℕ} {ks : List κ} {vs : List ℕ} : Run acc init move l m →
      Run acc init move m m' → acc.read m.accounts k ≤ v → v ≤ acc.read m'.accounts k →
      Readings m' ks vs n → Readings l (k :: ks) (v :: vs) n

theorem Readings.run {ks : List κ} {vs : List ℕ} (h : Readings acc init move l ks vs m) :
    Run acc init move l m := by
  induction h with
  | nil h => exact h
  | cons h h' _ _ _ ih => exact (h.trans h').trans ih

theorem Readings.later {ks : List κ} {vs : List ℕ} (h : Run acc init move l m) {n : Ledger A σ κ}
    (hr : Readings acc init move m ks vs n) : Readings acc init move l ks vs n := by
  cases hr with
  | nil hn => exact .nil (Relation.ReflTransGen.trans h hn)
  | cons hm hm' hlow hhigh hr => exact .cons (Relation.ReflTransGen.trans h hm) hm' hlow hhigh hr

/-- Reading goes on where it stopped. -/
theorem Readings.append {ks ks' : List κ} {vs vs' : List ℕ} {n : Ledger A σ κ}
    (h : Readings acc init move l ks vs m) (h' : Readings acc init move m ks' vs' n) :
    Readings acc init move l (ks ++ ks') (vs ++ vs') n := by
  induction h with
  | nil hm => exact h'.later hm
  | cons hm hm' hlow hhigh _ ih => exact .cons hm hm' hlow hhigh (ih h')

/-- What is read lies between what was there before and what is there after,
and so does it for the time up to some moment, before the accounts that follow
were read. -/
theorem Readings.values {r : κ → ℕ} {ks : List κ} (h : Readings acc init move l ks (ks.map r) m) :
    (∀ k ∈ ks, acc.read l.accounts k ≤ r k ∧ r k ≤ acc.read m.accounts k) ∧
    ∀ before k after, ks = before ++ k :: after → ∃ n, Run acc init move l n ∧ Run acc init move n m ∧
      r k ≤ acc.read n.accounts k ∧ ∀ k' ∈ after, acc.read n.accounts k' ≤ r k' := by
  induction ks generalizing l with
  | nil =>
    refine ⟨fun k hk => absurd hk List.not_mem_nil, fun before k after hnil => ?_⟩
    exact absurd hnil.symm (by simp)
  | cons k ks ih =>
    obtain ⟨n, n', hn, hn', hlow, hhigh, hks⟩ : ∃ n n', Run acc init move l n ∧ Run acc init move n n' ∧
        acc.read n.accounts k ≤ r k ∧ r k ≤ acc.read n'.accounts k ∧
        Readings acc init move n' ks (ks.map r) m := by
      generalize hvs : (k :: ks).map r = vs at h
      cases h with
      | cons hn hn' hlow hhigh hks =>
        obtain ⟨rfl, rfl⟩ := List.cons.inj hvs
        exact ⟨_, _, hn, hn', hlow, hhigh, hks⟩
    obtain ⟨hbetween, hmoment⟩ := ih hks
    have hboth : Run acc init move l n' := hn.trans hn'
    refine ⟨fun k' hk' => ?_, fun before k₀ after he => ?_⟩
    · rcases List.mem_cons.mp hk' with rfl | hk'
      · exact ⟨le_trans (hn.read_mono k') hlow, le_trans hhigh (hks.run.read_mono k')⟩
      · exact ⟨le_trans (hboth.read_mono k') (hbetween k' hk').1, (hbetween k' hk').2⟩
    · cases before with
      | nil =>
        obtain ⟨rfl, rfl⟩ := List.cons.inj he
        exact ⟨n', hboth, hks.run, hhigh, fun k' hk' => (hbetween k' hk').1⟩
      | cons b before =>
        obtain ⟨-, rfl⟩ := List.cons.inj he
        obtain ⟨n₀, h1, h2, hle, hafter⟩ := hmoment before k₀ after rfl
        exact ⟨n₀, hboth.trans h1, h2, hle, hafter⟩

/-- Parties only join. -/
theorem Run.length_mono (h : Run acc init move l m) : l.parties.length ≤ m.parties.length := by
  induction h with
  | refl => exact le_rfl
  | tail _ hst ih =>
    refine le_trans ih ?_
    cases hst with
    | join _ =>
      rw [List.length_append]
      exact Nat.le_add_right _ _
    | move _ _ _ => rw [List.length_set]
    | post _ _ => rw [List.length_set]

/-! #### Settling -/

variable (acc init move) in
/-- What is left to post is posted without any move. -/
theorem settle (l : Ledger A σ κ) : ∃ m, Run acc init move l m ∧ m.Idle ∧
    m.parties.map Party.state = l.parties.map Party.state ∧
    m.parties.map Party.log = l.parties.map Party.log := by
  -- by induction on the number of entries to post
  induction hn : (l.parties.map fun p => p.pending.length).sum generalizing l with
  | zero =>
    refine ⟨l, .refl, fun p hp => ?_, rfl, rfl⟩
    have hle := List.single_le_sum (fun _ _ => Nat.zero_le _) _
      (List.mem_map_of_mem (f := fun p : Party σ κ => p.pending.length) hp)
    exact List.length_eq_zero_iff.mp (by omega)
  | succ n ih =>
    obtain ⟨p, hp, hne⟩ : ∃ p ∈ l.parties, p.pending ≠ [] := by
      by_contra hnone
      have hzero : (l.parties.map fun p => p.pending.length).sum = 0 := by
        apply List.sum_eq_zero
        intro x hx
        obtain ⟨p, hp, rfl⟩ := List.mem_map.mp hx
        by_contra h0
        exact hnone ⟨p, hp, fun h => h0 (by rw [h]; rfl)⟩
      omega
    obtain ⟨i, hi⟩ := List.getElem?_of_mem hp
    obtain ⟨e, es, hcons⟩ := List.exists_cons_of_ne_nil hne
    have hst : Step acc init move l _ := .post hi hcons
    have hset := sum_map_set (fun p : Party σ κ => p.pending.length) hi ⟨p.state, p.posted ++ [e], es⟩
    dsimp only at hset
    rw [hcons, List.length_cons] at hset
    have hleft : ((l.parties.set i ⟨p.state, p.posted ++ [e], es⟩).map fun p => p.pending.length).sum = n := by
      omega
    obtain ⟨m, hm, hidle, hstate, hlog⟩ := ih ⟨acc.add l.accounts e, _⟩ hleft
    refine ⟨m, .head hst hm, hidle, ?_, ?_⟩
    · rw [hstate]
      exact map_set_eq Party.state hi rfl
    · rw [hlog]
      refine map_set_eq Party.log hi ?_
      show p.posted ++ [e] ++ es = p.posted ++ p.pending
      rw [hcons, List.append_assoc, List.singleton_append]

end Machine

end Ledger

end Statico
