import Mathlib.Algebra.Order.Ring.Nat
import Mathlib.Tactic.Common

/-!
# Trees of tables

A key is looked up in a root table, and its entry leads to the table of the next depth. Every depth
has its own index in the key. When no two ways lead to the same table, a changed entry changes only
the lookups that go through it, and a new empty table adds nothing.
-/

namespace DevOs.Radix

variable {α ι ε κ : Type*}

/-- How a key is split into indices, and where an entry at a depth leads. -/
structure Shape (α ι ε κ : Type*) where
  index : ℕ → κ → ι
  child : ℕ → ε → Option α

variable {S : Shape α ι ε κ} {slots slots' : α → ι → ε} {root a b f : α} {k l : κ} {d D : ℕ} {e : ε}

def node (S : Shape α ι ε κ) (slots : α → ι → ε) (root : α) : ℕ → κ → Option α
  | 0, _ => some root
  | d + 1, k => (node S slots root d k).bind fun a => S.child d (slots a (S.index d k))

def Agree (S : Shape α ι ε κ) (d : ℕ) (k l : κ) : Prop := ∀ j < d, S.index j k = S.index j l

def Separate (S : Shape α ι ε κ) (slots : α → ι → ε) (root : α) : Prop :=
  ∀ d d' k l a, node S slots root d k = some a → node S slots root d' l = some a → d = d' ∧
    Agree S d k l

theorem Agree.symm (h : Agree S d k l) : Agree S d l k := fun j hj => (h j hj).symm

theorem Agree.trans {m : κ} (h : Agree S d k l) (h' : Agree S d l m) : Agree S d k m :=
  fun j hj => (h j hj).trans (h' j hj)

theorem Agree.mono (h : Agree S D k l) (hd : d ≤ D) :
    Agree S d k l := fun j hj => h j (Nat.lt_of_lt_of_le hj hd)

theorem Agree.succ (h : Agree S d k l) (hi : S.index d k = S.index d l) : Agree S (d + 1) k l := by
  intro j hj
  rcases Nat.lt_succ_iff_lt_or_eq.mp hj with hj | rfl
  · exact h j hj
  · exact hi

theorem node_succ_of_some (h : node S slots root d k = some a) :
    node S slots root (d + 1) k = S.child d (slots a (S.index d k)) := by
  rw [node, h, Option.bind_some]

theorem node_succ_of_none (h : node S slots root d k = none) :
    node S slots root (d + 1) k = none := by
  rw [node, h, Option.bind_none]

theorem node_none_of_le (h : node S slots root d k = none) (hd : d ≤ D) :
    node S slots root D k = none := by
  induction hd with
  | refl => exact h
  | step _ ih => exact node_succ_of_none ih

theorem node_congr (h : Agree S d k l) : node S slots root d k = node S slots root d l := by
  induction d with
  | zero => rfl
  | succ d ih => rw [node, node, ih (h.mono (Nat.le_succ d)), h d (Nat.lt_succ_self d)]

theorem node_eq_of_slots (h : ∀ j < d, ∀ b, node S slots root j k = some b →
    slots' b (S.index j k) = slots b (S.index j k)) :
    node S slots' root d k = node S slots root d k := by
  induction d with
  | zero => rfl
  | succ d ih =>
    have hd := ih (fun j hj => h j (Nat.lt_succ_of_lt hj))
    cases hn : node S slots root d k with
    | none => rw [node_succ_of_none hn, node_succ_of_none (hd.trans hn)]
    | some b =>
      rw [node_succ_of_some hn, node_succ_of_some (hd.trans hn), h d (Nat.lt_succ_self d) b hn]

theorem Separate.of_sub (h : Separate S slots root)
    (hsub : ∀ d k a, node S slots' root d k = some a → node S slots root d k = some a) :
    Separate S slots' root :=
  fun d d' k l a hk hl => h d d' k l a (hsub d k a hk) (hsub d' l a hl)

/-- The entry for a key at a depth, or `z` when there is no table. -/
def look (S : Shape α ι ε κ) (slots : α → ι → ε) (root : α) (z : ε) (d : ℕ) (k : κ) : ε :=
  (node S slots root d k).elim z fun a => slots a (S.index d k)

theorem look_of_some {z : ε} (h : node S slots root d k = some a) :
    look S slots root z d k = slots a (S.index d k) := by
  rw [look, h, Option.elim_some]

theorem look_of_none {z : ε} (h : node S slots root d k = none) : look S slots root z d k = z := by
  rw [look, h, Option.elim_none]

theorem look_congr {z : ε} (h : Agree S (d + 1) k l) :
    look S slots root z d k = look S slots root z d l := by
  rw [look, look, node_congr (h.mono (Nat.le_succ d)), h d (Nat.lt_succ_self d)]

variable {z : ε}

/-- A link that is made where nothing was. -/
structure Fresh (S : Shape α ι ε κ) (slots : α → ι → ε) (root a f : α) (D : ℕ) (k : κ) (e z : ε) :
    Prop where
  separate : Separate S slots root
  table : node S slots root D k = some a
  missing : S.child D (slots a (S.index D k)) = none
  child : S.child D e = some f
  unused : ∀ d l, node S slots root d l ≠ some f
  empty : ∀ d, S.child d z = none

theorem Fresh.ne (h : Fresh S slots root a f D k e z) (hb : node S slots root d l = some b) :
    b ≠ f := by
  rintro rfl
  exact h.unused d l hb

theorem Fresh.node_none (h : Fresh S slots root a f D k e z) (hag : Agree S (D + 1) k l)
    (hd : D < d) :
    node S slots root d l = none := by
  apply node_none_of_le _ hd
  rw [← node_congr hag, node_succ_of_some h.table, h.missing]

def put [DecidableEq α] [DecidableEq ι] (slots : α → ι → ε) (a : α) (i : ι) (e : ε) : α → ι → ε :=
  fun b j => if b = a ∧ j = i then e else slots b j

section Put

variable [DecidableEq α] [DecidableEq ι] {i j : ι}

theorem put_self (slots : α → ι → ε) (a : α) (i : ι) (e : ε) : put slots a i e a i = e :=
  if_pos ⟨rfl, rfl⟩

theorem put_of_ne (h : b ≠ a ∨ j ≠ i) : put slots a i e b j = slots b j :=
  if_neg (fun hb => h.elim (fun hne => hne hb.1) (fun hne => hne hb.2))

theorem Separate.put_slot (h : Separate S slots root) (ha : node S slots root D k = some a)
    (hb : node S slots root d l = some b) (hne : d ≠ D ∨ ¬ Agree S (D + 1) k l) :
    put slots a (S.index D k) e b (S.index d l) = slots b (S.index d l) := by
  by_cases hba : b = a
  · subst hba
    obtain ⟨rfl, hag⟩ := h D d k l b ha hb
    rcases hne with hne | hne
    · exact absurd rfl hne
    · exact put_of_ne (Or.inr fun hi => hne (hag.succ hi.symm))
  · exact put_of_ne (Or.inl hba)

/-- The tables above the entry, and those that are not behind it, are the same. -/
theorem Separate.node_put (h : Separate S slots root) (ha : node S slots root D k = some a)
    (hne : d ≤ D ∨ ¬ Agree S (D + 1) k l) :
    node S (put slots a (S.index D k) e) root d l = node S slots root d l := by
  apply node_eq_of_slots
  intro j hj b hb
  apply h.put_slot ha hb
  rcases hne with hd | hne
  · exact Or.inl (by omega)
  · exact Or.inr hne

theorem Separate.node_put_child (h : Separate S slots root) (ha : node S slots root D k = some a)
    (hag : Agree S (D + 1) k l) :
    node S (put slots a (S.index D k) e) root (D + 1) l = S.child D e := by
  have hD : node S (put slots a (S.index D k) e) root D l = some a := by
    rw [h.node_put ha (Or.inl (Nat.le_refl D)), ← node_congr (hag.mono (Nat.le_succ D)), ha]
  rw [node_succ_of_some hD, ← hag D (Nat.lt_succ_self D), put_self]

/-- The other entries above the changed one, and those that are not behind it, are the same. -/
theorem Separate.look_put {z : ε} (h : Separate S slots root) (ha : node S slots root D k = some a)
    (hne : d < D ∨ ¬ Agree S (D + 1) k l) :
    look S (put slots a (S.index D k) e) root z d l = look S slots root z d l := by
  have hnode : node S (put slots a (S.index D k) e) root d l = node S slots root d l :=
    h.node_put ha (hne.imp Nat.le_of_lt id)
  cases hb : node S slots root d l with
  | none => rw [look_of_none hb, look_of_none (hnode.trans hb)]
  | some b =>
    rw [look_of_some hb, look_of_some (hnode.trans hb), h.put_slot ha hb (hne.imp Nat.ne_of_lt id)]

theorem Separate.look_put_self {z : ε} (h : Separate S slots root)
    (ha : node S slots root D k = some a) (hag : Agree S (D + 1) k l) :
    look S (put slots a (S.index D k) e) root z D l = e := by
  have hD : node S (put slots a (S.index D k) e) root D l = some a := by
    rw [h.node_put ha (Or.inl (Nat.le_refl D)), ← node_congr (hag.mono (Nat.le_succ D)), ha]
  rw [look_of_some hD, ← hag D (Nat.lt_succ_self D), put_self]

theorem Separate.node_put_none (h : Separate S slots root) (ha : node S slots root D k = some a)
    (he : S.child D e = none) (hag : Agree S (D + 1) k l) (hd : D < d) :
    node S (put slots a (S.index D k) e) root d l = none :=
  node_none_of_le ((h.node_put_child ha hag).trans he) hd

theorem Separate.node_put_sub (h : Separate S slots root) (ha : node S slots root D k = some a)
    (he : S.child D e = none) (hb : node S (put slots a (S.index D k) e) root d l = some b) :
    node S slots root d l = some b := by
  by_cases hcase : d ≤ D ∨ ¬ Agree S (D + 1) k l
  · rwa [h.node_put ha hcase] at hb
  · rw [not_or, not_not, Nat.not_le] at hcase
    rw [h.node_put_none ha he hcase.2 hcase.1] at hb
    cases hb

theorem Separate.put_none (h : Separate S slots root) (ha : node S slots root D k = some a)
    (he : S.child D e = none) : Separate S (put slots a (S.index D k) e) root :=
  h.of_sub (fun _ _ _ => h.node_put_sub ha he)

/-- The tables with an entry that leads to the table `f`, whose entries are set to `z`. -/
def link (slots : α → ι → ε) (a : α) (i : ι) (e : ε) (f : α) (z : ε) : α → ι → ε :=
  fun b j => if b = f then z else put slots a i e b j

theorem link_of_ne (h : b ≠ f) : link slots a i e f z b j = put slots a i e b j := if_neg h

theorem link_new : link slots a i e f z f j = z := if_pos rfl

theorem Fresh.slot (h : Fresh S slots root a f D k e z) (hb : node S slots root d l = some b)
    (hne : d ≠ D ∨ ¬ Agree S (D + 1) k l) :
    link slots a (S.index D k) e f z b (S.index d l) = slots b (S.index d l) := by
  rw [link_of_ne (h.ne hb), h.separate.put_slot h.table hb hne]

theorem Fresh.node_eq (h : Fresh S slots root a f D k e z) (hne : d ≤ D ∨ ¬ Agree S (D + 1) k l) :
    node S (link slots a (S.index D k) e f z) root d l = node S slots root d l := by
  apply node_eq_of_slots
  intro j hj b hb
  apply h.slot hb
  rcases hne with hd | hne
  · exact Or.inl (by omega)
  · exact Or.inr hne

theorem Fresh.node_new (h : Fresh S slots root a f D k e z) (hag : Agree S (D + 1) k l) :
    node S (link slots a (S.index D k) e f z) root (D + 1) l = some f := by
  have hD : node S (link slots a (S.index D k) e f z) root D l = some a := by
    rw [h.node_eq (Or.inl (Nat.le_refl D)), ← node_congr (hag.mono (Nat.le_succ D)), h.table]
  rw [node_succ_of_some hD, link_of_ne (h.ne h.table), ← hag D (Nat.lt_succ_self D), put_self,
    h.child]

theorem Fresh.node_below (h : Fresh S slots root a f D k e z) (hag : Agree S (D + 1) k l)
    (hd : D + 1 < d) :
    node S (link slots a (S.index D k) e f z) root d l = none := by
  apply node_none_of_le _ hd
  rw [node_succ_of_some (h.node_new hag), link_new, h.empty]

theorem Fresh.node_cases (h : Fresh S slots root a f D k e z)
    (hb : node S (link slots a (S.index D k) e f z) root d l = some b) :
    node S slots root d l = some b ∨ b = f ∧ d = D + 1 ∧ Agree S (D + 1) k l := by
  by_cases hcase : d ≤ D ∨ ¬ Agree S (D + 1) k l
  · rw [h.node_eq hcase] at hb
    exact Or.inl hb
  · rw [not_or, not_not, Nat.not_le] at hcase
    rcases Nat.lt_or_ge (D + 1) d with hd | hd
    · rw [h.node_below hcase.2 hd] at hb
      cases hb
    · obtain rfl : d = D + 1 := by omega
      rw [h.node_new hcase.2] at hb
      cases hb
      exact Or.inr ⟨rfl, rfl, hcase.2⟩

theorem Fresh.node_mono (h : Fresh S slots root a f D k e z) (hb : node S slots root d l = some b) :
    node S (link slots a (S.index D k) e f z) root d l = some b := by
  by_cases hcase : d ≤ D ∨ ¬ Agree S (D + 1) k l
  · rwa [h.node_eq hcase]
  · rw [not_or, not_not, Nat.not_le] at hcase
    rw [h.node_none hcase.2 hcase.1] at hb
    cases hb

theorem Fresh.look_eq (h : Fresh S slots root a f D k e z) (hne : d ≠ D ∨ ¬ Agree S (D + 1) k l) :
    look S (link slots a (S.index D k) e f z) root z d l = look S slots root z d l := by
  cases hb : node S slots root d l with
  | some b => rw [look_of_some hb, look_of_some (h.node_mono hb), h.slot hb hne]
  | none =>
    rw [look_of_none hb]
    cases hb' : node S (link slots a (S.index D k) e f z) root d l with
    | none => rw [look_of_none hb']
    | some b =>
      rw [look_of_some hb']
      rcases h.node_cases hb' with hold | ⟨rfl, -, -⟩
      · rw [hb] at hold
        cases hold
      · exact link_new

theorem Fresh.look_self (h : Fresh S slots root a f D k e z) (hag : Agree S (D + 1) k l) :
    look S (link slots a (S.index D k) e f z) root z D l = e := by
  have hD : node S (link slots a (S.index D k) e f z) root D l = some a := by
    rw [h.node_eq (Or.inl (Nat.le_refl D)), ← node_congr (hag.mono (Nat.le_succ D)), h.table]
  rw [look_of_some hD, link_of_ne (h.ne h.table), ← hag D (Nat.lt_succ_self D), put_self]

theorem Fresh.separate_link (h : Fresh S slots root a f D k e z) :
    Separate S (link slots a (S.index D k) e f z) root := by
  intro d d' l l' b hl hl'
  rcases h.node_cases hl with hold | ⟨hf, rfl, hag⟩
  · rcases h.node_cases hl' with hold' | ⟨hf, -, -⟩
    · exact h.separate d d' l l' b hold hold'
    · exact absurd hf (h.ne hold)
  · rcases h.node_cases hl' with hold' | ⟨-, rfl, hag'⟩
    · exact absurd hf (h.ne hold')
    · exact ⟨rfl, hag.symm.trans hag'⟩

end Put

end DevOs.Radix
