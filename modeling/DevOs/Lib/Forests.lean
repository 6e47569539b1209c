import Mathlib.Data.Set.Insert
import DevOs.Lib.Radix

/-!
# Trees with tables in common

Several root tables, and a table that two of them have in common is behind an entry that both hold.
What is changed through one root is then changed for every root that holds the entry, and for no
other one. An entry of a root that leads to a table is never changed, so what two roots have in
common they keep.
-/

namespace DevOs.Radix

variable {α ι ε κ : Type*} {S : Shape α ι ε κ} {slots slots' : α → ι → ε} {roots : Set α}
    {r t a b f : α} {k l : κ}
  {d d' D : ℕ} {e z : ε}

/-- The tables that two roots have in common are behind an entry that both hold. -/
def Apart (S : Shape α ι ε κ) (slots : α → ι → ε) (r t : α) : Prop :=
  ∀ d d' k l a, node S slots r d k = some a → node S slots t d' l = some a →
    0 < d ∧ 0 < d' ∧ slots r (S.index 0 k) = slots t (S.index 0 k)

/-- Trees that have no other tables in common than those behind common entries. -/
structure Forest (S : Shape α ι ε κ) (slots : α → ι → ε) (roots : Set α) : Prop where
  separate : ∀ r ∈ roots, Separate S slots r
  apart : ∀ r ∈ roots, ∀ t ∈ roots, r ≠ t → Apart S slots r t

def Kept (S : Shape α ι ε κ) (slots slots' : α → ι → ε) (roots : Set α) : Prop :=
  ∀ r ∈ roots, ∀ i, S.child 0 (slots r i) ≠ none → slots' r i = slots r i

theorem Kept.trans {slots₁ : α → ι → ε} (h : Kept S slots slots₁ roots)
    (h' : Kept S slots₁ slots' roots) :
    Kept S slots slots' roots := by
  intro r hr i hi
  have hfirst := h r hr i hi
  exact (h' r hr i (by rwa [hfirst])).trans hfirst

theorem node_of_same (h : slots r (S.index 0 k) = slots t (S.index 0 k)) (d : ℕ) :
    node S slots r (d + 1) k = node S slots t (d + 1) k := by
  induction d with
  | zero =>
    rw [node_succ_of_some (a := r) rfl, node_succ_of_some (a := t) rfl, h]
  | succ d ih =>
    rw [node, ih]
    rfl

theorem look_of_same (h : slots r (S.index 0 k) = slots t (S.index 0 k)) (d : ℕ) :
    look S slots r z (d + 1) k = look S slots t z (d + 1) k := by
  rw [look, look, node_of_same h]

theorem node_of_missing (h : S.child 0 (slots r (S.index 0 k)) = none) (d : ℕ) :
    node S slots r (d + 1) k = none := by
  apply node_none_of_le (d := 1) _ (Nat.succ_le_succ (Nat.zero_le d))
  rw [node_succ_of_some (a := r) rfl, h]

theorem Apart.symm (h : Apart S slots r t) (hs : Separate S slots t) : Apart S slots t r := by
  intro d d' k l a hk hl
  obtain ⟨hd', hd, hsame⟩ := h d' d l k a hl hk
  obtain ⟨j, rfl⟩ : ∃ j, d' = j + 1 := ⟨d' - 1, by omega⟩
  have hag := (hs d (j + 1) k l a hk ((node_of_same hsame j).symm.trans hl)).2
  refine ⟨hd, hd', ?_⟩
  rw [hag 0 hd, hsame]

namespace Forest

theorem node_root (h : Forest S slots roots) (hr : r ∈ roots) (ht : t ∈ roots)
    (ha : node S slots r d k = some t) : r = t ∧ d = 0 := by
  by_cases hrt : r = t
  · subst hrt
    exact ⟨rfl, (h.separate r hr d 0 k k r ha rfl).1⟩
  · have hpos := (h.apart r hr t ht hrt d 0 k k t ha rfl).2.1
    exact absurd hpos (Nat.lt_irrefl 0)

theorem common (h : Forest S slots roots) (hr : r ∈ roots) (ht : t ∈ roots)
    (ha : node S slots r D k = some a) (hb : node S slots t d l = some a) :
    d = D ∧ Agree S D k l ∧ node S slots t D k = some a ∧
      (r ≠ t → 0 < D ∧ slots r (S.index 0 k) = slots t (S.index 0 k)) := by
  by_cases hrt : r = t
  · subst hrt
    obtain ⟨hd, hag⟩ := h.separate r hr D d k l a ha hb
    exact ⟨hd.symm, hag, ha, fun hne => absurd rfl hne⟩
  · obtain ⟨hD, -, hsame⟩ := h.apart r hr t ht hrt D d k l a ha hb
    obtain ⟨j, rfl⟩ : ∃ j, D = j + 1 := ⟨D - 1, by omega⟩
    have ht' : node S slots t (j + 1) k = some a := (node_of_same hsame j).symm.trans ha
    obtain ⟨hd, hag⟩ := h.separate t ht (j + 1) d k l a ht' hb
    exact ⟨hd.symm, hag, ht', fun _ => ⟨hD, hsame⟩⟩

/-- What is no table of a root is none for a change through another root either. -/
theorem not_table (h : Forest S slots roots) (hr : r ∈ roots) (ht : t ∈ roots)
    (ha : node S slots r D k = some a) (hno : node S slots t D k ≠ some a) :
    ∀ d l, node S slots t d l ≠ some a :=
  fun _ _ hb => hno (h.common hr ht ha hb).2.2.1

/-- The tables stay apart when none is added but the table `f`, behind one entry, and the entries of
the roots that lead to a table are kept. -/
theorem of_grown (h : Forest S slots roots) (hkept : Kept S slots slots' roots)
    (hseparate : ∀ t ∈ roots, Separate S slots' t)
    (hunused : ∀ t ∈ roots, ∀ d l, node S slots t d l ≠ some f)
    (hgrown : ∀ t ∈ roots, ∀ d l b, node S slots' t d l = some b → node S slots t d l = some b ∨
      b = f ∧ d = D + 1 ∧ Agree S (D + 1) k l ∧ node S slots t D k = some a)
    (htable : ∀ t ∈ roots, 0 < D → node S slots t D k = some a → slots' t = slots t) :
    Forest S slots' roots := by
  refine ⟨hseparate, fun r hr t ht hne d d' l l' b hb hb' => ?_⟩
  rcases hgrown r hr d l b hb with hold | ⟨rfl, rfl, hag, ha⟩
  · rcases hgrown t ht d' l' b hb' with hold' | ⟨rfl, -, -, -⟩
    · obtain ⟨hd, hd', hsame⟩ := h.apart r hr t ht hne d d' l l' b hold hold'
      obtain ⟨j, rfl⟩ : ∃ j, d = j + 1 := ⟨d - 1, by omega⟩
      have hchild : S.child 0 (slots r (S.index 0 l)) ≠ none := by
        intro hnone
        rw [node_of_missing hnone j] at hold
        cases hold
      refine ⟨hd, hd', ?_⟩
      rw [hkept r hr _ hchild, hsame, hkept t ht _ (by rwa [← hsame])]
    · exact absurd hold (hunused r hr d l)
  · rcases hgrown t ht d' l' b hb' with hold' | ⟨-, rfl, -, ha'⟩
    · exact absurd hold' (hunused t ht d' l')
    · obtain ⟨hD, hsame⟩ := (h.common hr ht ha ha').2.2.2 hne
      refine ⟨Nat.succ_pos D, Nat.succ_pos D, ?_⟩
      rw [htable r hr hD ha, htable t ht hD ha', ← hag 0 (Nat.succ_pos D), hsame]

section Changes

variable [DecidableEq α] [DecidableEq ι]

theorem put (h : Forest S slots roots) (hr : r ∈ roots) (ha : node S slots r D k = some a)
    (hD : 0 < D) (he : S.child D e = none) :
    Forest S (put slots a (S.index D k) e) roots ∧
    (∀ t ∈ roots, Radix.put slots a (S.index D k) e t = slots t) ∧
      ∀ t ∈ roots, ∀ d l b, node S (Radix.put slots a (S.index D k) e) t d l = some b →
        node S slots t d l = some b := by
  have hroots : ∀ t ∈ roots, Radix.put slots a (S.index D k) e t = slots t := by
    intro t ht
    funext j
    apply put_of_ne
    left
    rintro rfl
    exact absurd (h.node_root hr ht ha).2 (Nat.ne_of_gt hD)
  have hsub : ∀ t ∈ roots, ∀ d l b, node S (Radix.put slots a (S.index D k) e) t d l = some b →
      node S slots t d l = some b := by
    intro t ht d l b hb
    by_cases hta : node S slots t D k = some a
    · exact (h.separate t ht).node_put_sub hta he hb
    · have hno := h.not_table hr ht ha hta
      rwa [node_eq_of_slots fun j _ c hc =>
        put_of_ne (Or.inl fun hca => hno j l (by rw [hc, hca]))] at hb
  refine ⟨⟨fun t ht => (h.separate t ht).of_sub (hsub t ht),
    fun r hr t ht hne d d' l l' b hb hb' => ?_⟩, hroots, hsub⟩
  rw [hroots r hr, hroots t ht]
  exact h.apart r hr t ht hne d d' l l' b (hsub r hr d l b hb) (hsub t ht d' l' b hb')

theorem link (h : Forest S slots roots) (hr : r ∈ roots) (ha : node S slots r D k = some a)
    (hmissing : S.child D (slots a (S.index D k)) = none) (hchild : S.child D e = some f)
    (hunused : ∀ t ∈ roots, ∀ d l, node S slots t d l ≠ some f) (hempty : ∀ d, S.child d z = none) :
    Forest S (link slots a (S.index D k) e f z) roots ∧
    Kept S slots (link slots a (S.index D k) e f z) roots ∧
      ∀ t ∈ roots, ∀ d l b, node S (Radix.link slots a (S.index D k) e f z) t d l = some b →
        node S slots t d l = some b ∨ b = f := by
  have hne : ∀ t ∈ roots, t ≠ f := by
    rintro t ht rfl
    exact hunused t ht 0 k rfl
  have hfresh : ∀ t ∈ roots, node S slots t D k = some a → Fresh S slots t a f D k e z :=
    fun t ht hta => ⟨h.separate t ht, hta, hmissing, hchild, hunused t ht, hempty⟩
  have hsame : ∀ t ∈ roots, node S slots t D k ≠ some a → ∀ d l,
      node S (Radix.link slots a (S.index D k) e f z) t d l = node S slots t d l := by
    intro t ht hta d l
    apply node_eq_of_slots
    intro j _ c hc
    have hcf : c ≠ f := fun hcf => hunused t ht j l (by rw [hc, hcf])
    rw [link_of_ne hcf, put_of_ne
      (Or.inl fun hca => h.not_table hr ht ha hta j l (by rw [hc, hca]))]
  have hkept : Kept S slots (Radix.link slots a (S.index D k) e f z) roots := by
    intro t ht i hi
    rw [link_of_ne (hne t ht)]
    apply put_of_ne
    by_contra hcase
    rw [not_or, not_not, not_not] at hcase
    obtain ⟨rfl, rfl⟩ := hcase
    obtain ⟨rfl, rfl⟩ := h.node_root hr ht ha
    exact hi hmissing
  have hseparate : ∀ t ∈ roots, Separate S (Radix.link slots a (S.index D k) e f z) t := by
    intro t ht
    by_cases hta : node S slots t D k = some a
    · exact (hfresh t ht hta).separate_link
    · exact (h.separate t ht).of_sub fun d l b hb => (hsame t ht hta d l).symm.trans hb
  have hgrown : ∀ t ∈ roots, ∀ d l b,
    node S (Radix.link slots a (S.index D k) e f z) t d l = some b →
      node S slots t d l = some b ∨ b = f ∧ d = D + 1 ∧ Agree S (D + 1) k l ∧
      node S slots t D k = some a := by
    intro t ht d l b hb
    by_cases hta : node S slots t D k = some a
    · exact ((hfresh t ht hta).node_cases hb).imp id fun hf => ⟨hf.1, hf.2.1, hf.2.2, hta⟩
    · exact Or.inl ((hsame t ht hta d l).symm.trans hb)
  have htable : ∀ t ∈ roots, 0 < D → node S slots t D k = some a →
      Radix.link slots a (S.index D k) e f z t = slots t := by
    intro t ht hD hta
    funext j
    rw [link_of_ne (hne t ht)]
    apply put_of_ne
    left
    rintro rfl
    exact absurd (h.node_root ht ht hta).2 (Nat.ne_of_gt hD)
  refine ⟨h.of_grown hkept hseparate hunused hgrown htable, hkept, fun t ht d l b hb => ?_⟩
  exact (hgrown t ht d l b hb).imp id And.left

end Changes

theorem insert (h : Forest S slots roots)
    (hunused : ∀ t ∈ roots, ∀ d l, node S slots t d l ≠ some f)
    (hother : ∀ c, c ≠ f → slots' c = slots c) (hempty : ∀ i, S.child 0 (slots' f i) = none) :
    Forest S slots' (insert f roots) ∧
    ∀ t ∈ Insert.insert f roots, ∀ d l b, node S slots' t d l = some b →
      b = f ∨ t ∈ roots ∧ node S slots t d l = some b := by
  have hold : ∀ t ∈ roots, ∀ d l, node S slots' t d l = node S slots t d l := by
    intro t ht d l
    apply node_eq_of_slots
    intro j _ c hc
    rw [hother c fun hcf => hunused t ht j l (by rw [hc, hcf])]
  have hnew : ∀ d l b, node S slots' f d l = some b → d = 0 ∧ b = f := by
    intro d l b hb
    cases d with
    | zero => exact ⟨rfl, (Option.some.inj hb).symm⟩
    | succ d =>
      rw [node_of_missing (hempty _) d] at hb
      cases hb
  have hseparate : ∀ t ∈ roots, Separate S slots' t :=
    fun t ht => (h.separate t ht).of_sub fun d l b hb => (hold t ht d l).symm.trans hb
  have hapart : ∀ t ∈ roots, Apart S slots' f t := by
    intro t ht d d' k l b hb hb'
    obtain ⟨-, rfl⟩ := hnew d k b hb
    rw [hold t ht] at hb'
    exact absurd hb' (hunused t ht d' l)
  refine ⟨⟨?_, ?_⟩, ?_⟩
  · rintro t (rfl | ht)
    · intro d d' k l b hb hb'
      obtain ⟨rfl, -⟩ := hnew d k b hb
      exact ⟨(hnew d' l b hb').1.symm, fun j hj => absurd hj (Nat.not_lt_zero j)⟩
    · exact hseparate t ht
  · rintro r (rfl | hr) t (rfl | ht) hne
    · exact absurd rfl hne
    · exact hapart t ht
    · exact (hapart r hr).symm (hseparate r hr)
    · intro d d' k l b hb hb'
      rw [hold r hr] at hb
      rw [hold t ht] at hb'
      have hrf : r ≠ f := fun hrf => hunused r hr 0 k (by rw [hrf]; rfl)
      have htf : t ≠ f := fun htf => hunused t ht 0 k (by rw [htf]; rfl)
      rw [hother r hrf, hother t htf]
      exact h.apart r hr t ht hne d d' k l b hb hb'
  · rintro t (rfl | ht) d l b hb
    · exact Or.inl (hnew d l b hb).2
    · exact Or.inr ⟨ht, (hold t ht d l).symm.trans hb⟩

/-- The root `f` is given the entries `U` of the root `r`, and all else stays. -/
structure Copies (slots slots' : α → ι → ε) (r f : α) (U : ι → Prop) : Prop where
  copied : ∀ i, U i → slots' f i = slots r i
  rest : ∀ i, ¬U i → slots' f i = slots f i
  other : ∀ c, c ≠ f → slots' c = slots c

section Copy

variable {U : ι → Prop} (h : Forest S slots roots) (hf : f ∈ roots) (hc : Copies slots slots' r f U)

include h hf hc

theorem node_kept (ht : t ∈ roots) (htf : t ≠ f) (d : ℕ) (l : κ) :
    node S slots' t d l = node S slots t d l := by
  apply node_eq_of_slots
  rintro j _ c hj
  rw [hc.other c]
  rintro rfl
  exact htf (h.node_root ht hf hj).1

theorem node_copied (hr : r ∈ roots) (hrf : r ≠ f) (hb : node S slots' f d l = some b) :
    d = 0 ∧ b = f ∨ 0 < d ∧ U (S.index 0 l) ∧ node S slots r d l = some b ∨
      0 < d ∧ ¬U (S.index 0 l) ∧ node S slots f d l = some b := by
  cases d with
  | zero => exact Or.inl ⟨rfl, (Option.some.inj hb).symm⟩
  | succ d =>
    by_cases hu : U (S.index 0 l)
    · have hsame : slots' f (S.index 0 l) = slots' r (S.index 0 l) := by
        rw [hc.copied _ hu, hc.other r hrf]
      rw [node_of_same hsame d, h.node_kept hf hc hr hrf] at hb
      exact Or.inr (Or.inl ⟨Nat.succ_pos d, hu, hb⟩)
    · refine Or.inr (Or.inr ⟨Nat.succ_pos d, hu, ?_⟩)
      rw [← hb]
      symm
      apply node_eq_of_slots
      intro j _ c hj
      by_cases hcf : c = f
      · obtain ⟨-, rfl⟩ := h.node_root hf hf (hj.trans (congrArg some hcf))
        rw [hcf, hc.rest _ hu]
      · rw [hc.other c hcf]

theorem separate_copy (hr : r ∈ roots) (hrf : r ≠ f) (ht : t ∈ roots) : Separate S slots' t := by
  by_cases htf : t = f
  · subst htf
    intro d d' k l b hb hb'
    rcases h.node_copied hf hc hr hrf hb with ⟨rfl, rfl⟩ | ⟨hd, hu, hk⟩ | ⟨hd, hu, hk⟩
    · rcases h.node_copied hf hc hr hrf hb' with ⟨rfl, -⟩ | ⟨hd', -, hl⟩ | ⟨hd', -, hl⟩
      · exact ⟨rfl, fun j hj => absurd hj (Nat.not_lt_zero j)⟩
      · exact absurd (h.node_root hr ht hl).1 hrf
      · exact absurd (h.node_root ht ht hl).2 (Nat.ne_of_gt hd')
    · rcases h.node_copied hf hc hr hrf hb' with ⟨-, rfl⟩ | ⟨-, -, hl⟩ | ⟨-, hu', hl⟩
      · exact absurd (h.node_root hr ht hk).1 hrf
      · exact h.separate r hr d d' k l b hk hl
      · have hag := (h.common hr ht hk hl).2.1
        exact absurd (by rwa [← hag 0 hd]) hu'
    · rcases h.node_copied hf hc hr hrf hb' with ⟨-, rfl⟩ | ⟨hd', hu', hl⟩ | ⟨-, -, hl⟩
      · exact absurd (h.node_root ht ht hk).2 (Nat.ne_of_gt hd)
      · have hag := (h.common hr ht hl hk).2.1
        exact absurd (by rwa [← hag 0 hd']) hu
      · exact h.separate t ht d d' k l b hk hl
  · exact (h.separate t ht).of_sub fun d l b hb => (h.node_kept hf hc ht htf d l).symm.trans hb

theorem apart_copy (hr : r ∈ roots) (hrf : r ≠ f) (ht : t ∈ roots) (htf : t ≠ f) :
    Apart S slots' f t := by
  intro d d' k l b hb hb'
  rw [h.node_kept hf hc ht htf] at hb'
  rw [hc.other t htf]
  rcases h.node_copied hf hc hr hrf hb with ⟨rfl, rfl⟩ | ⟨hd, hu, hk⟩ | ⟨hd, hu, hk⟩
  · exact absurd (h.node_root ht hf hb').1 htf
  · rw [hc.copied _ hu]
    obtain ⟨hd', -, -, hsame⟩ := h.common hr ht hk hb'
    refine ⟨hd, by omega, ?_⟩
    by_cases hrt : r = t
    · rw [hrt]
    · exact (hsame hrt).2
  · rw [hc.rest _ hu]
    exact h.apart f hf t ht (Ne.symm htf) d d' k l b hk hb'

theorem copy (hr : r ∈ roots) (hrf : r ≠ f) :
    Forest S slots' roots ∧ ∀ t ∈ roots, ∀ d l b, node S slots' t d l = some b →
      ∃ t' ∈ roots, node S slots t' d l = some b := by
  refine ⟨⟨fun t ht => h.separate_copy hf hc hr hrf ht, fun s hs t ht hne => ?_⟩,
    fun t ht d l b hb => ?_⟩
  · by_cases hsf : s = f
    · subst hsf
      exact h.apart_copy hf hc hr hrf ht (Ne.symm hne)
    · by_cases htf : t = f
      · subst htf
        exact (h.apart_copy hf hc hr hrf hs hsf).symm (h.separate_copy hf hc hr hrf hs)
      · intro d d' k l b hb hb'
        rw [h.node_kept hf hc hs hsf] at hb
        rw [h.node_kept hf hc ht htf] at hb'
        rw [hc.other s hsf, hc.other t htf]
        exact h.apart s hs t ht hne d d' k l b hb hb'
  · by_cases htf : t = f
    · subst htf
      rcases h.node_copied hf hc hr hrf hb with ⟨rfl, rfl⟩ | ⟨-, -, hl⟩ | ⟨-, -, hl⟩
      · exact ⟨b, ht, rfl⟩
      · exact ⟨r, hr, hl⟩
      · exact ⟨t, ht, hl⟩
    · exact ⟨t, ht, (h.node_kept hf hc ht htf d l).symm.trans hb⟩

end Copy

end Forest

end DevOs.Radix
