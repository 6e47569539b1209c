import Mathlib.Algebra.Order.Ring.Nat
import Mathlib.Data.List.MinMax

/-!
# The first smallest candidate of a list

`firstMin p f l` is the first element of `l`, among those that satisfy `p`, whose value under `f` is
smallest. A search that goes through `l` once, and replaces its choice whenever it meets a candidate
below a bound that it lowers to the value of the choice, computes it. In an ordered list the first
candidate is one with no other before it.
-/

namespace DevOs.Choice

variable {α : Type*} {p q : α → Bool} {f : α → ℕ} {l : List α} {x y : α}

def firstMin (p : α → Bool) (f : α → ℕ) (l : List α) : Option α := (l.filter p).argmin f

theorem firstMin_mem (h : firstMin p f l = some x) : x ∈ l ∧ p x = true :=
  List.mem_filter.mp (List.argmin_mem h)

theorem firstMin_le (h : firstMin p f l = some x) (hy : y ∈ l) (hp : p y = true) : f x ≤ f y :=
  List.le_of_mem_argmin (List.mem_filter.mpr ⟨hy, hp⟩) h

theorem firstMin_eq_none : firstMin p f l = none ↔ ∀ y ∈ l, p y = false := by
  simp only [firstMin, List.argmin_eq_none, List.filter_eq_nil_iff, Bool.not_eq_true]

theorem exists_firstMin (hy : y ∈ l) (hp : p y = true) : ∃ x, firstMin p f l = some x := by
  rw [← Option.ne_none_iff_exists']
  intro hn
  rw [firstMin_eq_none.mp hn y hy] at hp
  cases hp

theorem firstMin_cons_neg (hx : p x = false) : firstMin p f (x :: l) = firstMin p f l := by
  rw [firstMin, List.filter_cons_of_neg (by simp [hx]), firstMin]

theorem firstMin_cons_pos (hx : p x = true) : firstMin p f (x :: l) =
    match firstMin p f l with
    | some c => if f c < f x then some c else some x
    | none => some x := by
  rw [firstMin, List.filter_cons_of_pos hx, List.argmin_cons, firstMin]
  cases List.argmin f (List.filter p l) <;> rfl

theorem firstMin_of_imp (h : firstMin p f l = some x) (hx : q x = true)
    (hq : ∀ y ∈ l, q y = true → p y = true ∨ f x < f y) : firstMin q f l = some x := by
  induction l with
  | nil => cases h
  | cons a l ih =>
    have hql : ∀ y ∈ l, q y = true → p y = true ∨ f x < f y :=
      fun y hy => hq y (List.mem_cons_of_mem a hy)
    by_cases hpa : p a = true
    · rw [firstMin_cons_pos hpa] at h
      cases hl : firstMin p f l with
      | none =>
        rw [hl] at h
        cases h
        rw [firstMin_cons_pos hx]
        cases hq' : firstMin q f l with
        | none => rfl
        | some c =>
          obtain ⟨hc, hqc⟩ := firstMin_mem hq'
          have hlt : f x < f c := by
            rcases hql c hc hqc with hpc | hlt
            · rw [firstMin_eq_none.mp hl c hc] at hpc
              cases hpc
            · exact hlt
          exact if_neg (by omega)
      | some c =>
        simp only [hl] at h
        split_ifs at h with hlt
        · cases h
          have hrec := ih hl hql
          by_cases hqa : q a = true
          · rw [firstMin_cons_pos hqa, hrec]
            exact if_pos hlt
          · rw [firstMin_cons_neg (Bool.eq_false_iff.mpr hqa), hrec]
        · cases h
          rw [firstMin_cons_pos hx]
          cases hq' : firstMin q f l with
          | none => rfl
          | some d =>
            obtain ⟨hd, hqd⟩ := firstMin_mem hq'
            have hle : f x ≤ f d := by
              rcases hql d hd hqd with hpd | hlt'
              · have := firstMin_le hl hd hpd
                omega
              · omega
            exact if_neg (by omega)
    · have hpa' : p a = false := Bool.eq_false_iff.mpr hpa
      rw [firstMin_cons_neg hpa'] at h
      have hrec := ih h hql
      by_cases hqa : q a = true
      · rw [firstMin_cons_pos hqa, hrec]
        refine if_pos ?_
        rcases hq a List.mem_cons_self hqa with hpa'' | hlt
        · exact absurd hpa'' hpa
        · exact hlt
      · rw [firstMin_cons_neg (Bool.eq_false_iff.mpr hqa), hrec]

/-- The choice of a longer list that lies in its first part is the choice of that part. -/
theorem firstMin_of_append {r : List α} (h : firstMin p f (l ++ r) = some x) (hx : x ∈ l) :
    firstMin p f l = some x := by
  induction l with
  | nil => cases hx
  | cons a l ih =>
    by_cases hpa : p a = true
    · rw [List.cons_append, firstMin_cons_pos hpa] at h
      cases hlr : firstMin p f (l ++ r) with
      | none =>
        have hnone := firstMin_eq_none.mp hlr
        rw [hlr] at h
        rw [firstMin_cons_pos hpa,
          firstMin_eq_none.mpr fun y hy => hnone y (List.mem_append_left r hy)]
        exact h
      | some d =>
        simp only [hlr] at h
        split_ifs at h with hlt
        · cases h
          have hxl : x ∈ l := by
            rcases List.mem_cons.mp hx with rfl | hx
            · exact absurd hlt (Nat.lt_irrefl _)
            · exact hx
          rw [firstMin_cons_pos hpa, ih hlr hxl]
          exact if_pos hlt
        · cases h
          rw [firstMin_cons_pos hpa]
          cases hl : firstMin p f l with
          | none => rfl
          | some e =>
            have hle := firstMin_le hlr (List.mem_append_left r (firstMin_mem hl).1)
              (firstMin_mem hl).2
            exact if_neg (by omega)
    · have hpa' : p a = false := Bool.eq_false_iff.mpr hpa
      rw [List.cons_append, firstMin_cons_neg hpa'] at h
      have hxl : x ∈ l := by
        rcases List.mem_cons.mp hx with rfl | hx
        · exact absurd (firstMin_mem h).2 hpa
        · exact hx
      rw [firstMin_cons_neg hpa']
      exact ih h hxl

def below (p : α → Bool) (f : α → ℕ) (b : ℕ) (x : α) : Bool := p x && decide (f x < b)

theorem below_eq_true {b : ℕ} : below p f b x = true ↔ p x = true ∧ f x < b := by
  simp [below]

/-- One candidate met by the search: it becomes the choice when it is below the bound. -/
theorem firstMin_below_cons_pos {b : ℕ} (hp : p x = true) (hb : f x < b) :
    firstMin (below p f b) f (x :: l) = some ((firstMin (below p f (f x)) f l).getD x) := by
  rw [firstMin_cons_pos (below_eq_true.mpr ⟨hp, hb⟩)]
  cases hl : firstMin (below p f b) f l with
  | none =>
    have hnone : firstMin (below p f (f x)) f l = none := by
      rw [firstMin_eq_none] at hl ⊢
      intro y hy
      by_contra hc
      rw [Bool.not_eq_false, below_eq_true] at hc
      have := hl y hy
      rw [← Bool.not_eq_true, below_eq_true] at this
      exact this ⟨hc.1, by omega⟩
    rw [hnone]
    rfl
  | some c =>
    obtain ⟨hc, hpc⟩ := firstMin_mem hl
    by_cases hlt : f c < f x
    · have hin : firstMin (below p f (f x)) f l = some c := by
        refine firstMin_of_imp hl (below_eq_true.mpr ⟨(below_eq_true.mp hpc).1, hlt⟩) ?_
        intro y _ hy
        obtain ⟨hpy, hfy⟩ := below_eq_true.mp hy
        exact Or.inl (below_eq_true.mpr ⟨hpy, by omega⟩)
      simp only [hin, if_pos hlt, Option.getD_some]
    · have hnone : firstMin (below p f (f x)) f l = none := by
        rw [firstMin_eq_none]
        intro y hy
        by_contra hc'
        rw [Bool.not_eq_false, below_eq_true] at hc'
        have := firstMin_le hl hy (below_eq_true.mpr ⟨hc'.1, by omega⟩)
        omega
      simp only [hnone, if_neg hlt, Option.getD_none]

theorem firstMin_below_cons_neg {b : ℕ} (h : p x = false ∨ b ≤ f x) :
    firstMin (below p f b) f (x :: l) = firstMin (below p f b) f l := by
  apply firstMin_cons_neg
  rw [← Bool.not_eq_true, below_eq_true]
  rintro ⟨hp, hb⟩
  rcases h with h | h
  · rw [h] at hp
    cases hp
  · omega

/-- A search of the first part of a list, among more candidates but below a bound, finds the
choice of the whole list exactly when what it finds is a candidate and the choice lies where it
searches. -/
theorem firstMin_below_eq_iff {b : ℕ} {r : List α} (hqp : ∀ x, q x = true → p x = true) :
    firstMin (below p f b) f l = firstMin q f (l ++ r) ↔
      (∀ x, firstMin (below p f b) f l = some x → q x = true) ∧
      (∀ x, firstMin q f (l ++ r) = some x → x ∈ l ∧ f x < b) := by
  constructor
  · intro h
    refine ⟨fun x hx => (firstMin_mem (h ▸ hx)).2, fun x hx => ?_⟩
    obtain ⟨hl, hp⟩ := firstMin_mem (h.trans hx)
    exact ⟨hl, (below_eq_true.mp hp).2⟩
  · rintro ⟨hfound, hlies⟩
    cases hs : firstMin q f (l ++ r) with
    | none =>
      rw [Option.eq_none_iff_forall_ne_some]
      intro x hx
      have hq := firstMin_eq_none.mp hs x (List.mem_append_left r (firstMin_mem hx).1)
      rw [hfound x hx] at hq
      cases hq
    | some y =>
      obtain ⟨hyl, hyb⟩ := hlies y hs
      have hy := firstMin_of_append hs hyl
      have hqy := (firstMin_mem hs).2
      obtain ⟨x, hx⟩ := exists_firstMin (f := f) hyl (below_eq_true.mpr ⟨hqp y hqy, hyb⟩)
      have hx' : firstMin q f l = some x := by
        refine firstMin_of_imp hx (hfound x hx) ?_
        intro z _ hz
        by_cases hzb : f z < b
        · exact Or.inl (below_eq_true.mpr ⟨hqp z hz, hzb⟩)
        · have := (below_eq_true.mp (firstMin_mem hx).2).2
          exact Or.inr (by omega)
      rw [hx, ← hx', hy]

section Outranks

variable {β γ : Type*} [LinearOrder β] [LinearOrder γ] {g : α → β}

/-- The element `x` is met in the list before `y`. -/
def MetBefore [DecidableEq α] (l : List α) (x y : α) : Prop := l.idxOf x < l.idxOf y

instance decidableMetBefore [DecidableEq α] (l : List α) (x y : α) : Decidable (MetBefore l x y) :=
  inferInstanceAs (Decidable (l.idxOf x < l.idxOf y))

/-- The element `x` of the list is smaller than `y`, or as small and met before it. -/
def Outranks [DecidableEq α] (g : α → β) (l : List α) (x y : α) : Prop :=
  g x < g y ∨ g x = g y ∧ MetBefore l x y

/-- The first smallest element has a property exactly when each element without it stands behind one
that has it. -/
theorem forall_argmin_iff [DecidableEq α] {G : α → Prop} :
    (∀ x, l.argmin g = some x → G x) ↔ ∀ y ∈ l, ¬ G y → ∃ x ∈ l, G x ∧ Outranks g l x y := by
  constructor
  · intro h y hy hnot
    obtain ⟨x, hx⟩ := Option.ne_none_iff_exists'.mp
      (mt List.argmin_eq_none.mp (List.ne_nil_of_mem hy) : l.argmin g ≠ none)
    obtain ⟨hmem, hle, hidx⟩ := List.argmin_eq_some_iff.mp hx
    refine ⟨x, hmem, h x hx, ?_⟩
    rcases (hle y hy).lt_or_eq with hlt | heq
    · exact Or.inl hlt
    · have hne : l.idxOf x ≠ l.idxOf y := by
        intro hsame
        rw [(List.idxOf_inj hmem).mp hsame] at hx
        exact hnot (h y hx)
      exact Or.inr ⟨heq, (hidx y hy heq.ge).lt_of_ne hne⟩
  · intro h x hx
    obtain ⟨hmem, hle, hidx⟩ := List.argmin_eq_some_iff.mp hx
    by_contra hnot
    obtain ⟨y, hy, -, hahead⟩ := h x hmem hnot
    rcases hahead with hlt | ⟨heq, hlt⟩
    · exact absurd (hle y hy) hlt.not_ge
    · exact absurd (hidx y hy heq.le) hlt.not_ge

theorem argmin_eq_of_not_metBefore [DecidableEq α] (hx : l.argmin g = some x) (hy : y ∈ l)
    (hle : g y ≤ g x) (hfirst : ¬ MetBefore l x y) : x = y := by
  obtain ⟨hmem, -, hidx⟩ := List.argmin_eq_some_iff.mp hx
  exact (List.idxOf_inj hmem).mp ((hidx y hy hle).antisymm (Nat.not_lt.mp hfirst))

/-- A list that only continues with larger elements has the same first smallest one. -/
theorem argmin_append_of_lt {r : List α} (hx : l.argmin g = some x) (hr : ∀ y ∈ r, g x < g y) :
    (l ++ r).argmin g = some x := by
  classical
  obtain ⟨hmem, hle, hidx⟩ := List.argmin_eq_some_iff.mp hx
  refine List.argmin_eq_some_iff.mpr
    ⟨List.mem_append_left r hmem, fun y hy => ?_, fun y hy hyx => ?_⟩
  · rcases List.mem_append.mp hy with hy | hy
    · exact hle y hy
    · exact (hr y hy).le
  · rcases List.mem_append.mp hy with hy | hy
    · rw [List.idxOf_append_of_mem hmem, List.idxOf_append_of_mem hy]
      exact hidx y hy hyx
    · exact absurd hyx (hr y hy).not_ge

theorem argmin_map {δ : Type*} {h : α → δ} {k : δ → γ}
    (hlt : ∀ x y, k (h x) < k (h y) ↔ g x < g y) :
    (l.map h).argmin k = (l.argmin g).map h := by
  induction l with
  | nil => rfl
  | cons a l ih =>
    rw [List.map_cons, List.argmin_cons, List.argmin_cons, ih]
    cases l.argmin g with
    | none => rfl
    | some c =>
      by_cases hca : g c < g a
      · simp only [Option.map_some, if_pos hca, if_pos ((hlt c a).mpr hca)]
      · simp only [Option.map_some, if_neg hca, if_neg (mt (hlt c a).mp hca)]

end Outranks

theorem find?_eq_some_of_pairwise {r : α → α → Prop} {c : α → Bool} {s : List α} {x : α}
    (hs : s.Pairwise r) (hr : ∀ x y, r x y → ¬r y x) :
    s.find? c = some x ↔ x ∈ s ∧ c x = true ∧ ∀ y ∈ s, c y = true → ¬r y x := by
  induction s with
  | nil => simp
  | cons a s ih =>
    obtain ⟨ha, hs'⟩ := List.pairwise_cons.mp hs
    by_cases hc : c a = true
    · rw [List.find?_cons_of_pos hc, Option.some.injEq]
      constructor
      · rintro rfl
        refine ⟨List.mem_cons_self, hc, fun y hy _ hya => ?_⟩
        rcases List.mem_cons.mp hy with rfl | hy
        · exact hr _ _ hya hya
        · exact hr _ _ (ha y hy) hya
      · rintro ⟨hx, -, hall⟩
        rcases List.mem_cons.mp hx with rfl | hx
        · rfl
        · exact absurd (ha x hx) (hall a List.mem_cons_self hc)
    · rw [List.find?_cons_of_neg hc, ih hs']
      constructor
      · rintro ⟨hx, hcx, hall⟩
        refine ⟨List.mem_cons_of_mem a hx, hcx, fun y hy hcy => ?_⟩
        rcases List.mem_cons.mp hy with rfl | hy
        · exact absurd hcy hc
        · exact hall y hy hcy
      · rintro ⟨hx, hcx, hall⟩
        rcases List.mem_cons.mp hx with rfl | hx
        · exact absurd hcx hc
        · exact ⟨hx, hcx, fun y hy => hall y (List.mem_cons_of_mem a hy)⟩

end DevOs.Choice
