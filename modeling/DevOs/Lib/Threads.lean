import Mathlib.Data.List.Nodup
import Mathlib.Tactic.Common

/-!
# Lists threaded through links

An element has a link, and a link leads to an element or ends the list. `Thread` says that the
elements of a list are met one after the other from a link on, until a link ends it. The link of an
element tells whether it is the last one and which element is behind it; a new element is put behind
the last one, and an element is taken out by a change of the link before it.
-/

namespace DevOs.Threads

variable {α L : Type*} {leads : L → α → Prop} {ends : L → Prop} {next next' : α → L} {u v w : L}
    {l m : List α}
  {a b c z : α}

/-- From the link `u` the elements of the list are met, and then the link is `v`. -/
def Segment (leads : L → α → Prop) (next : α → L) : L → List α → L → Prop
  | u, [], v => u = v
  | u, a :: l, v => leads u a ∧ Segment leads next (next a) l v

def Thread (leads : L → α → Prop) (ends : L → Prop) (next : α → L) (u : L) (l : List α) : Prop :=
  ∃ v, Segment leads next u l v ∧ ends v

/-- A link leads to one element at most, and not when it ends the list. -/
structure Reads (leads : L → α → Prop) (ends : L → Prop) : Prop where
  unique : ∀ u a b, leads u a → leads u b → a = b
  not_ends : ∀ u a, leads u a → ¬ends u

theorem segment_append : Segment leads next u (l ++ m) w ↔
    ∃ v, Segment leads next u l v ∧ Segment leads next v m w := by
  induction l generalizing u with
  | nil =>
    constructor
    · intro h
      exact ⟨u, rfl, h⟩
    · rintro ⟨v, rfl, h⟩
      exact h
  | cons a l ih =>
    rw [List.cons_append, Segment, ih]
    constructor
    · rintro ⟨ha, v, hl, hm⟩
      exact ⟨v, ⟨ha, hl⟩, hm⟩
    · rintro ⟨v, ⟨ha, hl⟩, hm⟩
      exact ⟨ha, v, hl, hm⟩

theorem Segment.congr (h : Segment leads next u l v) (he : ∀ a ∈ l, next' a = next a) :
    Segment leads next' u l v := by
  induction l generalizing u with
  | nil => exact h
  | cons a l ih =>
    rw [Segment, he a List.mem_cons_self]
    exact ⟨h.1, ih h.2 fun b hb => he b (List.mem_cons_of_mem a hb)⟩

theorem Thread.ends_last (h : Thread leads ends next u (l ++ [z])) : ends (next z) := by
  obtain ⟨v, hseg, hv⟩ := h
  obtain ⟨w, -, -, rfl⟩ := segment_append.mp hseg
  exact hv

theorem Thread.leads_next (h : Thread leads ends next u (l ++ a :: b :: m)) : leads (next a) b := by
  obtain ⟨v, hseg, -⟩ := h
  obtain ⟨w, -, -, hb, -⟩ := segment_append.mp hseg
  exact hb

theorem Thread.next_mem (h : Thread leads ends next u l) (ha : a ∈ l) :
    ends (next a) ∨ ∃ b ∈ l, leads (next a) b := by
  obtain ⟨s, t, rfl⟩ := List.append_of_mem ha
  cases t with
  | nil => exact .inl h.ends_last
  | cons b t => exact .inr ⟨b, by simp, h.leads_next⟩

theorem Thread.exists_before (h : Thread leads ends next u l) (hb : b ∈ l)
    (hhead : l.head? ≠ some b) :
    ∃ a ∈ l, leads (next a) b := by
  obtain ⟨s, t, rfl⟩ := List.append_of_mem hb
  rcases List.eq_nil_or_concat s with rfl | ⟨s, a, rfl⟩
  · exact absurd rfl hhead
  · rw [List.concat_eq_append, List.append_assoc, List.singleton_append] at h
    exact ⟨a, by simp, h.leads_next⟩

theorem Thread.exists_split (h : Thread leads ends next u l) (hr : Reads leads ends) (ha : a ∈ l)
    (hab : leads (next a) b) : ∃ s t, l = s ++ a :: b :: t := by
  obtain ⟨s, t, rfl⟩ := List.append_of_mem ha
  cases t with
  | nil => exact absurd h.ends_last (hr.not_ends _ _ hab)
  | cons c t =>
    obtain rfl := hr.unique _ _ _ h.leads_next hab
    exact ⟨s, t, rfl⟩

theorem Thread.before_unique (h : Thread leads ends next u l) (hr : Reads leads ends) (hl : l.Nodup)
    (ha : a ∈ l) (hc : c ∈ l) (hab : leads (next a) b) (hcb : leads (next c) b) : a = c := by
  obtain ⟨s, t, hs⟩ := h.exists_split hr ha hab
  obtain ⟨s', t', hs'⟩ := h.exists_split hr hc hcb
  rw [List.append_cons] at hs hs'
  obtain ⟨-, htail, hdisj⟩ := List.nodup_append.mp (hs ▸ hl)
  have hn : b ∉ s ++ [a] := fun hmem => hdisj b hmem b List.mem_cons_self rfl
  have ht : b ∉ t := (List.nodup_cons.mp htail).1
  have heq := (List.append_cons_inj_of_notMem hn ht).mp (hs.symm.trans hs')
  have hlast := congrArg List.getLast? heq.1
  simpa using hlast

theorem Thread.snoc (h : Thread leads ends next u (l ++ [z])) (hz : leads (next' z) a)
    (ha : ends (next' a)) (hl : ∀ b ∈ l, next' b = next b) :
    Thread leads ends next' u (l ++ [z] ++ [a]) := by
  obtain ⟨v, hseg, -⟩ := h
  obtain ⟨w, hl', hw, -⟩ := segment_append.mp hseg
  refine ⟨next' a, segment_append.mpr
    ⟨next' z, segment_append.mpr ⟨w, hl'.congr hl, hw, rfl⟩, hz, rfl⟩, ha⟩

theorem Thread.cut (h : Thread leads ends next u (l ++ a :: b :: c :: m))
    (hl : (l ++ a :: b :: c :: m).Nodup) (ha : leads (next' a) c)
    (hother : ∀ x, x ≠ a → x ≠ b → next' x = next x) :
    Thread leads ends next' u (l ++ a :: c :: m) := by
  obtain ⟨v, hseg, hv⟩ := h
  obtain ⟨w, hseg, hwa, -, -, hm⟩ := segment_append.mp hseg
  obtain ⟨-, htail, hdisj⟩ := List.nodup_append.mp hl
  simp only [List.nodup_cons, List.mem_cons, not_or] at htail
  refine ⟨v, segment_append.mpr ⟨w, hseg.congr fun x hx => ?_, hwa, ha, ?_⟩, hv⟩
  · exact hother x (hdisj x hx a (by simp)) (hdisj x hx b (by simp))
  · rw [hother c (Ne.symm htail.1.2.1) (Ne.symm htail.2.1.1)]
    refine hm.congr fun x hx => hother x ?_ ?_
    · rintro rfl
      exact htail.1.2.2 hx
    · rintro rfl
      exact htail.2.1.2 hx

theorem Segment.append (hl : Segment leads next u l v) (hm : Segment leads next v m w) :
    Segment leads next u (l ++ m) w := segment_append.mpr ⟨v, hl, hm⟩

theorem Thread.rounds (h : Thread leads (leads · a) next u (a :: l)) (k : ℕ) :
    Thread leads (leads · a) next u (List.replicate (k + 1) (a :: l)).flatten := by
  induction k with
  | zero => simpa using h
  | succ k ih =>
    obtain ⟨v, hseg, hv⟩ := ih
    obtain ⟨w, hround, hw⟩ := h
    rw [List.replicate_succ', List.flatten_append, List.flatten_singleton]
    exact ⟨w, hseg.append ⟨hv, hround.2⟩, hw⟩

end DevOs.Threads
