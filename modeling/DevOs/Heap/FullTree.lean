import DevOs.Heap.Bookkeeping
import DevOs.Heap.Place
import Mathlib.Algebra.BigOperators.Group.Finset.Basic
import Mathlib.Algebra.Order.BigOperators.Group.Finset

/-!
# The first tree gets full

Segments that are only created fill the lists of the first tree one after the other. The last list
that gets full has an index other than `0`, the index of the tree, so `CreateHeap` marks the wrong
slot of the root.
-/

namespace DevOs.Heap

open Bitmaps Runs

variable {m m' m₁ m₂ : HeapMemory} {t i j l x n : ℕ}

def fillAt (m : HeapMemory) (t j : ℕ) : ℕ :=
  if j ∈ slots (m.trees t).present then
    ((m.trees t).childs j).child.elim 0 fun l => (m.listHeads l).numUsedSlots
  else 0

def load (m : HeapMemory) (t : ℕ) : ℕ := ∑ j ∈ Finset.range 128, fillAt m t j

/-- The first tree, which is not full, where no list but the first is used before that is full. -/
structure Filling (m : HeapMemory) (t : ℕ) : Prop where
  held : Held m
  child : ChildAt (m.trees 0) 0 t
  only : ∀ i ∈ slots (m.trees 0).present, i = 0
  notFull : (m.trees t).fullSlotCount ≠ maxSlots
  zero : 0 ∈ slots (m.trees t).present
  first : ∀ {j l₀}, j ∈ slots (m.trees t).present → j ≠ 0 → ChildAt (m.trees t) 0 l₀ →
    (m.listHeads l₀).numUsedSlots = maxSlots

theorem fillAt_of_childAt (hl : ChildAt (m.trees t) j l) :
    fillAt m t j = (m.listHeads l).numUsedSlots := by
  rw [fillAt, if_pos hl.1, hl.2]
  rfl

theorem fillAt_of_not (h : j ∉ slots (m.trees t).present) : fillAt m t j = 0 := if_neg h

theorem Filling.fillAt_le (h : Filling m t) (j : ℕ) : fillAt m t j ≤ 128 := by
  by_cases hj : j ∈ slots (m.trees t).present
  · obtain ⟨l, hl⟩ := h.held.linked.listPage h.child j hj
    rw [fillAt_of_childAt ⟨hj, hl⟩, h.held.occupied.used h.child ⟨hj, hl⟩]
    exact slots_length_le _
  · rw [fillAt_of_not hj]
    exact Nat.zero_le _

theorem Filling.load_le (h : Filling m t) : load m t ≤ 16384 := by
  have hle := Finset.sum_le_card_nsmul (Finset.range 128) (fillAt m t) 128 fun j _ => h.fillAt_le j
  rw [Finset.card_range] at hle
  exact hle

theorem Filling.target (h : Filling m t) (address n : ℕ) : ∃ m₁ m₂ j l x, Target m m₁ m₂ 0 t j l x ∧
    m₁ = locked m 0 0 ∧ createHeap m address n =
      .ok (cacheHeap (stored m₂ 0 t j l x address n) 0 t j l x n) := by
  rcases h.held.create_cases address n with ⟨-, hfull⟩ | ⟨m₁, m₂, i, t', j, l, x, hT, hcreated⟩
  · have hone := h.only 1 (h.held.occupied.root.sub 1 (hfull 1 (by decide)))
    cases hone
  · have ht₁ := hT.tree₁
    have hpick := hT.pickTree
    cases hpick with
    | page hnone _ =>
      rw [h.held.occupied.pick_root h.held.linked] at hnone
      have hopen := List.find?_eq_none.mp hnone 0 h.child.1
      rw [h.child.2, Option.any_some, decide_eq_true_eq, not_not] at hopen
      exact absurd hopen h.notFull
    | scan hpick =>
      have hi := h.only i (pick_some hpick).1
      subst hi
      have ht : t' = t := ((sameLinks_locked m 0 0).childAt.mp ht₁).child_eq h.child
      subst ht
      exact ⟨_, m₂, j, l, x, hT, rfl, hcreated⟩

theorem fullSlotCount_trackFull {k : ℕ} (ht : t ≠ 0) (hlt : (m.trees t).fullSlotCount < 128) :
    ((trackFull m t j k).trees t).fullSlotCount =
      if k = maxSlots then (m.trees t).fullSlotCount + 1 else (m.trees t).fullSlotCount := by
  have hmark : ((mark m t j).trees t).fullSlotCount = (m.trees t).fullSlotCount + 1 := by
    rw [trees_mark, if_pos rfl]
    exact Nat.mod_eq_of_lt (by omega)
  by_cases hk : k = maxSlots
  · rw [hk, if_pos rfl, trackFull_full]
    split
    · rw [trees_mark, if_neg ht]
      exact hmark
    · exact hmark
  · rw [if_neg hk, trackFull_of_ne hk]

theorem fullSlots_trackFull (ht : t ≠ 0)
    (hfull : ((trackFull m t j maxSlots).trees t).fullSlotCount = maxSlots) :
    ((trackFull m t j maxSlots).trees 0).fullSlots = Bitmaps.set (m.trees 0).fullSlots j := by
  have hmark : ((mark m t j).trees t).fullSlotCount = maxSlots := by
    rw [trackFull_full] at hfull
    split at hfull
    · assumption
    · exact hfull
  rw [trackFull_full, if_pos hmark, trees_mark, if_pos rfl, trees_mark, if_neg ht.symm]

/-- What the pick of a list below the first tree leaves. -/
structure ListPicked (m m₂ : HeapMemory) (t j l : ℕ) : Prop where
  root : ∀ i ∈ slots (m₂.trees 0).present, i ∈ slots (m.trees 0).present
  count : (m₂.trees t).fullSlotCount = (m.trees t).fullSlotCount
  old : ∀ {k l'}, ChildAt (m.trees t) k l' → ChildAt (m₂.trees t) k l' ∧
    (m₂.listHeads l').numUsedSlots = (m.listHeads l').numUsedSlots
  new : ∀ {k}, k ∈ slots (m₂.trees t).present → k ∈ slots (m.trees t).present ∨ k = j
  page : j ∉ slots (m.trees t).present → ∀ {k l'}, ChildAt (m.trees t) k l' →
    (m.listHeads l').numUsedSlots = maxSlots

theorem Filling.listPicked (h : Filling m t) (hT : Target m (locked m 0 0) m₂ 0 t j l x) :
    ListPicked m m₂ t j l := by
  have hm := h.held.linked
  have hlinks := sameLinks_locked m 0 0
  have ht0 : t ≠ 0 := Nat.ne_of_gt (hm.tree h.child).1
  have htlt : t < (locked m 0 0).brk := (hT.linked₁.tree hT.tree₁).2.1
  obtain ⟨-, hroot, -⟩ := hT.pickList.list hT.linked₁ hT.tree₁
  refine ⟨fun i hi => ?_, ?_, fun {k l'} hl' => ?_, fun {k} hk => ?_, fun hj {k l'} hl' => ?_⟩
  · rw [hroot, hlinks.present] at hi
    exact hi
  · rw [hT.pickList.fullSlotCount (Nat.ne_of_lt htlt)]
    exact (sameCounts_locked m 0 0).fullCount t
  · have hlt : l' < (locked m 0 0).brk := by
      rw [hlinks.brk]
      exact (hm.list h.child hl').1
    rw [(hT.pickList.listHeads hlt).1, listHeads_locked]
    refine ⟨?_, rfl⟩
    have hl₁ : ChildAt ((locked m 0 0).trees t) k l' := hlinks.childAt.mpr hl'
    cases hT.pickList with
    | scan _ => exact (sameLinks_locked _ t j).childAt.mpr hl₁
    | page _ hslots =>
        exact (childAt_grow (Nat.ne_of_lt htlt) (head_slots_not hslots)).mpr (Or.inl hl₁)
  · cases hT.pickList with
    | scan _ =>
      rw [(sameLinks_locked _ t j).present, hlinks.present] at hk
      exact Or.inl hk
    | page _ hslots =>
      have hj := head_slots_not hslots
      rw [trees_grow_self j (Nat.ne_of_lt htlt)] at hk
      rcases (mem_slots_set (mem_slots_not.mp hj).1).mp hk with hkj | hk
      · exact Or.inr hkj
      · rw [hlinks.present] at hk
        exact Or.inl hk
  · cases hT.pickList with
    | scan hpick =>
      have hmem := (pick_some hpick).1
      rw [hlinks.present] at hmem
      exact absurd hmem hj
    | page hnone _ =>
      rw [pick_locked ht0, h.held.occupied.pick_tree hm h.child] at hnone
      have hfull := List.find?_eq_none.mp hnone k hl'.1
      rw [hl'.2, Option.any_some, decide_eq_true_eq, not_not] at hfull
      exact hfull

/-- What a new segment of the list leaves below the tree. -/
structure Stands (m₂ m' : HeapMemory) (t j l : ℕ) : Prop where
  links : SameLinks m₂ m'
  counts : SameCounts (trackFull m₂ t j ((m₂.listHeads l).numUsedSlots + 1)) m'
  lists : ∀ l', (m'.listHeads l').numUsedSlots =
    if l' = l then (m₂.listHeads l).numUsedSlots + 1 else (m₂.listHeads l').numUsedSlots

theorem Target.used_lt (hT : Target m (locked m 0 0) m₂ 0 t j l x) :
    (m₂.listHeads l).numUsedSlots < 128 := by
  have hlen := slots_length_lt (mem_slots_not.mp hT.slot).1 (mem_slots_not.mp hT.slot).2
  rw [hT.occupied.used hT.tree hT.list]
  exact hlen

theorem Target.stands (hT : Target m (locked m 0 0) m₂ 0 t j l x) (address n : ℕ) :
    Stands m₂ (cacheHeap (stored m₂ 0 t j l x address n) 0 t j l x n) t j l := by
  have hlt := hT.used_lt
  have hsucc : ((m₂.listHeads l).numUsedSlots + 1) % 256 = (m₂.listHeads l).numUsedSlots + 1 := by
    omega
  have honly := onlyCaches_cacheHeap (m := stored m₂ 0 t j l x address n) (i := 0) (t := t) (j := j)
    (l := l)
    (x := x) n
  refine ⟨(sameLinks_stored (m := m₂)).trans honly.links, ?_, fun l' => ?_⟩
  · have hstored : SameCounts (trackFull m₂ t j (((m₂.listHeads l).numUsedSlots + 1) % 256))
        (stored m₂ 0 t j l x address n) := sameCounts_stored
    rw [hsucc] at hstored
    exact hstored.trans honly.counts
  · rw [honly.lists, listHeads_stored]
    split
    · exact hsucc
    · rfl

theorem Filling.count_lt (h : Filling m t)
    (hT : Target m (locked m 0 0) m₂ 0 t j l x) : (m₂.trees t).fullSlotCount < 128 := by
  have hP := h.listPicked hT
  have hle := slots_length_le (m₂.trees t).fullSlots
  rw [← (hT.occupied.tree hT.tree).full, hP.count] at hle
  rw [hP.count]
  exact Nat.lt_of_le_of_ne hle h.notFull

theorem Filling.count_stands (h : Filling m t)
    (hT : Target m (locked m 0 0) m₂ 0 t j l x) (hS : Stands m₂ m' t j l) :
    (m'.trees t).fullSlotCount =
    if (m₂.listHeads l).numUsedSlots + 1 = maxSlots then (m₂.trees t).fullSlotCount + 1
    else (m₂.trees t).fullSlotCount := by
  rw [hS.counts.fullCount]
  exact fullSlotCount_trackFull (Nat.ne_of_gt (hT.linked.tree hT.tree).1) (h.count_lt hT)

theorem Filling.child_stands (h : Filling m t)
    (hT : Target m (locked m 0 0) m₂ 0 t j l x) (hS : Stands m₂ m' t j l) {k l' : ℕ}
    (hl' : ChildAt (m.trees t) k l') :
    ChildAt (m'.trees t) k l' ∧ (m'.listHeads l').numUsedSlots =
      if l' = l then (m₂.listHeads l).numUsedSlots + 1 else (m.listHeads l').numUsedSlots := by
  obtain ⟨hold, hnum⟩ := (h.listPicked hT).old hl'
  exact ⟨hS.links.childAt.mpr hold, (hS.lists l').trans (by rw [hnum])⟩

theorem Filling.first_full (h : Filling m t)
    (hT : Target m (locked m 0 0) m₂ 0 t j l x) {k l₀ : ℕ} (hl₀ : ChildAt (m.trees t) 0 l₀)
    (hk : k ∈ slots (m₂.trees t).present) (hk0 : k ≠ 0) :
    (m.listHeads l₀).numUsedSlots = maxSlots := by
  have hP := h.listPicked hT
  by_cases hkm : k ∈ slots (m.trees t).present
  · exact h.first hkm hk0 hl₀
  · have hkj := (hP.new hk).resolve_left hkm
    exact hP.page (hkj ▸ hkm) hl₀

theorem Filling.ne_of_full (h : Filling m t)
    (hT : Target m (locked m 0 0) m₂ 0 t j l x) {k l₀ : ℕ} (hl₀ : ChildAt (m.trees t) k l₀)
    (hfull : (m.listHeads l₀).numUsedSlots = maxSlots) : l₀ ≠ l := by
  rintro rfl
  have hlt := hT.used_lt
  rw [((h.listPicked hT).old hl₀).2, hfull] at hlt
  exact absurd hlt (Nat.lt_irrefl _)

/-- The list that fills the tree is not the first: 127 lists were full before it. -/
theorem Filling.last_ne_zero (h : Filling m t)
    (hT : Target m (locked m 0 0) m₂ 0 t j l x)
    (hlast : (m₂.trees t).fullSlotCount + 1 = maxSlots) : j ≠ 0 := by
  rintro rfl
  obtain ⟨l₀, hl₀⟩ := h.held.linked.listPage h.child 0 h.zero
  have hl₀ : ChildAt (m.trees t) 0 l₀ := ⟨h.zero, hl₀⟩
  obtain ⟨k, hk, hk0⟩ : ∃ k ∈ slots (m₂.trees t).fullSlots, k ≠ 0 := by
    by_contra hall
    push Not at hall
    have hnodup : (slots (m₂.trees t).fullSlots).Nodup := places_nodup numSlotGroups _
    have hle := (List.subperm_of_subset hnodup
      (fun k hk => List.mem_singleton.mpr (hall k hk) : _ ⊆ [0])).length_le
    rw [← (hT.occupied.tree hT.tree).full] at hle
    have hmax : maxSlots = 128 := rfl
    rw [List.length_singleton] at hle
    omega
  have hfull := h.first_full hT hl₀ ((hT.occupied.tree hT.tree).sub k hk) hk0
  exact h.ne_of_full hT hl₀ hfull (((h.listPicked hT).old hl₀).1.child_eq hT.list)

theorem Filling.not_occupied (h : Filling m t)
    (hT : Target m (locked m 0 0) m₂ 0 t j l x) (hS : Stands m₂ m' t j l)
    (hfull : (m'.trees t).fullSlotCount = maxSlots) :
    ¬Occupied m' := by
  intro ho
  have ht0 : t ≠ 0 := Nat.ne_of_gt (hT.linked.tree hT.tree).1
  have hlast : (m₂.listHeads l).numUsedSlots + 1 = maxSlots := by
    by_contra hne
    rw [h.count_stands hT hS, if_neg hne] at hfull
    exact absurd hfull (Nat.ne_of_lt (h.count_lt hT))
  have hmark := (ho.treeFull (hS.links.childAt.mpr hT.tree)).mpr hfull
  have hcounts := hS.counts
  rw [hlast] at hcounts
  rw [hcounts.fullSlots, fullSlots_trackFull ht0 ((hcounts.fullCount t).symm.trans hfull)] at hmark
  rcases (mem_slots_set (lt_of_mem_slots hT.list.1)).mp hmark with hzero | hold
  · rw [h.count_stands hT hS, if_pos hlast] at hfull
    exact h.last_ne_zero hT hfull hzero.symm
  · exact absurd ((hT.occupied.treeFull hT.tree).mp hold) (Nat.ne_of_lt (h.count_lt hT))

theorem Filling.stays (h : Filling m t)
    (hT : Target m (locked m 0 0) m₂ 0 t j l x) (address n : ℕ)
    (hS : Stands m₂ (cacheHeap (stored m₂ 0 t j l x address n) 0 t j l x n) t j l)
    (hfull : ((cacheHeap (stored m₂ 0 t j l x address n) 0 t j l x n).trees t).fullSlotCount ≠
      maxSlots) :
    Filling (cacheHeap (stored m₂ 0 t j l x address n) 0 t j l x n) t := by
  have hP := h.listPicked hT
  obtain ⟨l₀, hl₀⟩ := h.held.linked.listPage h.child 0 h.zero
  have hl₀ : ChildAt (m.trees t) 0 l₀ := ⟨h.zero, hl₀⟩
  obtain ⟨hzero, hnum⟩ := h.child_stands hT hS hl₀
  refine ⟨hT.held fun hc hn => ?_, hS.links.childAt.mpr hT.tree, fun i hi => ?_, hfull, hzero.1,
    fun {k l'} hk hk0 hl' => ?_⟩
  · refine absurd ?_ hfull
    rw [h.count_stands hT hS, if_pos (by rw [hn]; rfl), hc]
    rfl
  · rw [hS.links.present] at hi
    exact h.only i (hP.root i hi)
  · rw [hS.links.present] at hk
    have hfirst := h.first_full hT hl₀ hk hk0
    rw [hl'.child_eq hzero, hnum, if_neg (h.ne_of_full hT hl₀ hfirst)]
    exact hfirst

theorem Filling.load_lt (h : Filling m t)
    (hT : Target m (locked m 0 0) m₂ 0 t j l x) (hS : Stands m₂ m' t j l) :
    load m t < load m' t := by
  have hP := h.listPicked hT
  have hnew : fillAt m' t j = (m₂.listHeads l).numUsedSlots + 1 := by
    rw [fillAt_of_childAt (hS.links.childAt.mpr hT.list), hS.lists, if_pos rfl]
  refine Finset.sum_lt_sum (fun k _ => ?_) ⟨j, Finset.mem_range.mpr (lt_of_mem_slots hT.list.1), ?_⟩
  · by_cases hk : k ∈ slots (m.trees t).present
    · obtain ⟨l', hl'⟩ := h.held.linked.listPage h.child k hk
      have hl' : ChildAt (m.trees t) k l' := ⟨hk, hl'⟩
      obtain ⟨hchild, hnum⟩ := h.child_stands hT hS hl'
      rw [fillAt_of_childAt hl', fillAt_of_childAt hchild, hnum]
      split
      · rename_i he
        rw [← (hP.old hl').2, he]
        exact Nat.le_succ _
      · exact Nat.le_refl _
    · rw [fillAt_of_not hk]
      exact Nat.zero_le _
  · rw [hnew]
    by_cases hj : j ∈ slots (m.trees t).present
    · obtain ⟨l', hl'⟩ := h.held.linked.listPage h.child j hj
      have hl' : ChildAt (m.trees t) j l' := ⟨hj, hl'⟩
      rw [fillAt_of_childAt hl', ← (hP.old hl').2, (hP.old hl').1.child_eq hT.list]
      exact Nat.lt_succ_self _
    · rw [fillAt_of_not hj]
      exact Nat.succ_pos _

/-- One more segment either fills the tree, and marks it wrongly, or stands in a tree that is still
not full. -/
theorem Filling.step (h : Filling m t) (address n : ℕ) : ∃ m', createHeap m address n = .ok m' ∧
    (¬Occupied m' ∨ (Filling m' t ∧ load m t < load m' t)) := by
  obtain ⟨m₁, m₂, j, l, x, hT, rfl, hcreated⟩ := h.target address n
  have hS := hT.stands address n
  refine ⟨_, hcreated, ?_⟩
  by_cases hfull : ((cacheHeap (stored m₂ 0 t j l x address n) 0 t j l x n).trees t).fullSlotCount =
    maxSlots
  · exact Or.inl (h.not_occupied hT hS hfull)
  · exact Or.inr ⟨h.stays hT address n hS hfull, h.load_lt hT hS⟩

theorem step_create {address : ℕ} (ha : address < 2 ^ 64) (hn : n < 2 ^ 64)
    (h : createHeap m address n = .ok m') :
    Session.step ⟨m, none⟩ (.create address n) = some ⟨m', none⟩ := by
  have htyped : (Call.create address n).typed = true := by
    rw [Call.typed, decide_eq_true ha, decide_eq_true hn]
    rfl
  have hcall : m.call (.create address n) = .ok m' := h
  rw [Session.step, htyped]
  simp only [hcall]
  rfl

theorem Filling.overflows (k : ℕ) (h : Filling m t) (hk : 16384 - load m t ≤ k) :
    ∃ s, Reaches Session.step anyStep ⟨m, none⟩ s ∧ s.fault = none ∧ ¬Occupied s.memory := by
  induction k generalizing m with
  | zero =>
    obtain ⟨m', hcreated, hbad | ⟨hfilling, hlt⟩⟩ := h.step 0 16
    · exact ⟨⟨m', none⟩, Reaches.head trivial (step_create (by decide) (by decide) hcreated)
        (Reaches.refl _), rfl, hbad⟩
    · have hle := hfilling.load_le
      omega
  | succ k ih =>
    obtain ⟨m', hcreated, hbad | ⟨hfilling, hlt⟩⟩ := h.step 0 16
    · exact ⟨⟨m', none⟩, Reaches.head trivial (step_create (by decide) (by decide) hcreated)
        (Reaches.refl _), rfl, hbad⟩
    · obtain ⟨s, hs, hfault, hbad⟩ := ih hfilling (by omega)
      exact ⟨s, Reaches.head trivial (step_create (by decide) (by decide) hcreated) hs,
        hfault, hbad⟩

theorem Ready.filling (h : Ready m false) (hheld : Held m) (hused : (used m).length ≠ 128) :
    Filling m 1 := by
  have hroot : slots (m.trees 0).present = [0] := slots_one h.shape.root.first h.shape.root.second
  have htree : slots (m.trees 1).present = [0] := slots_one h.shape.tree.first h.shape.tree.second
  refine ⟨hheld, ⟨?_, h.shape.root.child⟩, fun i hi => ?_, ?_, ?_, fun {j l₀} hj hj0 => ?_⟩
  · rw [hroot]
    exact List.mem_singleton_self 0
  · rw [hroot] at hi
    exact List.mem_singleton.mp hi
  · rw [h.counted.fullCount hused]
    decide
  · rw [htree]
    exact List.mem_singleton_self 0
  · rw [htree] at hj
    exact absurd (List.mem_singleton.mp hj) hj0

end DevOs.Heap
