import DevOs.Heap.Recache

/-!
# The caches of the largest segments

A slot of a tree caches the largest segment of its list, and a slot of the root the largest below it
with its place. `CreateHeap` keeps both unless it stores an empty segment where nothing is cached.
`AllocatePoolEx` keeps them when its scans stay inside their arrays and the list it took from still
has the longest segment of its tree: a tree does not know the places of the segments that it caches,
so no other list can be named.
-/

namespace DevOs.Heap

open Bitmaps Maxima Runs

variable {m m' m₁ : HeapMemory} {t u i j k c l x n : ℕ}

def slotSegments (m : HeapMemory) (t j : ℕ) : Set (ℕ × ℕ) :=
  {h | ChildAt (m.trees t) j h.1 ∧ h.2 ∈ slots (m.listHeads h.1).usedSlots}

def treeSegments (m : HeapMemory) (t : ℕ) : Set (ℕ × ℕ) :=
  ⋃ j ∈ {j | j ∈ slots (m.trees t).present}, slotSegments m t j

/-- The caches are right on both levels. -/
structure CachesHold (m : HeapMemory) : Prop where
  tree : ∀ i ∈ slots (m.trees 0).present, ∃ t, ((m.trees 0).childs i).child = some t ∧
    Maxima.Largest (treeSegments m t) m.len ((m.trees 0).childs i).largestHeap
  place : ∀ i ∈ slots (m.trees 0).present, ∀ h, ((m.trees 0).childs i).largestHeap = some h →
    ((m.trees 0).childs i).listHeadLargestHeap = some h.1 ∧
    ((m.trees 0).childs i).indexLargestHeap = h.2
  list : ∀ {i t}, ChildAt (m.trees 0) i t → ∀ j ∈ slots (m.trees t).present,
    Maxima.Largest (slotSegments m t j) m.len ((m.trees t).childs j).largestHeap

section SameLists

variable (hlinks : SameLinks m m') (hlists : m'.listHeads = m.listHeads)

include hlinks hlists

theorem slotSegments_congr (t j : ℕ) : slotSegments m' t j = slotSegments m t j := by
  ext h
  rw [slotSegments, slotSegments, Set.mem_ofPred_eq, Set.mem_ofPred_eq, hlinks.childAt, hlists]

theorem treeSegments_congr (t : ℕ) : treeSegments m' t = treeSegments m t := by
  rw [treeSegments, treeSegments, hlinks.present]
  exact Set.iUnion₂_congr fun j _ => slotSegments_congr hlinks hlists t j

omit hlinks in
theorem len_congr : m'.len = m.len := by
  funext h
  rw [HeapMemory.len, HeapMemory.len, HeapMemory.segment, hlists]
  rfl

theorem CachesHold.congr (hc : CachesHold m) (hcaches : SameCaches m m') : CachesHold m' := by
  refine ⟨fun i hi => ?_, fun i hi => ?_, fun {i t} ht j hj => ?_⟩
  · rw [hlinks.present] at hi
    rw [hlinks.child, hcaches.largestHeap, len_congr hlists]
    obtain ⟨t, ht, hlargest⟩ := hc.tree i hi
    exact ⟨t, ht, (treeSegments_congr hlinks hlists t).symm ▸ hlargest⟩
  · rw [hlinks.present] at hi
    rw [hcaches.largestHeap, hcaches.listHead, hcaches.index]
    exact hc.place i hi
  · rw [hlinks.present] at hj
    rw [hcaches.largestHeap, len_congr hlists, slotSegments_congr hlinks hlists]
    exact hc.list (hlinks.childAt.mp ht) j hj

end SameLists

/-- The caches are right but for the slot `i` of the root and the slot `j` of the tree `t` there. -/
structure CachesBut (m : HeapMemory) (i t j : ℕ) : Prop where
  tree : ∀ {i' t'}, i' ≠ i → ChildAt (m.trees 0) i' t' →
    Maxima.Largest (treeSegments m t') m.len ((m.trees 0).childs i').largestHeap
  place : ∀ {i'}, i' ≠ i → i' ∈ slots (m.trees 0).present →
    ∀ h, ((m.trees 0).childs i').largestHeap = some h →
      ((m.trees 0).childs i').listHeadLargestHeap = some h.1 ∧
      ((m.trees 0).childs i').indexLargestHeap = h.2
  list : ∀ {i' t'}, ChildAt (m.trees 0) i' t' →
    ∀ k ∈ slots (m.trees t').present, ¬(t' = t ∧ k = j) →
    Maxima.Largest (slotSegments m t' k) m.len ((m.trees t').childs k).largestHeap

theorem mem_treeSegments {h : ℕ × ℕ} : h ∈ treeSegments m t ↔ ∃ j, h ∈ slotSegments m t j := by
  rw [treeSegments, Set.mem_iUnion₂]
  constructor
  · rintro ⟨j, -, hj⟩
    exact ⟨j, hj⟩
  · rintro ⟨j, hj⟩
    exact ⟨j, hj.1.1, hj⟩

theorem slotSegments_eq (hl : ChildAt (m.trees t) j l) : slotSegments m t j = listSegments m l := by
  ext h
  constructor
  · rintro ⟨hchild, hused⟩
    have hh := hchild.child_eq hl
    rw [hh] at hused
    exact ⟨hh, hused⟩
  · rintro ⟨rfl, hused⟩
    exact ⟨hl, hused⟩

theorem CachesHold.tree_of (hc : CachesHold m) (ht : ChildAt (m.trees 0) i t) :
    Maxima.Largest (treeSegments m t) m.len ((m.trees 0).childs i).largestHeap := by
  obtain ⟨u, hu, hlargest⟩ := hc.tree i ht.1
  rw [ht.2] at hu
  cases hu
  exact hlargest

theorem slotSegments_of_ne {i' t' : ℕ} (hm : Linked m) (ht : ChildAt (m.trees 0) i t)
    (hl : ChildAt (m.trees t) j l) (hlinks : SameLinks m m₁)
    (hlists : ∀ u, u ≠ l → m₁.listHeads u = m.listHeads u) (ht' : ChildAt (m.trees 0) i' t')
    (hne : ¬(t' = t ∧ k = j)) :
    slotSegments m₁ t' k = slotSegments m t' k ∧ ∀ h ∈ slotSegments m t' k, m₁.len h = m.len h := by
  have hother {h : ℕ × ℕ} (hh : ChildAt (m.trees t') k h.1) : m₁.listHeads h.1 = m.listHeads h.1 :=
    hlists h.1 fun he => hne (hm.list_unique ht hl ht' (he ▸ hh))
  constructor
  · ext h
    have hiff := hlinks.childAt (t := t') (i := k) (c := h.1)
    constructor
    · rintro ⟨hchild, hused⟩
      rw [hother (hiff.mp hchild)] at hused
      exact ⟨hiff.mp hchild, hused⟩
    · rintro ⟨hchild, hused⟩
      rw [← hother hchild] at hused
      exact ⟨hiff.mpr hchild, hused⟩
  · intro h hh
    rw [HeapMemory.len, HeapMemory.segment, hother hh.1]
    rfl

theorem CachesHold.but (hm : Linked m) (hc : CachesHold m) (ht : ChildAt (m.trees 0) i t)
    (hl : ChildAt (m.trees t) j l) (hlinks : SameLinks m m₁) (hcaches : SameCaches m m₁)
    (hlists : ∀ u, u ≠ l → m₁.listHeads u = m.listHeads u) : CachesBut m₁ i t j := by
  have hslot {i' t' k : ℕ} (ht' : ChildAt (m.trees 0) i' t') (hne : ¬(t' = t ∧ k = j)) :=
    slotSegments_of_ne hm ht hl hlinks hlists ht' hne
  refine ⟨fun {i' t'} hi' ht' => ?_, fun {i'} hi' hmem h hh => ?_, fun {i' t'} ht' k hk hne => ?_⟩
  · have ht' := hlinks.childAt.mp ht'
    have htt : t' ≠ t := by
      rintro rfl
      exact hi' (hm.tree_ne ht ht')
    rw [hcaches.largestHeap]
    refine (hc.tree_of ht').congr (fun h => ?_) fun h hh => ?_
    · rw [mem_treeSegments, mem_treeSegments]
      exact exists_congr fun k => by rw [(hslot ht' fun he => htt he.1).1]
    · obtain ⟨k, hk⟩ := mem_treeSegments.mp hh
      exact (hslot ht' fun he => htt he.1).2 h hk
  · rw [hlinks.present] at hmem
    rw [hcaches.largestHeap] at hh
    rw [hcaches.listHead, hcaches.index]
    exact hc.place i' hmem h hh
  · have ht' := hlinks.childAt.mp ht'
    rw [hlinks.present] at hk
    rw [hcaches.largestHeap]
    rw [(hslot ht' hne).1]
    exact (hc.list ht' k hk).congr (fun _ => Iff.rfl) (hslot ht' hne).2

theorem CachesBut.complete (hm : Linked m₁) (hc : CachesBut m₁ i t j)
    (ht : ChildAt (m₁.trees 0) i t) (hcaches : OnlyCaches m₁ m')
    (hother : ∀ u k, ¬(u = 0 ∧ k = i) → ¬(u = t ∧ k = j) →
      ((m'.trees u).childs k).cache = ((m₁.trees u).childs k).cache)
    (htree : Maxima.Largest (treeSegments m₁ t) m₁.len ((m'.trees 0).childs i).largestHeap)
    (hplace : ∀ h, ((m'.trees 0).childs i).largestHeap = some h →
      ((m'.trees 0).childs i).listHeadLargestHeap = some h.1 ∧
      ((m'.trees 0).childs i).indexLargestHeap = h.2)
    (hlist : Maxima.Largest (slotSegments m₁ t j) m₁.len ((m'.trees t).childs j).largestHeap) :
    CachesHold m' := by
  have hlinks := hcaches.links
  have hslot := slotSegments_congr hlinks hcaches.lists
  have htrees := treeSegments_congr hlinks hcaches.lists
  have hlen := len_congr hcaches.lists
  have hpos : t ≠ 0 := Nat.ne_of_gt (hm.tree ht).1
  refine ⟨fun i' hi' => ?_, fun i' hi' h hh => ?_, fun {i' t'} ht' k hk => ?_⟩
  · rw [hlinks.present] at hi'
    obtain ⟨t', ht'⟩ := hm.treePage i' hi'
    refine ⟨t', (hlinks.child 0 i').trans ht', ?_⟩
    rw [htrees, hlen]
    by_cases he : i' = i
    · subst he
      rw [ht.2] at ht'
      cases ht'
      exact htree
    · have hcache := hother 0 i' (fun h => he h.2) fun h => hpos h.1.symm
      rw [show ((m'.trees 0).childs i').largestHeap = _ from congrArg Prod.fst hcache]
      exact hc.tree he ⟨hi', ht'⟩
  · by_cases he : i' = i
    · subst he
      exact hplace h hh
    · have hcache := hother 0 i' (fun h => he h.2) fun h => hpos h.1.symm
      rw [show ((m'.trees 0).childs i').largestHeap = _ from congrArg Prod.fst hcache] at hh
      rw [show ((m'.trees 0).childs i').listHeadLargestHeap =
        _ from congrArg (fun p =>
        p.2.1) hcache, show ((m'.trees 0).childs i').indexLargestHeap =
        _ from congrArg (fun p => p.2.2) hcache]
      rw [hlinks.present] at hi'
      exact hc.place he hi' h hh
  · have ht' := hlinks.childAt.mp ht'
    rw [hlinks.present] at hk
    rw [hslot, hlen]
    by_cases he : t' = t ∧ k = j
    · rw [he.1, he.2]
      exact hlist
    · have ht0 : t' ≠ 0 := Nat.ne_of_gt (hm.tree ht').1
      have hcache := hother t' k (fun h => ht0 h.1) he
      rw [show ((m'.trees t').childs k).largestHeap = _ from congrArg Prod.fst hcache]
      exact hc.list ht' k hk he

section Store

variable {address : ℕ}

theorem smaller_iff {o : Option (ℕ × ℕ)} : smaller m o n = true ↔ o = none ∨ value m.len o < n := by
  cases o with
  | none => simp [smaller]
  | some h => simp [smaller, HeapMemory.len]

theorem listSegments_stored (hx : x < 128) :
    listSegments (stored m i t j l x address n) l = insert (l, x) (listSegments m l) := by
  ext h
  rw [Set.mem_insert_iff, listSegments, listSegments, Set.mem_ofPred_eq, Set.mem_ofPred_eq,
    listHeads_stored, if_pos rfl, mem_slots_set hx, Prod.ext_iff]
  tauto

theorem slotSegments_stored (hl : ChildAt (m.trees t) j l) (hx : x < 128) :
    slotSegments (stored m i t j l x address n) t j = insert (l, x) (slotSegments m t j) := by
  have hl₁ : ChildAt ((stored m i t j l x address n).trees t) j l :=
    sameLinks_stored.childAt.mpr hl
  rw [slotSegments_eq hl₁, slotSegments_eq hl]
  exact listSegments_stored hx

theorem treeSegments_stored (hm : Linked m) (ht : ChildAt (m.trees 0) i t)
    (hl : ChildAt (m.trees t) j l) (hx : x < 128) :
    treeSegments (stored m i t j l x address n) t = insert (l, x) (treeSegments m t) := by
  have hslot : slotSegments (stored m i t j l x address n) t j = insert (l, x) _ :=
    slotSegments_stored hl hx
  have hsame {k : ℕ} (hk : k ≠ j) :
      slotSegments (stored m i t j l x address n) t k = slotSegments m t k :=
    (slotSegments_of_ne hm ht hl sameLinks_stored
      (fun u hu => by rw [listHeads_stored, if_neg hu]) ht fun h => hk h.2).1
  ext h
  rw [Set.mem_insert_iff, mem_treeSegments, mem_treeSegments]
  constructor
  · rintro ⟨k, hk⟩
    by_cases hkj : k = j
    · rw [hkj, hslot] at hk
      exact hk.imp_right fun hk => ⟨j, hk⟩
    · exact Or.inr ⟨k, hsame hkj ▸ hk⟩
  · rintro (rfl | ⟨k, hk⟩)
    · exact ⟨j, hslot ▸ Set.mem_insert _ _⟩
    · by_cases hkj : k = j
      · rw [hkj] at hk
        exact ⟨j, hslot ▸ Set.mem_insert_of_mem _ hk⟩
      · exact ⟨k, (hsame hkj).symm ▸ hk⟩

/-- `CacheHeap` makes both caches right again when they were before the segment came in. -/
theorem CachesBut.cacheHeap {S T : Set (ℕ × ℕ)} (hm : Linked m) (hbut : CachesBut m i t j)
    (ht : ChildAt (m.trees 0) i t) (hx : x < 128)
    (hslot : slotSegments m t j = insert (l, x) S) (htree : treeSegments m t = insert (l, x) T)
    (hsub : S ⊆ T) (hold : Maxima.Largest S m.len ((m.trees t).childs j).largestHeap)
    (holdTree : Maxima.Largest T m.len ((m.trees 0).childs i).largestHeap)
    (hplace : ∀ h, ((m.trees 0).childs i).largestHeap = some h →
      ((m.trees 0).childs i).listHeadLargestHeap = some h.1 ∧
      ((m.trees 0).childs i).indexLargestHeap = h.2)
    (hnew : m.len (l, x) = n) (hn : n ≠ 0 ∨ ((m.trees t).childs j).largestHeap ≠ none) :
    CachesHold (Heap.cacheHeap m i t j l x n) := by
  have ht0 : t ≠ 0 := Nat.ne_of_gt (hm.tree ht).1
  have honly : OnlyCaches m (Heap.cacheHeap m i t j l x n) := onlyCaches_cacheHeap n
  have hrecord (u k : ℕ) : ((recordList m t j l x).trees u).childs k = if u = t ∧ k = j then
      { (m.trees t).childs j with largestHeap := some (l, x) } else (m.trees u).childs k :=
    childs_setItem
  have hroot : ((recordList m t j l x).trees 0).childs i = (m.trees 0).childs i := by
    rw [hrecord, if_neg fun h => ht0 h.1.symm]
  have hslotItem : ((recordList m t j l x).trees t).childs j =
      { (m.trees t).childs j with largestHeap := some (l, x) } := by
    rw [hrecord, if_pos ⟨rfl, rfl⟩]
  rw [cacheHeap_eq, hroot] at honly ⊢
  by_cases hsmall : smaller m ((m.trees t).childs j).largestHeap n = true
  · have hlt : value m.len ((m.trees t).childs j).largestHeap < m.len (l, x) := by
      rw [hnew]
      rcases smaller_iff.mp hsmall with hnone | hlt
      · rw [hnone, value_none]
        exact Nat.pos_of_ne_zero (hn.resolve_right fun h => h hnone)
      · exact hlt
    rw [if_pos hsmall] at honly ⊢
    by_cases hsmall' : smaller (recordList m t j l x) ((m.trees 0).childs i).largestHeap n = true
    · have hlt' : value m.len ((m.trees 0).childs i).largestHeap < m.len (l, x) := by
        rcases smaller_iff.mp hsmall' with hnone | hlt'
        · rw [hnone, value_none]
          exact Nat.lt_of_le_of_lt (Nat.zero_le _) hlt
        · rw [hnew]
          exact hlt'
      have hrecord' (u k : ℕ) : ((recordTree (recordList m t j l x) i l x).trees u).childs k =
          if u = 0 ∧ k = i then { ((recordList m t j l x).trees 0).childs i with
            largestHeap := some (l, x), indexLargestHeap := x % 256, listHeadLargestHeap := some l }
          else ((recordList m t j l x).trees u).childs k := childs_setItem
      rw [if_pos hsmall'] at honly ⊢
      refine hbut.complete hm ht honly
        (fun u k hne hne' => by rw [hrecord', if_neg hne, hrecord, if_neg hne']) ?_
        (fun h hh => ?_) ?_
      · rw [hrecord', if_pos ⟨rfl, rfl⟩, htree]
        exact holdTree.insert_of_lt hlt'
      · rw [hrecord', if_pos ⟨rfl, rfl⟩] at hh ⊢
        cases hh
        exact ⟨rfl, Nat.mod_eq_of_lt (by omega)⟩
      · rw [hrecord', if_neg fun h => ht0 h.1, hslotItem, hslot]
        exact hold.insert_of_lt hlt
    · have hle : m.len (l, x) ≤ value m.len ((m.trees 0).childs i).largestHeap := by
        rw [hnew]
        exact Nat.le_of_not_lt fun h => hsmall' (smaller_iff.mpr (Or.inr h))
      rw [if_neg hsmall'] at honly ⊢
      refine hbut.complete hm ht honly (fun u k _ hne => by rw [hrecord, if_neg hne]) ?_ ?_ ?_
      · rw [hroot, htree]
        exact holdTree.insert_of_le hle
      · rw [hroot]
        exact hplace
      · rw [hslotItem, hslot]
        exact hold.insert_of_lt hlt
  · have hle : m.len (l, x) ≤ value m.len ((m.trees t).childs j).largestHeap := by
      rw [hnew]
      exact Nat.le_of_not_lt fun h => hsmall (smaller_iff.mpr (Or.inr h))
    rw [if_neg hsmall] at honly ⊢
    refine hbut.complete hm ht honly (fun _ _ _ _ => rfl) ?_ hplace ?_
    · rw [htree]
      exact holdTree.insert_of_le (Nat.le_trans hle (holdTree.value_le hold hsub))
    · rw [hslot]
      exact hold.insert_of_le hle

theorem CachesHold.store (hm : Linked m) (hc : CachesHold m) (ht : ChildAt (m.trees 0) i t)
    (hl : ChildAt (m.trees t) j l) (hx : x ∈ slots fun y => ~~~(m.listHeads l).usedSlots y)
    (hn : n ≠ 0 ∨ ((m.trees t).childs j).largestHeap ≠ none) :
    CachesHold (cacheHeap (stored m i t j l x address n) i t j l x n) := by
  obtain ⟨hx128, hnot⟩ := mem_slots_not.mp hx
  let m₁ := stored m i t j l x address n
  have hlinks : SameLinks m m₁ := sameLinks_stored
  have hcaches : SameCaches m m₁ := sameCaches_stored
  have hbut : CachesBut m₁ i t j := hc.but hm ht hl hlinks hcaches
    fun u hu => by rw [listHeads_stored, if_neg hu]
  have hlen (h : ℕ × ℕ) (hh : h ≠ (l, x)) : m₁.len h = m.len h := by
    rw [HeapMemory.len, segment_stored, if_neg hh]
    rfl
  have hnew : m₁.len (l, x) = n := by
    rw [HeapMemory.len, segment_stored, if_pos rfl]
  have hfresh (u k : ℕ) : (l, x) ∉ slotSegments m u k := fun h => hnot h.2
  have hold : Maxima.Largest (slotSegments m t j) m₁.len ((m.trees t).childs j).largestHeap :=
    (hc.list ht j hl.1).congr (fun h => Iff.rfl) fun h hh => hlen h fun he => hfresh t j (he ▸ hh)
  have holdTree : Maxima.Largest (treeSegments m t) m₁.len ((m.trees 0).childs i).largestHeap := by
    refine (hc.tree_of ht).congr (fun h => Iff.rfl) fun h hh => hlen h fun he => ?_
    obtain ⟨k, hk⟩ := mem_treeSegments.mp hh
    exact hfresh t k (he ▸ hk)
  have hplace := hc.place i ht.1
  rw [← hcaches.largestHeap] at hold hn holdTree hplace
  rw [← hcaches.listHead, ← hcaches.index] at hplace
  exact hbut.cacheHeap (hm.congr hlinks) (hlinks.childAt.mpr ht) hx128
    (slotSegments_stored hl hx128) (treeSegments_stored hm ht hl hx128)
    (fun h hh => mem_treeSegments.mpr ⟨j, hh⟩) hold holdTree hplace hnew hn

end Store

section Grow

theorem slotSegments_grow {i' t' : ℕ} (hm : Linked m) (ht : t < m.brk)
    (hi : i ∈ slots fun y => ~~~(m.trees t).present y) (ht' : ChildAt (m.trees 0) i' t') :
    slotSegments (grow m t i) t' k = slotSegments m t' k ∧
      ∀ h ∈ slotSegments m t' k, (grow m t i).len h = m.len h := by
  have hlist {h : ℕ × ℕ} (hh : ChildAt (m.trees t') k h.1) : (grow m t i).listHeads h.1 =
      m.listHeads h.1 :=
    listHeads_grow_of_ne i (Nat.ne_of_lt (hm.list ht' hh).1)
  constructor
  · ext h
    rw [slotSegments, slotSegments, Set.mem_ofPred_eq, Set.mem_ofPred_eq]
    by_cases he : t' = t
    · subst he
      rw [childAt_grow (Nat.ne_of_lt ht) hi]
      constructor
      · rintro ⟨hchild | ⟨-, hpage⟩, hused⟩
        · rw [hlist hchild] at hused
          exact ⟨hchild, hused⟩
        · rw [hpage, listHeads_grow_page, mem_slots] at hused
          exact absurd hused.2 (by simp [bit, SegmentListHead.zero])
      · rintro ⟨hchild, hused⟩
        rw [← hlist hchild] at hused
        exact ⟨Or.inl hchild, hused⟩
    · rw [trees_grow_of_ne i (Nat.ne_of_lt (hm.tree ht').2.1) he]
      exact and_congr_right fun hchild => by rw [hlist hchild]
  · intro h hh
    rw [HeapMemory.len, HeapMemory.segment, hlist hh.1]
    rfl

theorem treeSegments_grow {i' t' : ℕ} (hm : Linked m) (ht : t < m.brk)
    (hi : i ∈ slots fun y => ~~~(m.trees t).present y) (ht' : ChildAt (m.trees 0) i' t') :
    treeSegments (grow m t i) t' = treeSegments m t' ∧
      ∀ h ∈ treeSegments m t', (grow m t i).len h = m.len h := by
  constructor
  · ext h
    rw [mem_treeSegments, mem_treeSegments]
    exact exists_congr fun k => by rw [(slotSegments_grow hm ht hi ht').1]
  · intro h hh
    obtain ⟨k, hk⟩ := mem_treeSegments.mp hh
    exact (slotSegments_grow hm ht hi ht').2 h hk

theorem CachesHold.growTree (hm : Linked m) (hb : Blank m) (hc : CachesHold m)
    (hi : i ∈ slots fun y => ~~~(m.trees 0).present y) : CachesHold (grow m 0 i) := by
  have h0 : 0 ≠ m.brk := Nat.ne_of_lt hm.pos
  obtain ⟨hlt, hnot⟩ := mem_slots_not.mp hi
  have hitem {k : ℕ} (hk : k ≠ i) : ((grow m 0 i).trees 0).childs k = (m.trees 0).childs k := by
    rw [trees_grow_self i h0]
    change ((m.trees 0).setChild i _).childs k = _
    rw [childs_setChild, if_neg hk]
  have hnew : (((grow m 0 i).trees 0).childs i).largestHeap = none := by
    rw [trees_grow_self i h0]
    change (((m.trees 0).setChild i _).childs i).largestHeap = none
    rw [childs_setChild, if_pos rfl]
    exact hb.root i hnot
  have hmem {k : ℕ} (hk : k ∈ slots ((grow m 0 i).trees 0).present) (hki : k ≠ i) :
      k ∈ slots (m.trees 0).present := by
    rw [trees_grow_self i h0] at hk
    exact ((mem_slots_set hlt).mp hk).resolve_left hki
  refine ⟨fun k hk => ?_, fun k hk h hh => ?_, fun {i' t'} ht' k hk => ?_⟩
  · by_cases hki : k = i
    · subst hki
      have hpage := (childAt_grow h0 hi).mpr (Or.inr ⟨rfl, rfl⟩)
      refine ⟨m.brk, hpage.2, ?_⟩
      rw [hnew]
      refine largest_none fun h hh => ?_
      obtain ⟨k', hk'⟩ := mem_treeSegments.mp hh
      exact absurd hk'.1 not_childAt_page
    · obtain ⟨t', hchild, hlargest⟩ := hc.tree k (hmem hk hki)
      have hseg := treeSegments_grow hm hm.pos hi ⟨hmem hk hki, hchild⟩
      rw [hitem hki]
      refine ⟨t', hchild, ?_⟩
      rw [hseg.1]
      exact hlargest.congr (fun _ => Iff.rfl) hseg.2
  · by_cases hki : k = i
    · rw [hki, hnew] at hh
      cases hh
    · rw [hitem hki] at hh ⊢
      exact hc.place k (hmem hk hki) h hh
  · rcases (childAt_grow h0 hi).mp ht' with ht' | ⟨rfl, rfl⟩
    · obtain ⟨hpos, htlt, -⟩ := hm.tree ht'
      have hseg := slotSegments_grow (k := k) hm hm.pos hi ht'
      rw [hseg.1]
      rw [trees_grow_of_ne i (Nat.ne_of_lt htlt) (Nat.ne_of_gt hpos)] at hk ⊢
      exact (hc.list ht' k hk).congr (fun _ => Iff.rfl) hseg.2
    · rw [trees_grow_page, mem_slots] at hk
      exact absurd hk.2 (by simp [bit, FreeMemoryTree.zero])

theorem CachesHold.growList (hm : Linked m) (hb : Blank m) (hc : CachesHold m)
    (ht : ChildAt (m.trees 0) i t) (hj : j ∈ slots fun y => ~~~(m.trees t).present y) :
    CachesHold (grow m t j) := by
  obtain ⟨hpos, hlt, -⟩ := hm.tree ht
  obtain ⟨hj128, hnot⟩ := mem_slots_not.mp hj
  have hroot : (grow m t j).trees 0 = m.trees 0 :=
    trees_grow_of_ne j (Nat.ne_of_lt hm.pos) (Nat.ne_of_lt hpos)
  refine ⟨fun k hk => ?_, fun k hk => ?_, fun {i' t'} ht' k hk => ?_⟩
  · rw [hroot] at hk ⊢
    obtain ⟨t', hchild, hlargest⟩ := hc.tree k hk
    have hseg := treeSegments_grow hm hlt hj ⟨hk, hchild⟩
    refine ⟨t', hchild, ?_⟩
    rw [hseg.1]
    exact hlargest.congr (fun _ => Iff.rfl) hseg.2
  · rw [hroot] at hk ⊢
    exact hc.place k hk
  · rw [hroot] at ht'
    have hseg := slotSegments_grow (k := k) hm hlt hj ht'
    rw [hseg.1]
    by_cases he : t' = t
    · subst he
      rw [trees_grow_self j (Nat.ne_of_lt hlt)] at hk ⊢
      change Maxima.Largest _ _ (((m.trees t').setChild j _).childs k).largestHeap
      rw [childs_setChild]
      split
      · rename_i hkj
        rw [hkj] at hseg ⊢
        change Maxima.Largest _ _ ((m.trees t').childs j).largestHeap
        rw [hb.tree ht' j hnot]
        exact largest_none fun h hh => absurd hh.1.1 hnot
      · rename_i hkj
        have hk' := ((mem_slots_set hj128).mp hk).resolve_left hkj
        exact (hc.list ht' k hk').congr (fun _ => Iff.rfl) hseg.2
    · rw [trees_grow_of_ne j (Nat.ne_of_lt (hm.tree ht').2.1) he] at hk ⊢
      exact (hc.list ht' k hk).congr (fun _ => Iff.rfl) hseg.2

end Grow

section Front

/-- The length that a segment has left when `n` bytes of the segment `h` are taken. -/
def HeapMemory.left (m : HeapMemory) (h : ℕ × ℕ) (n : ℕ) (g : ℕ × ℕ) : ℕ :=
  if g = h then m.len h - n else m.len g

/-- No cache of another list is larger than what the search finds in the carved list. -/
theorem value_le_found {d : Largest} (hm : Linked m) (ht : ChildAt (m.trees 0) i t)
    (hl : ChildAt (m.trees t) j l) (hbut : CachesBut (carved m i t j l x n) i t j)
    (hlongest : ∀ k l', k ≠ j → ChildAt (m.trees t) k l' → ∀ y ∈ slots (m.listHeads l').usedSlots,
      ∃ z ∈ slots (m.listHeads l).usedSlots, m.len (l', y) ≤ m.left (l, x) n (l, z))
    (hfound : FoundSegment (carved m i t j l x n) l d)
    (hk : k ∈ slots ((carved m i t j l x n).trees t).present) (hkj : k ≠ j) :
    value (carved m i t j l x n).len (((carved m i t j l x n).trees t).childs k).largestHeap ≤
      value (carved m i t j l x n).len d.heap := by
  let m₁ := carved m i t j l x n
  have hlinks : SameLinks m m₁ := sameLinks_carved
  have ht₁ : ChildAt (m₁.trees 0) i t := hlinks.childAt.mpr ht
  have hother := hbut.list ht₁ k hk fun h => hkj h.2
  cases hcache : ((m₁.trees t).childs k).largestHeap with
  | none => exact Nat.zero_le _
  | some g =>
    have hg := hother.mem g hcache
    have hpos := hother.pos g hcache
    have hgl : g.1 ≠ l := fun he =>
      hkj ((hm.congr hlinks).list_unique ht₁ (hlinks.childAt.mpr hl) ht₁ (he ▸ hg.1)).2
    obtain ⟨z, hz, hle⟩ := hlongest k g.1 hkj (hlinks.childAt.mp hg.1) g.2
      (listHeads_carved_of_ne hgl ▸ hg.2)
    have hlen : m₁.len g = m.len g := by
      rw [len_carved, if_neg fun he => hgl (congrArg Prod.fst he)]
    have hleft : m₁.len (l, z) = m.left (l, x) n (l, z) := len_carved _
    rw [value_some]
    rw [hlen] at hpos ⊢
    have hzpos : 0 < m₁.len (l, z) := by
      rw [hleft]
      exact Nat.lt_of_lt_of_le hpos hle
    refine Nat.le_trans hle (hleft ▸ hfound.largest.le (l, z) ⟨rfl, ?_⟩)
    rw [usedSlots_carved]
    split
    · rename_i hempty
      refine mem_slots_clear.mpr ⟨hz, ?_⟩
      rintro rfl
      rw [len_carved, if_pos rfl, hempty] at hzpos
      exact absurd hzpos (Nat.lt_irrefl 0)
    · exact hz

/-- The largest segment of one list is the largest of the tree when no other cache exceeds it. -/
theorem CachesBut.largest_tree {o : Option (ℕ × ℕ)} (hbut : CachesBut m i t j)
    (ht : ChildAt (m.trees 0) i t) (hl : ChildAt (m.trees t) j l)
    (hslot : Maxima.Largest (slotSegments m t j) m.len o)
    (hmax : ∀ k ∈ slots (m.trees t).present, k ≠ j →
      value m.len ((m.trees t).childs k).largestHeap ≤ value m.len o) :
    Maxima.Largest (treeSegments m t) m.len o := by
  let choice (k : ℕ) : Option (ℕ × ℕ) := if k = j then o else ((m.trees t).childs k).largestHeap
  have hself : choice j = o := if_pos rfl
  have hchoice : ∀ k ∈ {k | k ∈ slots (m.trees t).present},
      Maxima.Largest (slotSegments m t k) m.len (choice k) ∧
        value m.len (choice k) ≤ value m.len (choice j) := by
    intro k hk
    rw [hself]
    by_cases hkj : k = j
    · rw [hkj, hself]
      exact ⟨hslot, Nat.le_refl _⟩
    · rw [show choice k = _ from if_neg hkj]
      exact ⟨hbut.list ht k hk fun h => hkj h.2, hmax k hk hkj⟩
  rw [← hself]
  exact largest_iUnion (fun k hk => (hchoice k hk).1) hl.1 fun k hk => (hchoice k hk).2

/-- `SetLargestHeap` after a request that the list `l` served, while no other list of the tree has a
segment longer than all that are left there. -/
theorem CachesHold.recached (hm : Linked m) (hc : CachesHold m) (ht : ChildAt (m.trees 0) i t)
    (hl : ChildAt (m.trees t) j l)
    (htree : Inside (m.trees t).present)
    (hlist : Inside ((carved m i t j l x n).listHeads l).usedSlots)
    (hlongest : ∀ k l', k ≠ j → ChildAt (m.trees t) k l' → ∀ y ∈ slots (m.listHeads l').usedSlots,
      ∃ z ∈ slots (m.listHeads l).usedSlots, m.len (l', y) ≤ m.left (l, x) n (l, z)) (stack : ℕ) :
    ∃ m', setLargestHeap (carved m i t j l x n) (some l) stack = .ok m' ∧ CachesHold m' ∧
      OnlyCaches (carved m i t j l x n) m' ∧ ∀ u k, ¬(u = 0 ∧ k = i) → ¬(u = t ∧ k = j) →
        ((m'.trees u).childs k).largestHeap = ((m.trees u).childs k).largestHeap := by
  let m₁ := carved m i t j l x n
  have hlinks : SameLinks m m₁ := sameLinks_carved
  have hcaches : SameCaches m m₁ := sameCaches_of_childs fun _ => childs_carved
  have hm₁ := hm.congr hlinks
  have ht₁ : ChildAt (m₁.trees 0) i t := hlinks.childAt.mpr ht
  have hl₁ : ChildAt (m₁.trees t) j l := hlinks.childAt.mpr hl
  have hbut : CachesBut m₁ i t j := hc.but hm ht hl hlinks hcaches fun u hu =>
    listHeads_carved_of_ne hu
  have ht0 : t ≠ 0 := Nat.ne_of_gt (hm.tree ht).1
  have htree₁ : Inside (m₁.trees t).present := by
    rw [hlinks.present]
    exact htree
  obtain ⟨d, e, hset, hfound, hfrom⟩ := setLargestHeap_eq hm₁ ht₁ hl₁ hlist htree₁ stack
  have hslot : Maxima.Largest (slotSegments m₁ t j) m₁.len d.heap := by
    rw [slotSegments_eq hl₁]
    exact hfound.largest
  have he : e = { d with listHead := some l } := by
    rcases hfrom with he | ⟨k, hk, hkj, g, hg, hlt, -⟩
    · exact he
    · have hle := value_le_found hm ht hl hbut hlongest hfound hk hkj
      rw [hg, value_some, ← hfound.length] at hle
      exact absurd hlt (Nat.not_lt.mpr hle)
  have hitem := childs_recached m₁ i t j d e (u := 0) (k := i) ht0
  rw [if_pos ⟨rfl, rfl⟩, he] at hitem
  have hlistItem := childs_recached m₁ i t j d e (u := t) (k := j) ht0
  rw [if_neg fun h => ht0 h.1, if_pos ⟨rfl, rfl⟩] at hlistItem
  have honly := onlyCaches_recached m₁ i t j d e
  have hothers (u k : ℕ) (h : ¬(u = 0 ∧ k = i)) (h' : ¬(u = t ∧ k = j)) :
      ((Heap.recached m₁ i t j d e).trees u).childs k = (m₁.trees u).childs k := by
    rw [childs_recached m₁ i t j d e ht0, if_neg h, if_neg h']
  refine ⟨Heap.recached m₁ i t j d e, hset, ?_, honly, fun u k h h' => ?_⟩
  · refine hbut.complete hm₁ ht₁ honly (fun u k h h' => by rw [hothers u k h h']) ?_
      (fun h hh => ?_) ?_
    · rw [he, hitem]
      exact hbut.largest_tree ht₁ hl₁ hslot fun k hk hkj =>
        value_le_found hm ht hl hbut hlongest hfound hk hkj
    · rw [he, hitem] at hh ⊢
      obtain ⟨hd, -⟩ := hfound.largest.mem h hh
      exact ⟨congrArg some hd.symm, hfound.index h hh⟩
    · rw [hlistItem]
      exact hslot
  · rw [hothers u k h h', childs_carved]

end Front

section Calls

variable {r : Request} {address : ℕ} {s s' : Session} {call : Call}

/-- The segment that is cached for the list that the scans of `CreateHeap` return. -/
def HeapMemory.pickedCache (m : HeapMemory) : Option (ℕ × ℕ) := do
  let i ← pick m 0
  let t ← ((m.trees 0).childs i).child
  let j ← pick m t
  ((m.trees t).childs j).largestHeap

def HeapMemory.source (m : HeapMemory) (r : Request) : Option (ℕ × ℕ × ℕ) :=
  match m.find r with
  | .ok (some i) => do
    let t ← ((m.trees 0).childs i).child
    let h ← ((m.trees 0).childs i).largestHeap
    return (t, h)
  | _ => none

def HeapMemory.treeLists (m : HeapMemory) (t : ℕ) : List ℕ :=
  (slots (m.trees t).present).filterMap fun j => ((m.trees t).childs j).child

/-- The scans of `AllocatePoolEx` stay inside their arrays, and no other list of the tree has a
segment longer than all that are left in the list that serves the request. -/
structure Keeps (m : HeapMemory) (r : Request) : Prop where
  root : m.source r = none → ∀ i ∈ slots (m.trees 0).present, i < 64
  tree : ∀ p ∈ m.source r, ∀ j ∈ slots (m.trees p.1).present, j < 64
  list : ∀ p ∈ m.source r, ∀ y ∈ slots (m.listHeads p.2.1).usedSlots,
    y < 64 ∨ (y = p.2.2 ∧ m.left p.2 r.size p.2 = 0)
  longest : ∀ p ∈ m.source r, ∀ l ∈ m.treeLists p.1, l ≠ p.2.1 →
    ∀ y ∈ slots (m.listHeads l).usedSlots,
    ∃ z ∈ slots (m.listHeads p.2.1).usedSlots, m.len (l, y) ≤ m.left p.2 r.size (p.2.1, z)

def keepsCaches (s : Session) : Call → Prop
  | .pool r => r.numBytes = 0 ∨ Keeps s.memory r
  | .create _ heapLength => heapLength ≠ 0 ∨ s.memory.pickedCache ≠ none

/-- The caches are right, and no call has left an array or followed a null pointer. -/
structure CachesRight (s : Session) : Prop where
  caches : CachesHold s.memory
  inside : s.fault ≠ some .outside
  notNull : s.fault ≠ some .null

/-- The tree between two calls. -/
structure Kept (m : HeapMemory) : Prop where
  linked : Linked m
  unlocked : UnlockedBut m none
  blank : Blank m
  caches : CachesHold m

theorem Kept.pickTree (h : Kept m) (hp : Picked m 0 m' i) :
    Linked m' ∧ UnlockedBut m' (some i) ∧ Blank m' ∧ CachesHold m' := by
  refine ⟨(hp.tree h.linked).1, hp.unlocked h.linked h.unlocked, ?_⟩
  cases hp with
  | scan _ =>
    exact ⟨h.blank.congr (sameLinks_locked m 0 i) (sameCaches_locked m 0 i),
      h.caches.congr (sameLinks_locked m 0 i) (listHeads_locked m 0 i) (sameCaches_locked m 0 i)⟩
  | page _ hslots =>
    have hi := head_slots_not hslots
    exact ⟨h.blank.growTree h.linked hi, h.caches.growTree h.linked h.blank hi⟩

theorem Picked.kept (hp : Picked m t m' j) (hm : Linked m) (hb : Blank m) (hc : CachesHold m)
    (ht : ChildAt (m.trees 0) i t) : Blank m' ∧ CachesHold m' := by
  cases hp with
  | scan _ =>
    exact ⟨hb.congr (sameLinks_locked m t j) (sameCaches_locked m t j),
      hc.congr (sameLinks_locked m t j) (listHeads_locked m t j) (sameCaches_locked m t j)⟩
  | page _ hslots =>
    have hj := head_slots_not hslots
    exact ⟨hb.growList hm ht hj, hc.growList hm hb ht hj⟩

theorem pickedCache_eq {m₂ : HeapMemory} (hm : Linked m) (hp : Picked m 0 m₁ i)
    (ht : ChildAt (m₁.trees 0) i t) (hp' : Picked m₁ t m₂ j) (h : m.pickedCache ≠ none) :
    m.pickedCache = ((m₂.trees t).childs j).largestHeap := by
  have hm₁ := (hp.tree hm).1
  have ht0 : t ≠ 0 := Nat.ne_of_gt (hm₁.tree ht).1
  cases hp with
  | page hnone _ =>
    rw [HeapMemory.pickedCache, hnone] at h
    exact absurd rfl h
  | scan hpick =>
    have ht' : ChildAt (m.trees 0) i t := (sameLinks_locked m 0 i).childAt.mp ht
    have hcaches := sameCaches_locked m 0 i
    cases hp' with
    | page hnone _ =>
      rw [pick_locked ht0] at hnone
      rw [HeapMemory.pickedCache, hpick] at h
      simp [ht'.2, hnone] at h
    | scan hpick' =>
      rw [pick_locked ht0] at hpick'
      rw [(sameCaches_locked _ t j).largestHeap, hcaches.largestHeap, HeapMemory.pickedCache, hpick]
      simp [ht'.2, hpick']

theorem Kept.create (h : Kept m) (hn : n ≠ 0 ∨ m.pickedCache ≠ none) (address : ℕ) :
    (∃ m', createHeap m address n = .ok m' ∧ Kept m') ∨ createHeap m address n = .error .newTree ∨
      createHeap m address n = .error .sod := by
  have hcases := createHeap_cases h.linked h.unlocked address n
  generalize createHeap m address n = result at hcases ⊢
  cases hcases with
  | newTree _ => exact Or.inr (Or.inl rfl)
  | sod _ _ _ _ _ => exact Or.inr (Or.inr rfl)
  | @place m₁ m₂ i t j l hp ht hp' hl =>
    obtain ⟨hm₁, hu₁, hb₁, hc₁⟩ := h.pickTree hp
    obtain ⟨hm₂, hroot, -⟩ := hp'.list hm₁ ht
    obtain ⟨hb₂, hc₂⟩ := hp'.kept hm₁ hb₁ hc₁ ht
    have ht₂ : ChildAt (m₂.trees 0) i t := hroot.symm ▸ ht
    have hu₂ : UnlockedBut m₂ (some i) := fun k hk => by
      rw [hroot]
      exact hu₁ k hk
    cases hslots : slots fun y => ~~~(m₂.listHeads l).usedSlots y with
    | nil =>
      rw [placeHeap_nil hslots]
      exact Or.inr (Or.inr rfl)
    | cons x xs =>
      have hx := head_slots_not hslots
      have hcache : n ≠ 0 ∨ ((m₂.trees t).childs j).largestHeap ≠ none := by
        refine hn.imp_right fun hpicked => ?_
        rwa [← pickedCache_eq h.linked hp ht hp' hpicked]
      have honly := onlyCaches_cacheHeap (m := stored m₂ i t j l x address n) (i := i) (t := t)
        (j := j) (l := l)
        (x := x) n
      have hm' : Linked (stored m₂ i t j l x address n) := hm₂.congr sameLinks_stored
      rw [placeHeap_cons hslots]
      refine Or.inl ⟨_, rfl, hm'.congr honly.links, (unlocked_stored hu₂).congr honly.locks, ?_,
        hc₂.store hm₂ ht₂ hl hx hcache⟩
      refine (hb₂.congr sameLinks_stored sameCaches_stored).update hm'
        (sameLinks_stored.childAt.mpr ht₂)
        (sameLinks_stored.childAt.mpr hl) honly fun u k hne hne' => ?_
      rw [childs_cacheHeap_of_ne hne hne']

theorem inside_of_lt_64 {b : Bitmap 64} (h : ∀ i ∈ slots b, i < 64) : Inside b := inside_iff.mpr h

theorem Kept.front {g : ℕ × ℕ} (h : Kept m) (hfind : m.find r = .ok (some i))
    (hi : i ∈ slots (m.trees 0).present) (hg : ((m.trees 0).childs i).largestHeap = some g)
    (hk : Keeps m r) :
    ∃ m', (takeFront m i r.size r.stack).map Prod.fst = .ok m' ∧ Kept m' := by
  obtain ⟨t, hchild, hlargest⟩ := h.caches.tree i hi
  have ht : ChildAt (m.trees 0) i t := ⟨hi, hchild⟩
  obtain ⟨j, hl, hx⟩ := mem_treeSegments.mp (hlargest.mem g hg)
  obtain ⟨hhead, hindex⟩ := h.caches.place i hi g hg
  obtain ⟨l, x⟩ := g
  have hsource : (t, (l, x)) ∈ m.source r := by
    rw [HeapMemory.source, hfind]
    simp [hchild, hg]
  have htree := inside_of_lt_64 (hk.tree _ hsource)
  have hlist : Inside ((carved m i t j l x r.size).listHeads l).usedSlots := by
    refine inside_of_lt_64 fun y hy => ?_
    rw [usedSlots_carved] at hy
    split at hy
    · obtain ⟨hy, hne⟩ := mem_slots_clear.mp hy
      exact (hk.list _ hsource y hy).resolve_right fun hyx => hne hyx.1
    · rename_i hrest
      refine (hk.list _ hsource y hy).resolve_right fun hyx => hrest ?_
      rw [← hyx.2, HeapMemory.left, if_pos rfl]
  have hlongest (k l' : ℕ) (hkj : k ≠ j) (hl' : ChildAt (m.trees t) k l') :=
    hk.longest _ hsource l' (List.mem_filterMap.mpr ⟨k, hl'.1, hl'.2⟩) fun he =>
      hkj (h.linked.list_unique ht hl ht (he ▸ hl')).2
  obtain ⟨m', hset, hcaches, honly, hother⟩ :=
    h.caches.recached h.linked ht hl htree hlist hlongest r.stack
  refine ⟨m', ?_, ?_⟩
  · rw [takeFront_eq h.linked ht hl (lt_of_mem_slots hx) hg hhead hindex, hset]
    rfl
  · have hlinks :=
      (sameLinks_carved (i := i) (t := t) (j := j) (l := l) (x := x) (n := r.size)).trans
        honly.links
    have hlocks : SameLocks m (carved m i t j l x r.size) :=
      sameLocks_of_childs fun _ => childs_carved
    have hcarved : Blank (carved m i t j l x r.size) :=
      h.blank.congr sameLinks_carved (sameCaches_of_childs fun _ => childs_carved)
    refine ⟨h.linked.congr hlinks, (h.unlocked.congr hlocks).congr honly.locks, ?_, hcaches⟩
    refine hcarved.update (h.linked.congr sameLinks_carved) (sameLinks_carved.childAt.mpr ht)
      (sameLinks_carved.childAt.mpr hl) honly fun u k hne hne' => ?_
    rw [hother u k hne hne', childs_carved]

theorem Kept.pool (h : Kept m) (hbound : r.numBytes < 2 ^ 64) (hk : r.numBytes = 0 ∨ Keeps m r) :
    (∃ m', m.call (.pool r) = .ok m' ∧ Kept m') ∨ m.call (.pool r) = .error .newTree ∨
      m.call (.pool r) = .error .sod := by
  have hcases := pool_cases m hbound
  have hzero (hr : r.numBytes = 0) : m.call (.pool r) = .ok m := by
    rw [HeapMemory.call, allocatePoolEx, if_pos hr]
    rfl
  rcases hk with hr | hk
  · exact Or.inl ⟨m, hzero hr, h⟩
  · generalize m.call (.pool r) = result at hcases ⊢
    cases hcases with
    | same => exact Or.inl ⟨m, rfl, h⟩
    | outside hfind hout =>
      have hsource : m.source r = none := by rw [HeapMemory.source, hfind]
      exact absurd (inside_of_lt_64 (hk.root hsource)) hout
    | front _ hfind hi hg _ => exact Or.inl (h.front hfind hi hg hk)
    | fresh _ hpos => exact h.create (Or.inl hpos) _

theorem kept_initial : Kept HeapMemory.initial := by
  refine ⟨linked_initial, fun _ _ => rfl, blank_initial,
    ⟨fun i hi => ?_, fun i hi => ?_, fun ht => (not_childAt_initial ht).elim⟩⟩
  · rw [slots_initial] at hi
    cases hi
  · rw [slots_initial] at hi
    cases hi

/-- The caches after each call. -/
structure CacheInvariant (s : Session) : Prop where
  kept : Kept s.memory
  inside : s.fault ≠ some .outside
  notNull : s.fault ≠ some .null

theorem CacheInvariant.step (h : CacheInvariant s) (hg : keepsCaches s call)
    (hs : s.step call = some s') :
    CacheInvariant s' := by
  have hcall : (∃ m', s.memory.call call = .ok m' ∧ Kept m') ∨
    s.memory.call call = .error .newTree ∨
      s.memory.call call = .error .sod := by
    cases call with
    | pool r =>
      rw [Session.step] at hs
      split at hs
      · cases hs
      · rename_i htyped
        simp only [Call.typed, Bool.or_eq_true, Bool.not_eq_true', not_or, Bool.not_eq_false,
          Bool.and_eq_true, decide_eq_true_eq] at htyped
        exact h.kept.pool htyped.2.1 hg
    | create address heapLength => exact h.kept.create hg address
  rw [Session.step] at hs
  split at hs
  · cases hs
  · rcases hcall with ⟨m', hcall, hm'⟩ | hcall | hcall
    · rw [hcall] at hs
      cases hs
      exact ⟨hm', h.inside, h.notNull⟩
    · rw [hcall] at hs
      cases hs
      exact ⟨h.kept, by simp, by simp⟩
    · rw [hcall] at hs
      cases hs
      exact ⟨h.kept, by simp, by simp⟩

instance (m : HeapMemory) (r : Request) : Decidable (Keeps m r) :=
  decidable_of_iff ((m.source r = none → ∀ i ∈ slots (m.trees 0).present, i < 64) ∧
      (∀ p ∈ m.source r, ∀ j ∈ slots (m.trees p.1).present, j < 64) ∧
      (∀ p ∈ m.source r, ∀ y ∈ slots (m.listHeads p.2.1).usedSlots,
        y < 64 ∨ (y = p.2.2 ∧ m.left p.2 r.size p.2 = 0)) ∧
      ∀ p ∈ m.source r, ∀ l ∈ m.treeLists p.1, l ≠ p.2.1 → ∀ y ∈ slots (m.listHeads l).usedSlots,
        ∃ z ∈ slots (m.listHeads p.2.1).usedSlots, m.len (l, y) ≤ m.left p.2 r.size (p.2.1, z))
    ⟨fun h => ⟨h.1, h.2.1, h.2.2.1, h.2.2.2⟩, fun h => ⟨h.root, h.tree, h.list, h.longest⟩⟩

instance (s : Session) (c : Call) : Decidable (keepsCaches s c) :=
  match c with
  | .pool r => inferInstanceAs (Decidable (r.numBytes = 0 ∨ Keeps s.memory r))
  | .create _ heapLength =>
      inferInstanceAs (Decidable (heapLength ≠ 0 ∨ s.memory.pickedCache ≠ none))

/-- Two segments, one that is carved, one that is used up, and a remainder of new pages. -/
def sampleCalls : List Call :=
  [.create 0x1000 64, .create 0x2000 48, .pool ⟨20, 0, true, 0⟩, .pool ⟨48, 0, true, 0⟩,
    .pool ⟨4000, 0x3000, true, 0⟩]

/-- A full list of segments of 32 bytes, and one of 64 bytes in the next list. -/
def twoLists : List Call := List.replicate 128 (.create 0x1000 32) ++ [.create 0x2000 64]

end Calls

end DevOs.Heap
