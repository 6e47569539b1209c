import DevOs.Heap.Recache

/-!
# The counts and the marks of the tree

The counts of used, full and present slots are the numbers of set bits, and a slot is marked as full
exactly when its page is. A new page, a segment stored in a free slot and a slot that is freed keep
this, but for a tree that gets full: `CreateHeap` marks the slot of the root that has the index of
the list, and not that of the tree.
-/

namespace DevOs.Heap

open Bitmaps

variable {m m' m₁ : HeapMemory} {t u i j k c l x n : ℕ}

section Slots

variable {b : Bitmap 64}

theorem slots_set_length (hi : i < 128) (hnot : i ∉ slots b) :
    (slots (Bitmaps.set b i)).length = (slots b).length + 1 := by
  have hclear : bit b i = false := Bool.eq_false_iff.mpr fun h => hnot (mem_slots.mpr ⟨hi, h⟩)
  have hperm : (slots (Bitmaps.set b i)).Perm (i :: slots b) := places_set hi hclear
  rw [hperm.length_eq, List.length_cons]

theorem slots_clear_length (hi : i ∈ slots b) :
    (slots b).length = (slots (Bitmaps.clear b i)).length + 1 := by
  have hperm : (slots b).Perm (i :: slots (Bitmaps.clear b i)) := places_clear hi
  rw [hperm.length_eq, List.length_cons]

theorem slots_length_lt (hi : i < 128) (hnot : i ∉ slots b) : (slots b).length < 128 := by
  have hset := slots_set_length hi hnot
  have hle := slots_length_le (Bitmaps.set b i)
  omega

theorem mem_slots_of_length (h : (slots b).length = 128) (hi : i < 128) : i ∈ slots b := by
  by_contra hnot
  have := slots_length_lt hi hnot
  omega

theorem mem_slots_of_sub {f : Bitmap 64} (hsub : ∀ i ∈ slots f, i ∈ slots b)
    (hlen : (slots f).length = (slots b).length) (hi : i ∈ slots b) : i ∈ slots f := by
  have hnodup : (slots f).Nodup := places_nodup numSlotGroups f
  have hperm := (List.subperm_of_subset hnodup hsub).perm_of_length_le hlen.ge
  exact hperm.mem_iff.mpr hi

theorem slots_not_eq_nil : (slots fun y => ~~~b y) = [] ↔ (slots b).length = 128 := by
  constructor
  · intro h
    by_contra hne
    have hlt : (slots b).length < numSlotGroups * 64 :=
      Nat.lt_of_le_of_ne (slots_length_le b) hne
    exact places_not_ne_nil hlt h
  · intro h
    rw [List.eq_nil_iff_forall_not_mem]
    intro y hy
    obtain ⟨hlt, hnot⟩ := mem_slots_not.mp hy
    exact hnot (mem_slots_of_length h hlt)

end Slots

/-- The counts of a tree are the numbers of set bits, and only present slots are marked as full. -/
structure Counts (t : FreeMemoryTree) : Prop where
  full : t.fullSlotCount = (slots t.fullSlots).length
  present : t.presentSlotCount = (slots t.present).length
  sub : ∀ i ∈ slots t.fullSlots, i ∈ slots t.present

/-- The counts and the marks of all pages. -/
structure Occupied (m : HeapMemory) : Prop where
  used : ∀ {i t j l}, ChildAt (m.trees 0) i t → ChildAt (m.trees t) j l →
    (m.listHeads l).numUsedSlots = (slots (m.listHeads l).usedSlots).length
  listFull : ∀ {i t j l}, ChildAt (m.trees 0) i t → ChildAt (m.trees t) j l →
    (j ∈ slots (m.trees t).fullSlots ↔ (m.listHeads l).numUsedSlots = maxSlots)
  treeFull : ∀ {i t}, ChildAt (m.trees 0) i t →
    (i ∈ slots (m.trees 0).fullSlots ↔ (m.trees t).fullSlotCount = maxSlots)
  root : Counts (m.trees 0)
  tree : ∀ {i t}, ChildAt (m.trees 0) i t → Counts (m.trees t)

theorem Counts.congr {t t' : FreeMemoryTree} (h : Counts t) (hfull : t'.fullSlots = t.fullSlots)
    (hcount : t'.fullSlotCount = t.fullSlotCount) (hpresent : t'.present = t.present)
    (hpcount : t'.presentSlotCount = t.presentSlotCount) : Counts t' := by
  refine ⟨?_, ?_, fun i hi => ?_⟩
  · rw [hfull, hcount]
    exact h.full
  · rw [hpresent, hpcount]
    exact h.present
  · rw [hpresent]
    rw [hfull] at hi
    exact h.sub i hi

theorem Occupied.congr (h : Occupied m) (hlinks : SameLinks m m') (hcounts : SameCounts m m')
    (hused : ∀ l, (m'.listHeads l).usedSlots = (m.listHeads l).usedSlots)
    (hnum : ∀ l, (m'.listHeads l).numUsedSlots = (m.listHeads l).numUsedSlots) : Occupied m' := by
  have hnode (t : ℕ) (hc : Counts (m.trees t)) : Counts (m'.trees t) :=
    hc.congr (hcounts.fullSlots t) (hcounts.fullCount t) (hlinks.present t) (hcounts.presentCount t)
  refine ⟨fun ht hl => ?_, fun ht hl => ?_, fun ht => ?_, hnode 0 h.root, fun ht => ?_⟩
  · rw [hnum, hused]
    exact h.used (hlinks.childAt.mp ht) (hlinks.childAt.mp hl)
  · rw [hnum, hcounts.fullSlots]
    exact h.listFull (hlinks.childAt.mp ht) (hlinks.childAt.mp hl)
  · rw [hcounts.fullSlots, hcounts.fullCount]
    exact h.treeFull (hlinks.childAt.mp ht)
  · exact hnode _ (h.tree (hlinks.childAt.mp ht))

section Grow

theorem counts_page :
    Counts { FreeMemoryTree.zero with parentItemIndex := i, parent := some t } := by
  have hnil : slots FreeMemoryTree.zero.fullSlots = [] := by decide
  have hnil' : slots FreeMemoryTree.zero.present = [] := by decide
  refine ⟨(congrArg List.length hnil).symm, (congrArg List.length hnil').symm, fun k hk => ?_⟩
  change k ∈ slots FreeMemoryTree.zero.fullSlots at hk
  rw [hnil] at hk
  cases hk

theorem Counts.grow (h : Counts (m.trees t)) (ht : t ≠ m.brk)
    (hi : i ∈ slots fun x => ~~~(m.trees t).present x) : Counts ((Heap.grow m t i).trees t) := by
  obtain ⟨hlt, hnot⟩ := mem_slots_not.mp hi
  have hlen := slots_length_lt hlt hnot
  rw [trees_grow_self i ht]
  refine ⟨h.full, ?_, fun k hk => (mem_slots_set hlt).mpr (Or.inr (h.sub k hk))⟩
  change ((m.trees t).presentSlotCount + 1) % 256 =
    (slots (Bitmaps.set (m.trees t).present i)).length
  rw [slots_set_length hlt hnot, h.present]
  omega

theorem fullSlots_grow (ht : t ≠ m.brk) :
    ((grow m t i).trees t).fullSlots = (m.trees t).fullSlots := by
  rw [trees_grow_self i ht]
  rfl

theorem fullSlotCount_grow (ht : t ≠ m.brk) :
    ((grow m t i).trees t).fullSlotCount = (m.trees t).fullSlotCount := by
  rw [trees_grow_self i ht]
  rfl

theorem Occupied.growTree (h : Occupied m) (hm : Linked m)
    (hi : i ∈ slots fun x => ~~~(m.trees 0).present x) : Occupied (grow m 0 i) := by
  have h0 : 0 ≠ m.brk := Nat.ne_of_lt hm.pos
  have hold {k t : ℕ} (ht : ChildAt (m.trees 0) k t) : (grow m 0 i).trees t = m.trees t :=
    trees_grow_of_ne i (Nat.ne_of_lt (hm.tree ht).2.1) (Nat.ne_of_gt (hm.tree ht).1)
  have hlist {k t j l : ℕ} (ht : ChildAt (m.trees 0) k t) (hl : ChildAt (m.trees t) j l) :
      (grow m 0 i).listHeads l = m.listHeads l :=
      listHeads_grow_of_ne i (Nat.ne_of_lt (hm.list ht hl).1)
  refine ⟨fun ht hl => ?_, fun ht hl => ?_, fun ht => ?_, h.root.grow h0 hi, fun ht => ?_⟩
  · rcases (childAt_grow h0 hi).mp ht with ht | ⟨rfl, rfl⟩
    · rw [hold ht] at hl
      rw [hlist ht hl]
      exact h.used ht hl
    · exact absurd hl not_childAt_page
  · rcases (childAt_grow h0 hi).mp ht with ht | ⟨rfl, rfl⟩
    · rw [hold ht] at hl ⊢
      rw [hlist ht hl]
      exact h.listFull ht hl
    · exact absurd hl not_childAt_page
  · rw [fullSlots_grow h0]
    rcases (childAt_grow h0 hi).mp ht with ht | ⟨rfl, rfl⟩
    · rw [hold ht]
      exact h.treeFull ht
    · rw [trees_grow_page]
      refine ⟨fun hfull => absurd (h.root.sub _ hfull) (mem_slots_not.mp hi).2, fun hfull => ?_⟩
      cases hfull
  · rcases (childAt_grow h0 hi).mp ht with ht | ⟨rfl, rfl⟩
    · rw [hold ht]
      exact h.tree ht
    · rw [trees_grow_page]
      exact counts_page

theorem Occupied.growList (h : Occupied m) (hm : Linked m) (ht : ChildAt (m.trees 0) i t)
    (hj : j ∈ slots fun x => ~~~(m.trees t).present x) : Occupied (grow m t j) := by
  obtain ⟨hpos, hlt, -⟩ := hm.tree ht
  have hne := Nat.ne_of_lt hlt
  have hroot : (grow m t j).trees 0 = m.trees 0 :=
    trees_grow_of_ne j (Nat.ne_of_lt hm.pos) (Nat.ne_of_lt hpos)
  have hold {k u : ℕ} (hu : ChildAt (m.trees 0) k u) (hut : u ≠ t) : (grow m t j).trees u =
      m.trees u :=
    trees_grow_of_ne j (Nat.ne_of_lt (hm.tree hu).2.1) hut
  have hlist {k u a l : ℕ} (hu : ChildAt (m.trees 0) k u) (hl : ChildAt (m.trees u) a l) :
      (grow m t j).listHeads l = m.listHeads l :=
      listHeads_grow_of_ne j (Nat.ne_of_lt (hm.list hu hl).1)
  have hchild {k u a l : ℕ} (hu : ChildAt (m.trees 0) k u)
    (hl : ChildAt ((grow m t j).trees u) a l) :
      ChildAt (m.trees u) a l ∨ (u = t ∧ a = j ∧ l = m.brk) := by
    by_cases hut : u = t
    · subst hut
      exact ((childAt_grow hne hj).mp hl).imp_right fun h => ⟨rfl, h⟩
    · rw [hold hu hut] at hl
      exact Or.inl hl
  have hfull {k u : ℕ} (hu : ChildAt (m.trees 0) k u) :
      ((grow m t j).trees u).fullSlots = (m.trees u).fullSlots ∧
        ((grow m t j).trees u).fullSlotCount = (m.trees u).fullSlotCount := by
    by_cases hut : u = t
    · rw [hut]
      exact ⟨fullSlots_grow hne, fullSlotCount_grow hne⟩
    · rw [hold hu hut]
      exact ⟨rfl, rfl⟩
  refine ⟨fun {k u a l} hu hl => ?_, fun {k u a l} hu hl => ?_, fun {k u} hu => ?_, ?_,
    fun {k u} hu => ?_⟩
  · rw [hroot] at hu
    rcases hchild hu hl with hl | ⟨rfl, rfl, rfl⟩
    · rw [hlist hu hl]
      exact h.used hu hl
    · rw [listHeads_grow_page]
      have hnil : slots SegmentListHead.zero.usedSlots = [] := by decide
      exact (congrArg List.length hnil).symm
  · rw [hroot] at hu
    rw [(hfull hu).1]
    rcases hchild hu hl with hl | ⟨rfl, rfl, rfl⟩
    · rw [hlist hu hl]
      exact h.listFull hu hl
    · rw [listHeads_grow_page]
      refine ⟨fun hmark => absurd ((h.tree hu).sub _ hmark) (mem_slots_not.mp hj).2,
        fun hfull => ?_⟩
      cases hfull
  · rw [hroot] at hu ⊢
    rw [(hfull hu).2]
    exact h.treeFull hu
  · rw [hroot]
    exact h.root
  · rw [hroot] at hu
    by_cases hut : u = t
    · subst hut
      exact (h.tree hu).grow hne hj
    · rw [hold hu hut]
      exact h.tree hu

end Grow

section Mark

theorem trees_mark (m : HeapMemory) (t j u : ℕ) :
    (mark m t j).trees u = if u = t then { m.trees t with
    fullSlotCount := ((m.trees t).fullSlotCount + 1) % 256
    fullSlots := Bitmaps.set (m.trees t).fullSlots j } else m.trees u :=
  trees_setTree ..

theorem trees_unmark (m : HeapMemory) (t j u : ℕ) :
    (unmark m t j).trees u = if u = t then { m.trees t with
    fullSlots := Bitmaps.clear (m.trees t).fullSlots j
    fullSlotCount := if bit (m.trees t).fullSlots j then ((m.trees t).fullSlotCount + 255) % 256
      else (m.trees t).fullSlotCount } else m.trees u :=
  trees_setTree ..

theorem Counts.mark (h : Counts (m.trees t)) (hj : j ∈ slots (m.trees t).present)
    (hnot : j ∉ slots (m.trees t).fullSlots) :
    Counts ((Heap.mark m t j).trees t) ∧
      ((Heap.mark m t j).trees t).fullSlotCount = (m.trees t).fullSlotCount + 1 := by
  have hlt := slots_length_lt (lt_of_mem_slots hj) hnot
  have hcount : ((m.trees t).fullSlotCount + 1) % 256 = (m.trees t).fullSlotCount + 1 := by
    rw [h.full]
    omega
  rw [trees_mark, if_pos rfl]
  refine ⟨⟨?_, h.present, fun k hk => ?_⟩, hcount⟩
  · exact (hcount.trans (congrArg (· + 1) h.full)).trans
      (slots_set_length (lt_of_mem_slots hj) hnot).symm
  · rcases (mem_slots_set (lt_of_mem_slots hj)).mp hk with rfl | hk
    · exact hj
    · exact h.sub k hk

theorem Counts.unmark (h : Counts (m.trees t)) (hj : j < 128) :
    Counts ((Heap.unmark m t j).trees t) ∧
    (j ∈ slots (m.trees t).fullSlots →
      ((Heap.unmark m t j).trees t).fullSlotCount + 1 = (m.trees t).fullSlotCount) := by
  rw [trees_unmark, if_pos rfl]
  by_cases hbit : bit (m.trees t).fullSlots j = true
  · have hmem : j ∈ slots (m.trees t).fullSlots := mem_slots.mpr ⟨hj, hbit⟩
    have hlen := slots_clear_length hmem
    have hle := slots_length_le (m.trees t).fullSlots
    rw [if_pos hbit]
    refine ⟨⟨?_, h.present, fun k hk => h.sub k (mem_slots_clear.mp hk).1⟩, fun _ => ?_⟩
    · change ((m.trees t).fullSlotCount + 255) % 256 =
        (slots (Bitmaps.clear (m.trees t).fullSlots j)).length
      rw [h.full]
      omega
    · change ((m.trees t).fullSlotCount + 255) % 256 + 1 = (m.trees t).fullSlotCount
      rw [h.full]
      omega
  · rw [if_neg hbit, clear_of_not (Bool.eq_false_iff.mpr hbit)]
    exact ⟨h, fun hmem => absurd (mem_slots.mp hmem).2 hbit⟩

end Mark

/-- The marks after the slot `j` of the tree `t` got full, or did not. -/
structure Marks (m m' : HeapMemory) (t j : ℕ) (full : Prop) : Prop where
  root : Counts (m'.trees 0)
  tree : ∀ {i t'}, ChildAt (m.trees 0) i t' → Counts (m'.trees t')
  treeFull : ∀ {i t'}, ChildAt (m.trees 0) i t' →
    (i ∈ slots (m'.trees 0).fullSlots ↔ (m'.trees t').fullSlotCount = maxSlots)
  listFull : ∀ {i t' k}, ChildAt (m.trees 0) i t' →
    (k ∈ slots (m'.trees t').fullSlots ↔ k ∈ slots (m.trees t').fullSlots ∨ (t' = t ∧ k = j ∧ full))

theorem Occupied.trackFull (h : Occupied m) (hm : Linked m) (ht : ChildAt (m.trees 0) i t)
    (hj : j ∈ slots (m.trees t).present) (hnot : j ∉ slots (m.trees t).fullSlots)
    (hindex : (m.trees t).fullSlotCount = 127 → k = maxSlots → j = i) :
    Marks m (Heap.trackFull m t j k) t j (k = maxSlots) := by
  have ht0 : t ≠ 0 := Nat.ne_of_gt (hm.tree ht).1
  by_cases hk : k = maxSlots
  · obtain ⟨hcounts, hcount⟩ := (h.tree ht).mark hj hnot
    have hold {u : ℕ} (hu : u ≠ t) : (mark m t j).trees u = m.trees u := by
      rw [trees_mark, if_neg hu]
    have hroot : (mark m t j).trees 0 = m.trees 0 := hold ht0.symm
    have hinot : i ∉ slots (m.trees 0).fullSlots := fun hi => by
      have hfull := (h.treeFull ht).mp hi
      have hlt := slots_length_lt (lt_of_mem_slots hj) hnot
      rw [(h.tree ht).full] at hfull
      exact absurd hfull (Nat.ne_of_lt hlt)
    have htree {i' t' : ℕ} (ht' : ChildAt (m.trees 0) i' t') : Counts ((mark m t j).trees t') := by
      by_cases he : t' = t
      · rw [he]
        exact hcounts
      · rw [hold he]
        exact h.tree ht'
    have hlist {i' t' a : ℕ} (ht' : ChildAt (m.trees 0) i' t') :
      a ∈ slots ((mark m t j).trees t').fullSlots ↔
        a ∈ slots (m.trees t').fullSlots ∨ (t' = t ∧ a = j ∧ k = maxSlots) := by
      by_cases he : t' = t
      · rw [trees_mark, if_pos he, he]
        refine (mem_slots_set (lt_of_mem_slots hj)).trans ?_
        simp [hk, or_comm]
      · rw [hold he]
        simp [he]
    rw [hk, trackFull_full]
    by_cases hfull : ((mark m t j).trees t).fullSlotCount = maxSlots
    · have hji : j = i := hindex (by rw [hcount] at hfull; exact Nat.succ.inj hfull) hk
      have hinot' : j ∉ slots ((mark m t j).trees 0).fullSlots := by
        rw [hroot, hji]
        exact hinot
      have hpresent : j ∈ slots ((mark m t j).trees 0).present := by
        rw [hroot, hji]
        exact ht.1
      have hup {u : ℕ} (hu : u ≠ 0) : (mark (mark m t j) 0 j).trees u = (mark m t j).trees u := by
        rw [trees_mark, if_neg hu]
      have hpos {i' t' : ℕ} (ht' : ChildAt (m.trees 0) i' t') : t' ≠ 0 :=
        Nat.ne_of_gt (hm.tree ht').1
      rw [if_pos hfull]
      refine ⟨(Counts.mark (hroot.symm ▸ h.root) hpresent hinot').1, fun ht' => ?_,
        fun {i' t'} ht' => ?_, fun ht' => ?_⟩
      · rw [hup (hpos ht')]
        exact htree ht'
      · rw [hup (hpos ht'), trees_mark, if_pos rfl, hroot]
        refine (mem_slots_set (lt_of_mem_slots hj)).trans ?_
        by_cases he : t' = t
        · subst he
          rw [hm.tree_ne ht ht']
          exact iff_of_true (Or.inl hji.symm) hfull
        · have hne : i' ≠ j := by
            rintro rfl
            rw [hji] at ht'
            exact he (ht'.child_eq ht)
          rw [hold he]
          exact (or_iff_right hne).trans (h.treeFull ht')
      · rw [hup (hpos ht'), hlist ht', hk]
    · rw [if_neg hfull]
      refine ⟨hroot.symm ▸ h.root, htree, fun {i' t'} ht' => ?_, fun ht' => ?_⟩
      · rw [hroot]
        by_cases he : t' = t
        · subst he
          rw [hm.tree_ne ht ht']
          exact iff_of_false hinot hfull
        · rw [hold he]
          exact h.treeFull ht'
      · rw [hlist ht', hk]
  · rw [trackFull_of_ne hk]
    refine ⟨h.root, h.tree, h.treeFull, fun _ => ?_⟩
    simp [hk]

section Store

variable {address : ℕ}

/-- A segment is stored in a free slot, where a tree that gets full is marked at its own index. -/
theorem Occupied.store (h : Occupied m) (hm : Linked m) (ht : ChildAt (m.trees 0) i t)
    (hl : ChildAt (m.trees t) j l) (hx : x ∈ slots fun y => ~~~(m.listHeads l).usedSlots y)
    (hindex : (m.trees t).fullSlotCount = 127 → (m.listHeads l).numUsedSlots = 127 → j = i) :
    Occupied (stored m i t j l x address n) := by
  obtain ⟨hx128, hnot⟩ := mem_slots_not.mp hx
  have hlen := slots_length_lt hx128 hnot
  have hnum := h.used ht hl
  have hsucc : ((m.listHeads l).numUsedSlots + 1) % 256 = (m.listHeads l).numUsedSlots + 1 := by
    omega
  have hjnot : j ∉ slots (m.trees t).fullSlots := fun hj => by
    have := (h.listFull ht hl).mp hj
    rw [hnum] at this
    exact absurd this (Nat.ne_of_lt hlen)
  have hmarks :=
      h.trackFull (k := ((m.listHeads l).numUsedSlots + 1) % 256) hm ht hl.1 hjnot fun hc hk =>
    hindex hc (by rw [hsucc] at hk; exact Nat.succ.inj hk)
  have hlinks : SameLinks m (stored m i t j l x address n) := sameLinks_stored
  have hcounts : SameCounts (Heap.trackFull m t j (((m.listHeads l).numUsedSlots + 1) % 256))
      (stored m i t j l x address n) := sameCounts_stored
  have htrack : SameLinks m (Heap.trackFull m t j (((m.listHeads l).numUsedSlots + 1) % 256)) :=
    sameLinks_trackFull
  have hnode {u : ℕ}
    (hc : Counts ((Heap.trackFull m t j (((m.listHeads l).numUsedSlots + 1) % 256)).trees u)) :
      Counts ((stored m i t j l x address n).trees u) :=
    hc.congr (hcounts.fullSlots u) (hcounts.fullCount u)
      ((hlinks.present u).trans (htrack.present u).symm)
      (hcounts.presentCount u)
  refine ⟨fun {i' t' j' l'} ht' hl' => ?_, fun {i' t' j' l'} ht' hl' => ?_, fun ht' => ?_,
    hnode hmarks.root, fun ht' => hnode (hmarks.tree (hlinks.childAt.mp ht'))⟩
  · rw [listHeads_stored]
    split
    · exact hsucc.trans ((congrArg (· + 1) hnum).trans (slots_set_length hx128 hnot).symm)
    · exact h.used (hlinks.childAt.mp ht') (hlinks.childAt.mp hl')
  · have htm : ChildAt (m.trees 0) i' t' := hlinks.childAt.mp ht'
    have hlm : ChildAt (m.trees t') j' l' := hlinks.childAt.mp hl'
    rw [hcounts.fullSlots, hmarks.listFull htm, listHeads_stored]
    by_cases he : l' = l
    · obtain ⟨het, hej⟩ := hm.list_unique ht hl htm (he ▸ hlm)
      rw [if_pos he, het, hej]
      simp only [hjnot, false_or, true_and]
    · have hne : ¬(t' = t ∧ j' = j ∧ ((m.listHeads l).numUsedSlots + 1) % 256 = maxSlots) := by
        rintro ⟨het, hej, -⟩
        rw [het, hej] at hlm
        exact he (hlm.child_eq hl)
      rw [if_neg he, or_iff_left hne]
      exact h.listFull htm hlm
  · rw [hcounts.fullSlots, hcounts.fullCount]
    exact hmarks.treeFull (hlinks.childAt.mp ht')

end Store

section Release

theorem listHeads_slotFreed : (slotFreed m l x).listHeads u = if u = l then { m.listHeads l with
    usedSlots := Bitmaps.clear (m.listHeads l).usedSlots x
    numUsedSlots := ((m.listHeads l).numUsedSlots + 255) % 256 } else m.listHeads u :=
  listHeads_setListHead ..

theorem trees_released (hu : u ≠ 0) :
    (Heap.released m i t j l x).trees u = (unmark m t j).trees u := by
  rw [Heap.released]
  split
  · rw [trees_unmark, if_neg hu]
    rfl
  · rfl

theorem trees_unmark_of_ne (hu : u ≠ t) : (unmark m t j).trees u = m.trees u := by
  rw [trees_unmark, if_neg hu]

theorem Occupied.released_numUsedSlots (h : Occupied m) (ht : ChildAt (m.trees 0) i t)
    (hl : ChildAt (m.trees t) j l) (hx : x ∈ slots (m.listHeads l).usedSlots) :
    ((m.listHeads l).numUsedSlots + 255) % 256 + 1 = (m.listHeads l).numUsedSlots := by
  have hlen := slots_clear_length hx
  have hle := slots_length_le (m.listHeads l).usedSlots
  have hnum := h.used ht hl
  omega

theorem Occupied.released_used (h : Occupied m) (ht : ChildAt (m.trees 0) i t)
    (hl : ChildAt (m.trees t) j l) (hx : x ∈ slots (m.listHeads l).usedSlots)
    {i' t' j' l' : ℕ} (ht' : ChildAt (m.trees 0) i' t') (hl' : ChildAt (m.trees t') j' l') :
    ((Heap.released m i t j l x).listHeads l').numUsedSlots =
      (slots ((Heap.released m i t j l x).listHeads l').usedSlots).length := by
  have hlen := slots_clear_length hx
  have hnum := h.used ht hl
  have hpred := h.released_numUsedSlots ht hl hx
  rw [listHeads_released, listHeads_slotFreed]
  split
  · change ((m.listHeads l).numUsedSlots + 255) % 256 =
      (slots (Bitmaps.clear (m.listHeads l).usedSlots x)).length
    omega
  · exact h.used ht' hl'

theorem Occupied.released_listFull (h : Occupied m) (hm : Linked m)
    (ht : ChildAt (m.trees 0) i t) (hl : ChildAt (m.trees t) j l)
    (hx : x ∈ slots (m.listHeads l).usedSlots) {i' t' j' l' : ℕ}
    (ht' : ChildAt (m.trees 0) i' t') (hl' : ChildAt (m.trees t') j' l') :
    j' ∈ slots ((unmark m t j).trees t').fullSlots ↔
      ((Heap.released m i t j l x).listHeads l').numUsedSlots = maxSlots := by
  have hle := slots_length_le (m.listHeads l).usedSlots
  have hnum := h.used ht hl
  have hpred := h.released_numUsedSlots ht hl hx
  rw [listHeads_released, listHeads_slotFreed]
  by_cases he : l' = l
  · obtain ⟨het, hej⟩ := hm.list_unique ht hl ht' (he ▸ hl')
    rw [if_pos he, het, hej, trees_unmark, if_pos rfl]
    refine iff_of_false (fun hmem => (mem_slots_clear.mp hmem).2 rfl) fun hfull => ?_
    change ((m.listHeads l).numUsedSlots + 255) % 256 = 128 at hfull
    omega
  · rw [if_neg he]
    refine Iff.trans ?_ (h.listFull ht' hl')
    by_cases het : t' = t
    · have hne : j' ≠ j := by
        rintro rfl
        rw [het] at hl'
        exact he (hl'.child_eq hl)
      rw [trees_unmark, if_pos het, het]
      exact mem_slots_clear.trans (and_iff_left hne)
    · rw [trees_unmark_of_ne het]

/-- The mark of the tree in the root goes with the last mark of a list in the tree. -/
theorem Occupied.released_root (h : Occupied m) (hm : Linked m) (ht : ChildAt (m.trees 0) i t)
    (hl : ChildAt (m.trees t) j l) : Counts ((Heap.released m i t j l x).trees 0) ∧
    ∀ {i' t'}, ChildAt (m.trees 0) i' t' →
      (i' ∈ slots ((Heap.released m i t j l x).trees 0).fullSlots ↔
        ((unmark m t j).trees t').fullSlotCount = maxSlots) := by
  have ht0 : t ≠ 0 := Nat.ne_of_gt (hm.tree ht).1
  have hroot : ((unmark (slotFreed m l x) t j).trees 0) = m.trees 0 := trees_unmark_of_ne ht0.symm
  obtain ⟨-, hcount⟩ := (h.tree ht).unmark (lt_of_mem_slots hl.1)
  rw [Heap.released]
  by_cases hbit : bit (m.trees t).fullSlots j = true
  · have hdrop := hcount (mem_slots.mpr ⟨lt_of_mem_slots hl.1, hbit⟩)
    have hmax := slots_length_le (m.trees t).fullSlots
    rw [← (h.tree ht).full] at hmax
    rw [if_pos hbit]
    refine ⟨(Counts.unmark (hroot.symm ▸ h.root) (lt_of_mem_slots ht.1)).1, fun {i' t'} ht' => ?_⟩
    rw [trees_unmark, if_pos rfl, hroot]
    refine mem_slots_clear.trans ?_
    by_cases he : t' = t
    · rw [he] at ht' ⊢
      rw [hm.tree_ne ht ht']
      refine iff_of_false (fun hmem => hmem.2 rfl) fun hfull => ?_
      rw [hfull] at hdrop
      change 128 + 1 = _ at hdrop
      omega
    · have hne : i' ≠ i := by
        rintro rfl
        exact he (ht'.child_eq ht)
      rw [trees_unmark_of_ne he]
      exact (and_iff_left hne).trans (h.treeFull ht')
  · rw [if_neg hbit, hroot]
    refine ⟨h.root, fun {i' t'} ht' => ?_⟩
    by_cases he : t' = t
    · rw [he] at ht' ⊢
      rw [trees_unmark, if_pos rfl, if_neg hbit]
      exact h.treeFull ht'
    · rw [trees_unmark_of_ne he]
      exact h.treeFull ht'

theorem Occupied.released (h : Occupied m) (hm : Linked m) (ht : ChildAt (m.trees 0) i t)
    (hl : ChildAt (m.trees t) j l) (hx : x ∈ slots (m.listHeads l).usedSlots) :
    Occupied (Heap.released m i t j l x) := by
  have hlinks : SameLinks m (Heap.released m i t j l x) := sameLinks_released
  have htrees {i' t' : ℕ} (ht' : ChildAt (m.trees 0) i' t') :
      (Heap.released m i t j l x).trees t' = (unmark m t j).trees t' :=
    trees_released (Nat.ne_of_gt (hm.tree ht').1)
  obtain ⟨hroot, htreeFull⟩ := h.released_root (x := x) hm ht hl
  refine ⟨fun ht' hl' => ?_, fun ht' hl' => ?_, fun ht' => ?_, hroot, fun {i' t'} ht' => ?_⟩
  · exact h.released_used ht hl hx (hlinks.childAt.mp ht') (hlinks.childAt.mp hl')
  · have ht₀ := hlinks.childAt.mp ht'
    rw [htrees ht₀]
    exact h.released_listFull hm ht hl hx ht₀ (hlinks.childAt.mp hl')
  · have ht₀ := hlinks.childAt.mp ht'
    rw [htrees ht₀]
    exact htreeFull ht₀
  · have ht₀ := hlinks.childAt.mp ht'
    rw [htrees ht₀]
    by_cases he : t' = t
    · rw [he]
      exact ((h.tree ht).unmark (lt_of_mem_slots hl.1)).1
    · rw [trees_unmark_of_ne he]
      exact h.tree ht₀

theorem Occupied.carved (h : Occupied m) (hm : Linked m) (ht : ChildAt (m.trees 0) i t)
    (hl : ChildAt (m.trees t) j l) (hx : x ∈ slots (m.listHeads l).usedSlots) :
    Occupied (Heap.carved m i t j l x n) := by
  have hlinks : SameLinks m (taken m (l, x) n) := sameLinks_taken _
  have hused (u : ℕ) : ((taken m (l, x) n).listHeads u).usedSlots = (m.listHeads u).usedSlots := by
    rw [listHeads_taken]
    split
    · rename_i hu
      rw [hu]
    · rfl
  have hnum (u : ℕ) : ((taken m (l, x) n).listHeads u).numUsedSlots =
      (m.listHeads u).numUsedSlots := by
    rw [listHeads_taken]
    split
    · rename_i hu
      rw [hu]
    · rfl
  have htaken : Occupied (taken m (l, x) n) :=
    h.congr hlinks ⟨fun _ => rfl, fun _ => rfl, fun _ => rfl⟩ hused hnum
  rw [Heap.carved]
  split
  · exact htaken.released (hm.congr hlinks) (hlinks.childAt.mpr ht) (hlinks.childAt.mpr hl)
      ((hused l).symm ▸ hx)
  · exact htaken

end Release

section Pointing

/-- Where the root names a list for a cached segment, it names the right one, and a tree names
none. -/
structure Pointing (m : HeapMemory) : Prop where
  root : ∀ {i t h l}, ChildAt (m.trees 0) i t → ((m.trees 0).childs i).largestHeap = some h →
    ((m.trees 0).childs i).listHeadLargestHeap = some l →
      h.1 = l ∧ ((m.trees 0).childs i).indexLargestHeap = h.2 ∧ (∃ j, ChildAt (m.trees t) j l) ∧
        h.2 ∈ slots (m.listHeads l).usedSlots
  head : ∀ {i t}, ChildAt (m.trees 0) i t → ∀ j, ((m.trees t).childs j).listHeadLargestHeap = none

theorem Pointing.congr (h : Pointing m) (hlinks : SameLinks m m') (hcaches : SameCaches m m')
    (hused : ∀ l, ∀ x ∈ slots (m.listHeads l).usedSlots, x ∈ slots (m'.listHeads l).usedSlots) :
    Pointing m' := by
  refine ⟨fun {i t g l} ht hg hl => ?_, fun ht j => ?_⟩
  · rw [hcaches.largestHeap] at hg
    rw [hcaches.listHead] at hl
    obtain ⟨hlist, hindex, ⟨j, hj⟩, hmem⟩ := h.root (hlinks.childAt.mp ht) hg hl
    rw [hcaches.index]
    exact ⟨hlist, hindex, ⟨j, hlinks.childAt.mpr hj⟩, hused l _ hmem⟩
  · rw [hcaches.listHead]
    exact h.head (hlinks.childAt.mp ht) j

theorem Pointing.growTree (h : Pointing m) (hm : Linked m) (hb : Blank m)
    (hi : i ∈ slots fun x => ~~~(m.trees 0).present x) : Pointing (grow m 0 i) := by
  have h0 : 0 ≠ m.brk := Nat.ne_of_lt hm.pos
  have hold {k t : ℕ} (ht : ChildAt (m.trees 0) k t) : (grow m 0 i).trees t = m.trees t :=
    trees_grow_of_ne i (Nat.ne_of_lt (hm.tree ht).2.1) (Nat.ne_of_gt (hm.tree ht).1)
  have hitem (k : ℕ) : (((grow m 0 i).trees 0).childs k).cache = ((m.trees 0).childs k).cache := by
    rw [trees_grow_self i h0]
    change (((m.trees 0).setChild i _).childs k).cache = _
    rw [childs_setChild]
    split
    · rename_i hk
      rw [hk]
      rfl
    · rfl
  have hlargest (k : ℕ) : (((grow m 0 i).trees 0).childs k).largestHeap =
      ((m.trees 0).childs k).largestHeap :=
    congrArg Prod.fst (hitem k)
  refine ⟨fun {k t g l} ht hg hl => ?_, fun ht j => ?_⟩
  · rw [hlargest] at hg
    rcases (childAt_grow h0 hi).mp ht with ht | ⟨rfl, -⟩
    · rw [show (((grow m 0 i).trees 0).childs k).listHeadLargestHeap = _ from
        congrArg (fun p => p.2.1) (hitem k)] at hl
      rw [show (((grow m 0 i).trees 0).childs k).indexLargestHeap = _ from
        congrArg (fun p => p.2.2) (hitem k), hold ht]
      obtain ⟨hlist, hindex, ⟨j, hj⟩, hmem⟩ := h.root ht hg hl
      rw [listHeads_grow_of_ne i (Nat.ne_of_lt (hm.list ht hj).1)]
      exact ⟨hlist, hindex, ⟨j, hj⟩, hmem⟩
    · rw [hb.root k (mem_slots_not.mp hi).2] at hg
      cases hg
  · rcases (childAt_grow h0 hi).mp ht with ht | ⟨rfl, rfl⟩
    · rw [hold ht]
      exact h.head ht j
    · rw [trees_grow_page]
      rfl

theorem Pointing.growList (h : Pointing m) (hm : Linked m) (ht : ChildAt (m.trees 0) i t)
    (hj : j ∈ slots fun x => ~~~(m.trees t).present x) : Pointing (grow m t j) := by
  obtain ⟨hpos, hlt, -⟩ := hm.tree ht
  have hne := Nat.ne_of_lt hlt
  have hroot : (grow m t j).trees 0 = m.trees 0 :=
    trees_grow_of_ne j (Nat.ne_of_lt hm.pos) (Nat.ne_of_lt hpos)
  refine ⟨fun {k u g l} hu hg hl => ?_, fun {k u} hu a => ?_⟩
  · rw [hroot] at hu hg hl ⊢
    obtain ⟨hlist, hindex, ⟨b, hb⟩, hmem⟩ := h.root hu hg hl
    rw [listHeads_grow_of_ne j (Nat.ne_of_lt (hm.list hu hb).1)]
    refine ⟨hlist, hindex, ⟨b, ?_⟩, hmem⟩
    by_cases hut : u = t
    · subst hut
      exact (childAt_grow hne hj).mpr (Or.inl hb)
    · rw [trees_grow_of_ne j (Nat.ne_of_lt (hm.tree hu).2.1) hut]
      exact hb
  · rw [hroot] at hu
    by_cases hut : u = t
    · subst hut
      rw [trees_grow_self j hne]
      change (((m.trees u).setChild j _).childs a).listHeadLargestHeap = none
      rw [childs_setChild]
      split
      · exact h.head hu j
      · exact h.head hu a
    · rw [trees_grow_of_ne j (Nat.ne_of_lt (hm.tree hu).2.1) hut]
      exact h.head hu a

theorem Pointing.cacheHeap (h : Pointing m) (hm : Linked m) (ht : ChildAt (m.trees 0) i t)
    (hl : ChildAt (m.trees t) j l) (hx : x ∈ slots (m.listHeads l).usedSlots) :
    Pointing (Heap.cacheHeap m i t j l x n) := by
  have ht0 : t ≠ 0 := Nat.ne_of_gt (hm.tree ht).1
  have hlist : Pointing (recordList m t j l x) := by
    have hlinks : SameLinks m (recordList m t j l x) := sameLinks_setItem rfl
    have hitem (u k : ℕ) : ((recordList m t j l x).trees u).childs k = if u = t ∧ k = j then
        { (m.trees t).childs j with largestHeap := some (l, x) } else (m.trees u).childs k :=
          childs_setItem
    refine ⟨fun {k u g a} hu hg ha => ?_, fun {k u} hu a => ?_⟩
    · rw [hitem, if_neg fun he => ht0 he.1.symm] at hg ha ⊢
      obtain ⟨hgl, hindex, ⟨b, hb⟩, hmem⟩ := h.root (hlinks.childAt.mp hu) hg ha
      exact ⟨hgl, hindex, ⟨b, hlinks.childAt.mpr hb⟩, hmem⟩
    · have hhead := h.head (hlinks.childAt.mp hu) a
      rw [hitem]
      split
      · rename_i he
        rw [he.1, he.2] at hhead
        exact hhead
      · exact hhead
  rw [cacheHeap_eq]
  split
  · split
    · have hlinks : SameLinks m (recordList m t j l x) := sameLinks_setItem rfl
      have hlinks' : SameLinks (recordList m t j l x) (recordTree (recordList m t j l x) i l x) :=
        sameLinks_setItem rfl
      have hitem (u k : ℕ) : ((recordTree (recordList m t j l x) i l x).trees u).childs k =
          if u = 0 ∧ k = i then { ((recordList m t j l x).trees 0).childs i with
            largestHeap := some (l, x), indexLargestHeap := x % 256, listHeadLargestHeap := some l }
          else ((recordList m t j l x).trees u).childs k := childs_setItem
      refine ⟨fun {k u g a} hu hg ha => ?_, fun {k u} hu a => ?_⟩
      · have hu' := hlinks'.childAt.mp hu
        by_cases hki : k = i
        · rw [hki] at hg ha hu' ⊢
          rw [hitem, if_pos ⟨rfl, rfl⟩] at hg ha ⊢
          cases hg
          cases ha
          have hut := (hlinks.childAt.mp hu').child_eq ht
          rw [hut]
          have hlt := lt_of_mem_slots hx
          exact ⟨rfl, Nat.mod_eq_of_lt (by omega), ⟨j, (hlinks.trans hlinks').childAt.mpr hl⟩, hx⟩
        · rw [hitem, if_neg fun he => hki he.2] at hg ha ⊢
          obtain ⟨hgl, hindex, ⟨b, hb⟩, hmem⟩ := hlist.root hu' hg ha
          exact ⟨hgl, hindex, ⟨b, hlinks'.childAt.mpr hb⟩, hmem⟩
      · have hu' := hlinks.childAt.mp (hlinks'.childAt.mp hu)
        rw [hitem, if_neg fun he => (Nat.ne_of_gt (hm.tree hu').1) he.1]
        exact hlist.head (hlinks'.childAt.mp hu) a
    · exact hlist
  · exact h

/-- The caches of the list that served a request, and of its tree, are computed anew. -/
theorem Pointing.recached (h : Pointing m) (hm : Linked m) (ht : ChildAt (m.trees 0) i t)
    (hl : ChildAt (m.trees t) j l) {d e : Largest}
    (hfound : FoundSegment (carved m i t j l x n) l d)
    (hfrom : FoundTree (carved m i t j l x n) t j l d e) :
    Pointing (Heap.recached (carved m i t j l x n) i t j d e) := by
  let m₁ := carved m i t j l x n
  have hlinks₁ : SameLinks m m₁ := sameLinks_carved
  have honly := onlyCaches_recached m₁ i t j d e
  have hlinks := hlinks₁.trans honly.links
  have ht0 : t ≠ 0 := Nat.ne_of_gt (hm.tree ht).1
  have hitem (u k : ℕ) := childs_recached m₁ i t j d e (u := u) (k := k) ht0
  have hchilds (u : ℕ) : (m₁.trees u).childs = (m.trees u).childs := childs_carved
  refine ⟨fun {k u g a} hu hg ha => ?_, fun {k u} hu a => ?_⟩
  · have hu' := hlinks.childAt.mp hu
    by_cases hki : k = i
    · rw [hki] at hg ha hu' ⊢
      rw [hitem, if_pos ⟨rfl, rfl⟩] at hg ha ⊢
      rw [hu'.child_eq ht]
      rcases hfrom with rfl | ⟨b, -, -, g', -, -, rfl⟩
      · cases ha
        obtain ⟨hgl, hmem⟩ := hfound.largest.mem g hg
        rw [honly.lists]
        refine ⟨hgl, hfound.index g hg, ⟨j, hlinks.childAt.mpr hl⟩, hmem⟩
      · rw [show (m₁.trees t).childs b = _ from congrFun (hchilds t) b, h.head ht b] at ha
        cases ha
    · rw [hitem, if_neg fun he => hki he.2, if_neg fun he => ht0 he.1.symm, hchilds] at hg ha ⊢
      obtain ⟨hgl, hindex, ⟨b, hb⟩, hmem⟩ := h.root hu' hg ha
      have hal : a ≠ l := by
        rintro rfl
        obtain ⟨hut, -⟩ := hm.list_unique ht hl hu' hb
        rw [hut] at hu'
        exact hki (hm.tree_ne ht hu')
      rw [honly.lists, show m₁.listHeads a = m.listHeads a from listHeads_carved_of_ne hal]
      exact ⟨hgl, hindex, ⟨b, hlinks.childAt.mpr hb⟩, hmem⟩
  · have hu' := hlinks.childAt.mp hu
    have hhead := h.head hu' a
    rw [hitem, if_neg fun he => (Nat.ne_of_gt (hm.tree hu').1) he.1]
    split
    · rename_i he
      rw [he.1, he.2] at hhead
      rw [hchilds]
      exact hhead
    · rw [hchilds]
      exact hhead

end Pointing

end DevOs.Heap
