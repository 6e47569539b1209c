import DevOs.Heap.Calls

/-!
# Computing the caches anew

`SetLargestHeap` finds the largest segment of a list, and stays with it for the tree unless another
slot of the tree caches a longer one; it then stores what that slot says of the list, which is
nothing. Both scans leave their arrays when a slot from 64 on is in use.
-/

namespace DevOs.Heap

open Bitmaps Maxima

variable {m m' : HeapMemory} {t u i j k c l x n : ℕ}

def HeapMemory.len (m : HeapMemory) (h : ℕ × ℕ) : ℕ := (m.segment h).heapLength

def listSegments (m : HeapMemory) (l : ℕ) : Set (ℕ × ℕ) :=
  {h | h.1 = l ∧ h.2 ∈ slots (m.listHeads l).usedSlots}

def Inside (b : Bitmap 64) : Prop := ∀ i ∈ wideSlots b, i < 128

theorem wideSlots_of_inside {b : Bitmap 64} (h : Inside b) : wideSlots b = slots b := by
  have hnil : ones (b 1) = [] := by
    rw [List.eq_nil_iff_forall_not_mem]
    intro y hy
    have hmem : y + 128 ∈ wideSlots b := by
      rw [wideSlots, numSlotGroups, places_two, List.mem_append]
      exact Or.inr (List.mem_map_of_mem hy)
    have := h _ hmem
    omega
  rw [wideSlots, slots, numSlotGroups, places_two, places_two, hnil, List.map_nil, List.map_nil]

theorem inside_iff {b : Bitmap 64} : Inside b ↔ ∀ i ∈ slots b, i < 64 := by
  constructor
  · intro h y hy
    by_contra hge
    obtain ⟨hlt, hbit⟩ := mem_slots.mp hy
    have hone : y - 64 ∈ ones (b 1) := by
      rw [mem_ones]
      have hword : y / 64 = 1 := by omega
      have hpos : y % 64 = y - 64 := by omega
      rw [bit, hword, hpos] at hbit
      exact ⟨by omega, hbit⟩
    have hmem : y - 64 + 128 ∈ wideSlots b := by
      rw [wideSlots, numSlotGroups, places_two, List.mem_append]
      exact Or.inr (List.mem_map_of_mem hone)
    have := h _ hmem
    omega
  · intro h y hy
    rw [wideSlots, numSlotGroups, places_two, List.mem_append, List.mem_map] at hy
    rcases hy with hy | ⟨z, hz, rfl⟩
    · have := (mem_ones.mp hy).1
      omega
    · obtain ⟨hz64, hbit⟩ := mem_ones.mp hz
      have hmem : z + 64 ∈ slots b := by
        rw [mem_slots, bit, show (z + 64) / 64 = 1 by omega, show (z + 64) % 64 = z by omega]
        exact ⟨by omega, hbit⟩
      have := h _ hmem
      omega

theorem inside_eq_ok (h : inside i = .ok ()) : i < 128 := by
  rw [inside] at h
  split at h
  · assumption
  · cases h

theorem exists_of_bind_ok {α β : Type} {e : Except Fault α} {f : α → Except Fault β} {b : β}
    (h : (e >>= f) = .ok b) : ∃ a, e = .ok a ∧ f a = .ok b := by
  cases e with
  | error => cases h
  | ok a => exact ⟨a, rfl, h⟩

/-- A scan that asks `inside` of each slot before it goes on returns only when all slots are
inside. -/
theorem inside_of_scan {f : Largest → List ℕ → Except Fault Largest} {d : Largest}
    (hf : ∀ {c y ys}, f c (y :: ys) = .ok d → inside y = .ok () ∧ ∃ c', f c' ys = .ok d)
    {is : List ℕ} {c : Largest} (h : f c is = .ok d) : ∀ y ∈ is, y < 128 := by
  induction is generalizing c with
  | nil => exact fun y hy => absurd hy List.not_mem_nil
  | cons y ys ih =>
    obtain ⟨hin, c', hys⟩ := hf h
    intro z hz
    rcases List.mem_cons.mp hz with rfl | hz
    · exact inside_eq_ok hin
    · exact ih hys z hz

theorem inside_of_scanSegments {is : List ℕ} {c d : Largest} (h : scanSegments m l c is = .ok d) :
    ∀ y ∈ is, y < 128 := by
  refine inside_of_scan (fun {c y ys} h => ?_) h
  obtain ⟨_, hin, h⟩ := exists_of_bind_ok h
  refine ⟨hin, ?_⟩
  split at h
  · exact ⟨_, h⟩
  · exact ⟨_, h⟩

theorem inside_of_scanChilds {is : List ℕ} {c d : Largest} (h : scanChilds m t c is = .ok d) :
    ∀ y ∈ is, y < 128 := by
  refine inside_of_scan (fun {c y ys} h => ?_) h
  obtain ⟨_, hin, h⟩ := exists_of_bind_ok h
  refine ⟨hin, ?_⟩
  split at h
  · split at h
    · exact ⟨_, h⟩
    · exact ⟨_, h⟩
  · exact ⟨_, h⟩

/-- What the scan of the second level finds: what it started with, or a longer segment that a slot
caches. -/
theorem scanChilds_spec (m : HeapMemory) (t : ℕ) (is : List ℕ) (his : ∀ y ∈ is, y < 128)
    (c : Largest) :
    ∃ e, scanChilds m t c is = .ok e ∧
    (e = c ∨ ∃ k ∈ is, ∃ h, ((m.trees t).childs k).largestHeap = some h ∧
      c.heapLength < m.len h ∧
      e = ⟨some h, ((m.trees t).childs k).listHeadLargestHeap, m.len h, k % 256⟩) := by
  induction is generalizing c with
  | nil => exact ⟨c, rfl, Or.inl rfl⟩
  | cons y ys ih =>
    have his' : ∀ z ∈ ys, z < 128 := fun z hz => his z (List.mem_cons_of_mem y hz)
    have hlater {c' e : Largest} (hle : c.heapLength ≤ c'.heapLength)
        (he : ∃ k ∈ ys, ∃ h, ((m.trees t).childs k).largestHeap = some h ∧ c'.heapLength < m.len h ∧
          e = ⟨some h, ((m.trees t).childs k).listHeadLargestHeap, m.len h, k % 256⟩) :
        ∃ k ∈ y :: ys, ∃ h, ((m.trees t).childs k).largestHeap = some h ∧ c.heapLength < m.len h ∧
          e = ⟨some h, ((m.trees t).childs k).listHeadLargestHeap, m.len h, k % 256⟩ := by
      obtain ⟨k, hk, h, hc, hlt, he⟩ := he
      exact ⟨k, List.mem_cons_of_mem y hk, h, hc, Nat.lt_of_le_of_lt hle hlt, he⟩
    rw [scanChilds, inside_of_lt (his y List.mem_cons_self), ok_bind]
    cases hcache : ((m.trees t).childs y).largestHeap with
    | none =>
      obtain ⟨e, he, hfrom⟩ := ih his' c
      exact ⟨e, he, hfrom.imp_right (hlater (Nat.le_refl _))⟩
    | some h =>
      by_cases hlt : c.heapLength < m.len h
      · obtain ⟨e, he, hfrom⟩ :=
          ih his' ⟨some h, ((m.trees t).childs y).listHeadLargestHeap, m.len h, y % 256⟩
        refine ⟨e, (if_pos hlt).trans he, Or.inr ?_⟩
        rcases hfrom with rfl | hfrom
        · exact ⟨y, List.mem_cons_self, h, hcache, hlt, rfl⟩
        · exact hlater (Nat.le_of_lt hlt) hfrom
      · obtain ⟨e, he, hfrom⟩ := ih his' c
        exact ⟨e, (if_neg hlt).trans he, hfrom.imp_right (hlater (Nat.le_refl _))⟩

/-- The outcome of the scan of a list. -/
structure FoundSegment (m : HeapMemory) (l : ℕ) (d : Largest) : Prop where
  largest : Maxima.Largest (listSegments m l) m.len d.heap
  length : d.heapLength = value m.len d.heap
  index : ∀ h, d.heap = some h → d.indx = h.2

theorem scanSegments_found (stack : ℕ) :
    ∃ d, scanSegments m l ⟨none, none, 0, stack⟩ (slots (m.listHeads l).usedSlots) = .ok d ∧
      FoundSegment m l d := by
  obtain ⟨d, hd, -, hmax, hfrom⟩ := scanSegments_spec m l (slots (m.listHeads l).usedSlots)
    (fun y hy => lt_of_mem_slots hy) ⟨none, none, 0, stack⟩
  refine ⟨d, hd, ?_⟩
  rcases hfrom with rfl | ⟨y, hy, hheap, hlen, hindx, hpos⟩
  · refine ⟨largest_none fun h hh => ?_, rfl, fun h hh => by cases hh⟩
    obtain ⟨rfl, hused⟩ := hh
    exact Nat.le_zero.mp (hmax h.2 hused)
  · have hlt := lt_of_mem_slots hy
    rw [hlen] at hpos hmax
    refine ⟨?_, ?_, fun h hh => ?_⟩
    · rw [hheap]
      refine largest_some ⟨rfl, hy⟩ hpos fun h hh => ?_
      obtain ⟨rfl, hused⟩ := hh
      exact hmax h.2 hused
    · rw [hheap]
      exact hlen
    · rw [hheap] at hh
      cases hh
      exact hindx.trans (Nat.mod_eq_of_lt (by omega))

/-- The outcome of the scan of the tree: the segment found in the list, or a longer one that another
slot caches. -/
def FoundTree (m : HeapMemory) (t j l : ℕ) (d e : Largest) : Prop :=
  e = { d with listHead := some l } ∨ ∃ k ∈ slots (m.trees t).present, k ≠ j ∧
    ∃ h, ((m.trees t).childs k).largestHeap = some h ∧ d.heapLength < m.len h ∧
      e = ⟨some h, ((m.trees t).childs k).listHeadLargestHeap, m.len h, k % 256⟩

theorem setLargestHeap_eq (hm : Linked m) (ht : ChildAt (m.trees 0) i t)
    (hl : ChildAt (m.trees t) j l) (hlist : Inside (m.listHeads l).usedSlots)
    (htree : Inside (m.trees t).present) (stack : ℕ) :
    ∃ d e, setLargestHeap m (some l) stack = .ok (recached m i t j d e) ∧ FoundSegment m l d ∧
      FoundTree m t j l d e := by
  obtain ⟨hpos, -, hparent, hi⟩ := hm.tree ht
  obtain ⟨-, hlparent, hj⟩ := hm.list ht hl
  obtain ⟨d, hd, hfound⟩ := scanSegments_found (m := m) (l := l) stack
  let item := { (m.trees t).childs j with largestHeap := d.heap, indexLargestHeap := d.indx }
  let m₁ := m.setItem t j item
  obtain ⟨e, he, hfrom⟩ :=
    scanChilds_spec m₁ t (slots (m.trees t).present) (fun y hy => lt_of_mem_slots hy)
    { d with listHead := some l }
  refine ⟨d, e, ?_, hfound, ?_⟩
  · have hscan : scanSegments m l ⟨none, none, 0, stack⟩ (wideSlots (m.listHeads l).usedSlots) =
        .ok d := by
      rw [wideSlots_of_inside hlist]
      exact hd
    have hpresent : (m₁.trees t).present = (m.trees t).present := by
      rw [trees_setItem, if_pos rfl, present_setChild]
    have hscan' : scanChilds m₁ t { d with listHead := some l } (wideSlots (m₁.trees t).present) =
        .ok e := by
      rw [hpresent, wideSlots_of_inside htree]
      exact he
    have hup : deref (m₁.trees t).parent = .ok 0 := by
      rw [trees_setItem, if_pos rfl, parent_setChild, hparent]
      rfl
    have hindex : (m₁.trees t).parentItemIndex = i := by
      rw [trees_setItem, if_pos rfl, parentItemIndex_setChild, hi]
    rw [setLargestHeap]
    refine (bind_of_eq rfl _).trans ?_
    refine (bind_of_eq hscan _).trans ?_
    refine (bind_of_eq (congrArg deref hlparent) _).trans ?_
    rw [hj]
    refine (bind_of_eq (inside_of_lt (lt_of_mem_slots hl.1)) _).trans ?_
    refine (bind_of_eq hscan' _).trans ?_
    refine (bind_of_eq hup _).trans ?_
    change (inside (m₁.trees t).parentItemIndex >>= _) = _
    rw [hindex]
    refine (bind_of_eq (inside_of_lt (lt_of_mem_slots ht.1)) _).trans ?_
    rfl
  · rcases hfrom with rfl | ⟨k, hk, h, hcache, hlt, rfl⟩
    · exact Or.inl rfl
    · have hkj : k ≠ j := by
        rintro rfl
        rw [childs_setItem, if_pos ⟨rfl, rfl⟩] at hcache
        have hlen := hfound.length
        rw [show d.heap = some h from hcache, value_some] at hlen
        exact absurd hlt (Nat.not_lt.mpr hlen.ge)
      rw [childs_setItem, if_neg fun hkj' => hkj hkj'.2] at hcache ⊢
      exact Or.inr ⟨k, hk, hkj, h, hcache, hlt, rfl⟩

theorem inside_of_setLargestHeap {stack : ℕ} (hm : Linked m) (ht : ChildAt (m.trees 0) i t)
    (hl : ChildAt (m.trees t) j l) (h : setLargestHeap m (some l) stack = .ok m') :
    Inside (m.listHeads l).usedSlots ∧ Inside (m.trees t).present := by
  rw [setLargestHeap] at h
  obtain ⟨_, hderef, h⟩ := exists_of_bind_ok h
  cases hderef
  obtain ⟨d, hd, h⟩ := exists_of_bind_ok h
  obtain ⟨_, hderef, h⟩ := exists_of_bind_ok h
  rw [(hm.list ht hl).2.1] at hderef
  cases hderef
  obtain ⟨_, -, h⟩ := exists_of_bind_ok h
  obtain ⟨e, he, -⟩ := exists_of_bind_ok h
  have hpresent := inside_of_scanChilds he
  rw [trees_setItem, if_pos rfl, present_setChild] at hpresent
  exact ⟨inside_of_scanSegments hd, hpresent⟩

section Carve

/-- The front of `n` bytes of the segment is taken. -/
def taken (m : HeapMemory) (h : ℕ × ℕ) (n : ℕ) : HeapMemory :=
  m.setSegment h { m.segment h with
    address := ((m.segment h).address + n) % 2 ^ 64, heapLength := (m.segment h).heapLength - n }

/-- The memory of `AllocatePoolEx` before it computes the caches anew. -/
def carved (m : HeapMemory) (i t j l x n : ℕ) : HeapMemory :=
  if m.len (l, x) - n = 0 then released (taken m (l, x) n) i t j l x else taken m (l, x) n

theorem sameLinks_taken (h : ℕ × ℕ) : SameLinks m (taken m h n) := sameLinks_setSegment rfl

theorem sameLinks_carved : SameLinks m (carved m i t j l x n) := by
  rw [carved]
  split
  · exact (sameLinks_taken _).trans sameLinks_released
  · exact sameLinks_taken _

theorem childs_carved : ((carved m i t j l x n).trees u).childs = (m.trees u).childs := by
  rw [carved]
  split
  · rw [childs_released]
    rfl
  · rfl

theorem listHeads_taken : (taken m (l, x) n).listHeads u = if u = l then { m.listHeads l with
    memorySegments := Function.update (m.listHeads l).memorySegments x { m.segment (l, x) with
      address := ((m.segment (l, x)).address + n) % 2 ^ 64, heapLength := m.len (l, x) - n } }
    else m.listHeads u := by
  rw [taken, HeapMemory.setSegment, listHeads_setListHead]
  rfl

theorem listHeads_carved_of_ne (hu : u ≠ l) :
    (carved m i t j l x n).listHeads u = m.listHeads u := by
  rw [carved]
  split
  · rw [listHeads_released, slotFreed, listHeads_setListHead, if_neg hu, listHeads_taken, if_neg hu]
  · rw [listHeads_taken, if_neg hu]

theorem usedSlots_carved : ((carved m i t j l x n).listHeads l).usedSlots =
    if m.len (l, x) - n = 0 then Bitmaps.clear (m.listHeads l).usedSlots x
      else (m.listHeads l).usedSlots := by
  rw [carved]
  split
  · rw [listHeads_released, slotFreed, listHeads_setListHead, if_pos rfl, listHeads_taken,
      if_pos rfl]
  · rw [listHeads_taken, if_pos rfl]

theorem len_carved (h : ℕ × ℕ) : (carved m i t j l x n).len h =
    if h = (l, x) then m.len (l, x) - n else m.len h := by
  have htaken : (taken m (l, x) n).len h = if h = (l, x) then m.len (l, x) - n else m.len h := by
    obtain ⟨a, y⟩ := h
    rw [HeapMemory.len, HeapMemory.segment, listHeads_taken]
    by_cases ha : a = l
    · subst ha
      rw [if_pos rfl]
      change (Function.update (m.listHeads a).memorySegments x _ y).heapLength = _
      rw [Function.update_apply]
      by_cases hy : y = x
      · rw [if_pos hy, if_pos (by rw [hy])]
      · rw [if_neg hy, if_neg fun he => hy (Prod.mk.inj he).2]
        rfl
    · rw [if_neg ha, if_neg fun he => ha (Prod.mk.inj he).1]
      rfl
  rw [← htaken, carved]
  split
  · have hsegment : (released (taken m (l, x) n) i t j l x).segment h =
        (taken m (l, x) n).segment h := by
      rw [HeapMemory.segment, HeapMemory.segment, listHeads_released, slotFreed,
        listHeads_setListHead]
      split
      · rename_i hh
        rw [hh]
      · rfl
    rw [HeapMemory.len, HeapMemory.len, hsegment]
  · rfl

theorem takeFront_eq (hm : Linked m) (ht : ChildAt (m.trees 0) i t) (hl : ChildAt (m.trees t) j l)
    (hx : x < 128) (hheap : ((m.trees 0).childs i).largestHeap = some (l, x))
    (hhead : ((m.trees 0).childs i).listHeadLargestHeap = some l)
    (hindex : ((m.trees 0).childs i).indexLargestHeap = x) (n stack : ℕ) :
    takeFront m i n stack = (setLargestHeap (carved m i t j l x n) (some l) stack >>= fun m' =>
      .ok (m', (m.segment (l, x)).address)) := by
  have hlinks : SameLinks m (taken m (l, x) n) := sameLinks_taken _
  have hfree : freeSlot (taken m (l, x) n) ((m.trees 0).childs i) =
      .ok (released (taken m (l, x) n) i t j l x) :=
    freeSlot_eq (hm.congr hlinks) (hlinks.childAt.mpr ht) (hlinks.childAt.mpr hl) hx hhead hindex
  have hinitial : (m.segment (l, x)).initialHeap = false := hm.initialHeap _
  rw [takeFront, carved]
  simp only [hheap, hhead]
  by_cases hrest : m.len (l, x) - n = 0
  · rw [if_pos hrest]
    refine (if_pos ⟨hrest, hinitial⟩).trans ?_
    exact bind_of_eq hfree _
  · rw [if_neg hrest]
    refine (if_neg fun h => hrest h.1).trans ?_
    rfl

end Carve

/-- Nothing is cached for a slot without a page. -/
structure Blank (m : HeapMemory) : Prop where
  root : ∀ k, k ∉ slots (m.trees 0).present → ((m.trees 0).childs k).largestHeap = none
  tree : ∀ {i t}, ChildAt (m.trees 0) i t → ∀ k, k ∉ slots (m.trees t).present →
    ((m.trees t).childs k).largestHeap = none

theorem Blank.congr (hb : Blank m) (hlinks : SameLinks m m') (hcaches : SameCaches m m') :
    Blank m' := by
  refine ⟨fun k hk => ?_, fun ht k hk => ?_⟩
  · rw [hlinks.present] at hk
    rw [hcaches.largestHeap]
    exact hb.root k hk
  · rw [hlinks.present] at hk
    rw [hcaches.largestHeap]
    exact hb.tree (hlinks.childAt.mp ht) k hk

theorem Blank.update (hb : Blank m) (hm : Linked m) (ht : ChildAt (m.trees 0) i t)
    (hl : ChildAt (m.trees t) j l) (hcaches : OnlyCaches m m')
    (hother : ∀ u k, ¬(u = 0 ∧ k = i) → ¬(u = t ∧ k = j) →
      ((m'.trees u).childs k).largestHeap = ((m.trees u).childs k).largestHeap) : Blank m' := by
  have hpos : t ≠ 0 := Nat.ne_of_gt (hm.tree ht).1
  refine ⟨fun k hk => ?_, fun {i' t'} ht' k hk => ?_⟩
  · rw [hcaches.links.present] at hk
    rw [hother 0 k (fun h => hk (h.2 ▸ ht.1)) fun h => hpos h.1.symm]
    exact hb.root k hk
  · have ht' := hcaches.links.childAt.mp ht'
    rw [hcaches.links.present] at hk
    have hpos' : t' ≠ 0 := Nat.ne_of_gt (hm.tree ht').1
    rw [hother t' k (fun h => hpos' h.1) fun h => hk (by rw [h.1, h.2]; exact hl.1)]
    exact hb.tree ht' k hk

theorem blank_initial : Blank HeapMemory.initial :=
  ⟨fun _ _ => rfl, fun ht => (not_childAt_initial ht).elim⟩

theorem Blank.growTree (hb : Blank m) (hm : Linked m)
    (hi : i ∈ slots fun x => ~~~(m.trees 0).present x) :
    Blank (grow m 0 i) := by
  have h0 : 0 ≠ m.brk := Nat.ne_of_lt hm.pos
  refine ⟨fun k hk => ?_, fun {i' t'} ht' k hk => ?_⟩
  · rw [trees_grow_self i h0] at hk ⊢
    have hk' := fun h => hk ((mem_slots_set (mem_slots_not.mp hi).1).mpr h)
    change (((m.trees 0).setChild i _).childs k).largestHeap = none
    rw [childs_setChild, if_neg fun h => hk' (Or.inl h)]
    exact hb.root k fun h => hk' (Or.inr h)
  · rcases (childAt_grow h0 hi).mp ht' with ht' | ⟨rfl, rfl⟩
    · obtain ⟨hpos, hlt, -⟩ := hm.tree ht'
      rw [trees_grow_of_ne i (Nat.ne_of_lt hlt) (Nat.ne_of_gt hpos)] at hk ⊢
      exact hb.tree ht' k hk
    · rw [trees_grow_page]
      rfl

theorem Blank.growList (hb : Blank m) (hm : Linked m) (ht : ChildAt (m.trees 0) i t)
    (hj : j ∈ slots fun x => ~~~(m.trees t).present x) : Blank (grow m t j) := by
  obtain ⟨hpos, hlt, -⟩ := hm.tree ht
  have hroot : (grow m t j).trees 0 = m.trees 0 :=
    trees_grow_of_ne j (Nat.ne_of_lt hm.pos) (Nat.ne_of_lt hpos)
  refine ⟨fun k hk => ?_, fun {i' t'} ht' k hk => ?_⟩
  · rw [hroot] at hk ⊢
    exact hb.root k hk
  · rw [hroot] at ht'
    by_cases he : t' = t
    · subst he
      rw [trees_grow_self j (Nat.ne_of_lt hlt)] at hk ⊢
      have hk' := fun h => hk ((mem_slots_set (mem_slots_not.mp hj).1).mpr h)
      change (((m.trees t').setChild j _).childs k).largestHeap = none
      rw [childs_setChild, if_neg fun h => hk' (Or.inl h)]
      exact hb.tree ht' k fun h => hk' (Or.inr h)
    · rw [trees_grow_of_ne j (Nat.ne_of_lt (hm.tree ht').2.1) he] at hk ⊢
      exact hb.tree ht' k hk

section Pool

variable {r : Request}

theorem mem_slots_of_wide {b : Bitmap 64} {y : ℕ} (h : y ∈ wideSlots b) (hy : y < 128) :
    y ∈ slots b := by
  rw [wideSlots, numSlotGroups, places_two, List.mem_append, List.mem_map] at h
  rw [slots, numSlotGroups, places_two, List.mem_append]
  rcases h with h | ⟨z, -, rfl⟩
  · exact Or.inl h
  · exact absurd hy (by omega)

theorem findHeap_some {is : List ℕ} (h : findHeap m n is = .ok (some i)) :
    i ∈ is ∧ i < 128 ∧ ∃ g, ((m.trees 0).childs i).largestHeap = some g ∧ n ≤ m.len g := by
  induction is with
  | nil => cases h
  | cons y ys ih =>
    rw [findHeap] at h
    obtain ⟨_, hin, h⟩ := exists_of_bind_ok h
    have hlater (h : findHeap m n ys = .ok (some i)) :
        i ∈ y :: ys ∧ i < 128 ∧ ∃ g, ((m.trees 0).childs i).largestHeap = some g ∧ n ≤ m.len g := by
      obtain ⟨hi, hlt, hg⟩ := ih h
      exact ⟨List.mem_cons_of_mem y hi, hlt, hg⟩
    split at h
    · rename_i g hg
      split at h
      · rename_i hle
        cases h
        exact ⟨List.mem_cons_self, inside_eq_ok hin, g, hg, hle⟩
      · exact hlater h
    · exact hlater h

theorem findHeap_error {is : List ℕ} {f : Fault} (h : findHeap m n is = .error f) :
    f = .outside ∧ ∃ y ∈ is, ¬y < 128 := by
  induction is with
  | nil => cases h
  | cons y ys ih =>
    rw [findHeap] at h
    by_cases hy : y < 128
    · rw [inside_of_lt hy, ok_bind] at h
      have hlater (h : findHeap m n ys = .error f) : f = .outside ∧ ∃ z ∈ y :: ys, ¬z < 128 := by
        obtain ⟨hf, z, hz, hlt⟩ := ih h
        exact ⟨hf, z, List.mem_cons_of_mem y hz, hlt⟩
      split at h
      · split at h
        · cases h
        · exact hlater h
      · exact hlater h
    · have hout : inside y = .error .outside := if_neg hy
      rw [hout] at h
      cases h
      exact ⟨rfl, y, List.mem_cons_self, hy⟩

def HeapMemory.createsHeap (m : HeapMemory) (r : Request) : Bool :=
  decide (r.numBytes ≠ 0) && decide (m.find r = .ok none) && r.granted &&
    decide (r.size % 0x1000 ≠ 0)

/-- How a call of `AllocatePoolEx` goes. -/
inductive PoolCall (m : HeapMemory) (r : Request) : Except Fault HeapMemory → Prop
  | same : PoolCall m r (.ok m)
  | outside : m.find r = .error .outside → ¬Inside (m.trees 0).present →
    PoolCall m r (.error .outside)
  | front {i : ℕ} {g : ℕ × ℕ} :
    r.numBytes ≠ 0 → m.find r = .ok (some i) → i ∈ slots (m.trees 0).present →
      ((m.trees 0).childs i).largestHeap = some g → r.size ≤ m.len g →
      PoolCall m r ((takeFront m i r.size r.stack).map Prod.fst)
  | fresh {address heapLength : ℕ} : m.createsHeap r = true → heapLength ≠ 0 →
      PoolCall m r (createHeap m address heapLength)

theorem map_bind_created {e : Except Fault HeapMemory} {a : Option ℕ} :
    (e >>= fun m' => pure (m', a)).map Prod.fst = e := by
  cases e <;> rfl

theorem map_bind_front {e : Except Fault (HeapMemory × ℕ)} :
    (e >>= fun p => pure (p.1, some p.2)).map Prod.fst = e.map Prod.fst := by
  cases e <;> rfl

theorem remainder_ne_zero (hbound : r.numBytes < 2 ^ 64) (hdvd : r.size % 0x1000 ≠ 0) :
    (r.numPages * 2 ^ 12 % 2 ^ 64 + (2 ^ 64 - r.size)) % 2 ^ 64 ≠ 0 := by
  have hsize : r.size < 2 ^ 64 := by
    rw [Request.size, alignValue]
    split <;> omega
  omega

theorem pool_cases (m : HeapMemory) (hbound : r.numBytes < 2 ^ 64) :
    PoolCall m r (m.call (.pool r)) := by
  rw [HeapMemory.call, allocatePoolEx]
  by_cases hr : r.numBytes = 0
  · rw [if_pos hr]
    exact PoolCall.same
  · rw [if_neg hr]
    cases hfind : m.find r with
    | error f =>
      obtain ⟨rfl, y, hy, hlt⟩ := findHeap_error hfind
      exact PoolCall.outside hfind fun h => hlt (h y hy)
    | ok o =>
      cases o with
      | some i =>
        obtain ⟨hi, hlt, g, hg, hle⟩ := findHeap_some hfind
        have hcall := PoolCall.front hr hfind (mem_slots_of_wide hi hlt) hg hle
        exact (congrArg (PoolCall m r) map_bind_front).mpr hcall
      | none =>
        rw [ok_bind]
        dsimp only
        by_cases hg : r.granted = false
        · rw [if_pos hg]
          exact PoolCall.same
        · rw [if_neg hg]
          by_cases hdvd : r.size % 0x1000 ≠ 0
          · rw [if_pos hdvd]
            have hcreates : m.createsHeap r = true := by
              simp [HeapMemory.createsHeap, hr, hfind, Bool.eq_true_of_not_eq_false hg, hdvd]
            exact (congrArg (PoolCall m r) map_bind_created).mpr
              (PoolCall.fresh hcreates (remainder_ne_zero hbound hdvd))
          · rw [if_neg hdvd]
            exact PoolCall.same

end Pool

end DevOs.Heap
