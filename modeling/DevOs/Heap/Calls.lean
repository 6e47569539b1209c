import DevOs.Heap.Tree
import DevOs.Lib.Maxima

/-!
# What the calls do to the tree

`CreateHeap` stores a segment in the first free slot of the list it picked, and then looks at the
caches. `AllocatePoolEx` takes the front of a cached segment, frees the slot of a segment used up,
and then computes the caches of that list and of its tree anew.
-/

namespace DevOs.Heap

open Bitmaps Maxima Runs

variable {m m' : HeapMemory} {t u i j k c l x : ℕ}

def MemoryTreeItem.cache (item : MemoryTreeItem) : Option (ℕ × ℕ) × Option ℕ × ℕ :=
  (item.largestHeap, item.listHeadLargestHeap, item.indexLargestHeap)

def SameCaches (m m' : HeapMemory) : Prop :=
  ∀ t i, ((m'.trees t).childs i).cache = ((m.trees t).childs i).cache

def SameLocks (m m' : HeapMemory) : Prop :=
  ∀ i, ((m'.trees 0).childs i).lockMutex = ((m.trees 0).childs i).lockMutex

/-- The counts and the marks of the trees are the same. -/
structure SameCounts (m m' : HeapMemory) : Prop where
  fullSlots : ∀ t, (m'.trees t).fullSlots = (m.trees t).fullSlots
  fullCount : ∀ t, (m'.trees t).fullSlotCount = (m.trees t).fullSlotCount
  presentCount : ∀ t, (m'.trees t).presentSlotCount = (m.trees t).presentSlotCount

theorem SameCounts.of_trees {m₁ m₂ m₃ : HeapMemory} (h : m₂.trees = m₁.trees)
    (h' : SameCounts m₂ m₃) :
    SameCounts m₁ m₃ :=
  ⟨fun t => by rw [h'.fullSlots, h], fun t => by rw [h'.fullCount, h], fun t => by
    rw [h'.presentCount, h]⟩

theorem SameCounts.trans {m₁ m₂ m₃ : HeapMemory} (h : SameCounts m₁ m₂) (h' : SameCounts m₂ m₃) :
    SameCounts m₁ m₃ :=
  ⟨fun t => (h'.fullSlots t).trans (h.fullSlots t), fun t => (h'.fullCount t).trans (h.fullCount t),
    fun t => (h'.presentCount t).trans (h.presentCount t)⟩

theorem SameCaches.trans {m₁ m₂ m₃ : HeapMemory} (h : SameCaches m₁ m₂) (h' : SameCaches m₂ m₃) :
    SameCaches m₁ m₃ := fun t i => (h' t i).trans (h t i)

theorem SameCaches.largestHeap (h : SameCaches m m') (t i : ℕ) :
    ((m'.trees t).childs i).largestHeap = ((m.trees t).childs i).largestHeap :=
  congrArg Prod.fst (h t i)

theorem SameCaches.listHead (h : SameCaches m m') (t i : ℕ) :
    ((m'.trees t).childs i).listHeadLargestHeap = ((m.trees t).childs i).listHeadLargestHeap :=
  congrArg (fun p => p.2.1) (h t i)

theorem SameCaches.index (h : SameCaches m m') (t i : ℕ) :
    ((m'.trees t).childs i).indexLargestHeap = ((m.trees t).childs i).indexLargestHeap :=
  congrArg (fun p => p.2.2) (h t i)

theorem UnlockedBut.congr {o : Option ℕ} (hu : UnlockedBut m o) (h : SameLocks m m') :
    UnlockedBut m' o :=
  fun k hk => (h k).trans (hu k hk)

theorem childs_setTree {tree : FreeMemoryTree} (h : tree.childs = (m.trees t).childs) :
    ((m.setTree t tree).trees u).childs = (m.trees u).childs := by
  rw [trees_setTree]
  split
  · rename_i hu
    rw [h, hu]
  · rfl

theorem sameCaches_of_childs (h : ∀ t, (m'.trees t).childs = (m.trees t).childs) :
    SameCaches m m' :=
  fun t i => by rw [h t]

theorem sameLocks_of_childs (h : ∀ t, (m'.trees t).childs = (m.trees t).childs) : SameLocks m m' :=
  fun i => by rw [h 0]

section Items

variable {item : MemoryTreeItem}

theorem childs_setItem : ((m.setItem t i item).trees u).childs k =
    if u = t ∧ k = i then item else (m.trees u).childs k := by
  rw [trees_setItem]
  by_cases hu : u = t
  · rw [if_pos hu, childs_setChild, hu]
    simp
  · rw [if_neg hu, if_neg fun h => hu h.1]

theorem sameCounts_setItem : SameCounts m (m.setItem t i item) := by
  refine ⟨fun u => ?_, fun u => ?_, fun u => ?_⟩ <;> rw [trees_setItem] <;> split
  all_goals first | rfl | (rename_i h; rw [h]; rfl)

theorem sameCounts_setLock (m : HeapMemory) (t i : ℕ) (b : Bool) : SameCounts m (setLock m t i b) :=
  sameCounts_setItem

theorem sameLocks_setItem (h : item.lockMutex = ((m.trees t).childs i).lockMutex) :
    SameLocks m (m.setItem t i item) := by
  intro k
  rw [childs_setItem]
  split
  · rename_i hk
    rw [h, hk.1, hk.2]
  · rfl

theorem sameCaches_setItem (h : item.cache = ((m.trees t).childs i).cache) :
    SameCaches m (m.setItem t i item) := by
  intro u k
  rw [childs_setItem]
  split
  · rename_i hk
    rw [h, hk.1, hk.2]
  · rfl

end Items

theorem sameCaches_locked (m : HeapMemory) (t i : ℕ) : SameCaches m (locked m t i) := by
  rw [locked]
  split
  · exact sameCaches_setItem rfl
  · exact fun _ _ => rfl

theorem sameCounts_locked (m : HeapMemory) (t i : ℕ) : SameCounts m (locked m t i) := by
  rw [locked]
  split
  · exact sameCounts_setItem
  · exact ⟨fun _ => rfl, fun _ => rfl, fun _ => rfl⟩

theorem listHeads_locked (m : HeapMemory) (t i : ℕ) : (locked m t i).listHeads = m.listHeads := by
  rw [locked]
  split <;> rfl

section TrackFull

/-- The slot `j` of the tree is marked as full and counted. -/
def mark (m : HeapMemory) (t j : ℕ) : HeapMemory :=
  m.setTree t { m.trees t with
    fullSlotCount := ((m.trees t).fullSlotCount + 1) % 256
    fullSlots := Bitmaps.set (m.trees t).fullSlots j }

theorem childs_mark (m : HeapMemory) (t j u : ℕ) :
    ((mark m t j).trees u).childs = (m.trees u).childs := by
  rw [mark]
  exact childs_setTree rfl

theorem sameLinks_mark (m : HeapMemory) (t j : ℕ) : SameLinks m (mark m t j) :=
  sameLinks_setTree rfl rfl rfl rfl fun _ => rfl

theorem trackFull_of_ne (h : k ≠ maxSlots) : trackFull m t j k = m := if_neg h

theorem trackFull_full : trackFull m t j maxSlots =
    if ((mark m t j).trees t).fullSlotCount = maxSlots then mark (mark m t j) 0 j else mark m t j :=
  rfl

theorem listHeads_trackFull : (trackFull m t j k).listHeads = m.listHeads := by
  by_cases hk : k = maxSlots
  · rw [hk, trackFull_full]
    split <;> rfl
  · rw [trackFull_of_ne hk]

theorem childs_trackFull : ((trackFull m t j k).trees u).childs = (m.trees u).childs := by
  by_cases hk : k = maxSlots
  · rw [hk, trackFull_full]
    split
    · rw [childs_mark, childs_mark]
    · rw [childs_mark]
  · rw [trackFull_of_ne hk]

theorem sameLinks_trackFull : SameLinks m (trackFull m t j k) := by
  by_cases hk : k = maxSlots
  · rw [hk, trackFull_full]
    split
    · exact (sameLinks_mark m t j).trans (sameLinks_mark _ 0 j)
    · exact sameLinks_mark m t j
  · rw [trackFull_of_ne hk]
    exact SameLinks.refl m

theorem trees_trackFull_setListHead (head : SegmentListHead) :
    (trackFull (m.setListHead l head) t j k).trees = (trackFull m t j k).trees := by
  by_cases hk : k = maxSlots
  · rw [hk, trackFull_full, trackFull_full]
    have hmark : (mark (m.setListHead l head) t j).trees = (mark m t j).trees := rfl
    rw [hmark]
    split <;> rfl
  · rw [trackFull_of_ne hk, trackFull_of_ne hk]
    rfl

end TrackFull

section Stored

/-- The memory of `CreateHeap` when the slot `x` of the list holds the new segment, before the
caches. -/
def stored (m : HeapMemory) (i t j l x address heapLength : ℕ) : HeapMemory :=
  let head := m.listHeads l
  let numUsedSlots := (head.numUsedSlots + 1) % 256
  let m := m.setListHead l { head with
    usedSlots := Bitmaps.set head.usedSlots x, numUsedSlots := numUsedSlots }
  let m := trackFull m t j numUsedSlots
  let m := setLock m 0 i false
  m.setSegment (l, x) { m.segment (l, x) with address := address, heapLength := heapLength }

variable {address heapLength : ℕ}

theorem placeHeap_cons {xs : List ℕ}
    (h : (slots fun y => ~~~(m.listHeads l).usedSlots y) = x :: xs) :
    placeHeap m i t j l address heapLength =
      .ok (cacheHeap (stored m i t j l x address heapLength) i t j l x heapLength) := by
  rw [placeHeap, h]
  rfl

theorem placeHeap_nil (h : (slots fun y => ~~~(m.listHeads l).usedSlots y) = []) :
    placeHeap m i t j l address heapLength = .error .sod := by
  rw [placeHeap, h]

theorem childs_stored : ((stored m i t j l x address heapLength).trees u).childs k =
    if u = 0 ∧ k = i then { (m.trees 0).childs i with lockMutex := false }
      else (m.trees u).childs k := by
  rw [stored, trees_setSegment, setLock, childs_setItem, childs_trackFull, childs_trackFull]
  rfl

theorem sameCaches_stored : SameCaches m (stored m i t j l x address heapLength) := by
  intro u k
  rw [childs_stored]
  split
  · rename_i h
    rw [h.1, h.2]
    rfl
  · rfl

theorem unlocked_stored (h : UnlockedBut m (some i)) :
    UnlockedBut (stored m i t j l x address heapLength) none := by
  intro k _
  rw [childs_stored]
  split
  · rfl
  · rename_i hk
    exact h k fun he => hk ⟨rfl, Option.some.inj he⟩

theorem listHeads_stored : (stored m i t j l x address heapLength).listHeads u =
    if u = l then { m.listHeads l with
      usedSlots := Bitmaps.set (m.listHeads l).usedSlots x
      numUsedSlots := ((m.listHeads l).numUsedSlots + 1) % 256
      memorySegments := Function.update (m.listHeads l).memorySegments x
        { m.segment (l, x) with address := address, heapLength := heapLength } }
    else m.listHeads u := by
  have hlocked (b : Bool) (n : HeapMemory) : (setLock n 0 i b).listHeads = n.listHeads := rfl
  rw [stored, HeapMemory.setSegment, listHeads_setListHead]
  dsimp only
  by_cases hu : u = l
  · rw [if_pos hu, if_pos hu, hlocked, listHeads_trackFull, listHeads_setListHead, if_pos rfl,
      HeapMemory.segment, hlocked, listHeads_trackFull, listHeads_setListHead, if_pos rfl]
    rfl
  · rw [if_neg hu, if_neg hu, hlocked, listHeads_trackFull, listHeads_setListHead, if_neg hu]

theorem segment_stored (h : ℕ × ℕ) : (stored m i t j l x address heapLength).segment h =
    if h = (l, x) then { m.segment (l, x) with address := address, heapLength := heapLength }
    else m.segment h := by
  obtain ⟨a, y⟩ := h
  rw [HeapMemory.segment, listHeads_stored]
  by_cases ha : a = l
  · subst ha
    rw [if_pos rfl]
    change Function.update (m.listHeads a).memorySegments x _ y = _
    rw [Function.update_apply]
    by_cases hy : y = x
    · rw [if_pos hy, if_pos (by rw [hy])]
    · rw [if_neg hy, if_neg fun he => hy (Prod.mk.inj he).2]
      rfl
  · rw [if_neg ha, if_neg fun he => ha (Prod.mk.inj he).1]
    rfl

theorem sameLinks_stored : SameLinks m (stored m i t j l x address heapLength) := by
  have hused : SameLinks m (m.setListHead l { m.listHeads l with
      usedSlots := Bitmaps.set (m.listHeads l).usedSlots x
      numUsedSlots := ((m.listHeads l).numUsedSlots + 1) % 256 }) :=
    sameLinks_setListHead rfl rfl fun _ => rfl
  have hmarked := hused.trans
    (sameLinks_trackFull (t := t) (j := j) (k := ((m.listHeads l).numUsedSlots + 1) % 256))
  exact (hmarked.trans (sameLinks_setLock _ 0 i false)).trans (sameLinks_setSegment rfl)

theorem sameCounts_stored : SameCounts (trackFull m t j (((m.listHeads l).numUsedSlots + 1) % 256))
    (stored m i t j l x address heapLength) := by
  have h := sameCounts_setLock (trackFull (m.setListHead l { m.listHeads l with
    usedSlots := Bitmaps.set (m.listHeads l).usedSlots x
    numUsedSlots := ((m.listHeads l).numUsedSlots + 1) % 256 }) t j
      (((m.listHeads l).numUsedSlots + 1) % 256)) 0 i false
  exact SameCounts.of_trees (trees_trackFull_setListHead _)
    ⟨h.fullSlots, h.fullCount, h.presentCount⟩

end Stored

/-- Nothing but cached segments changes. -/
structure OnlyCaches (m m' : HeapMemory) : Prop where
  links : SameLinks m m'
  counts : SameCounts m m'
  locks : SameLocks m m'
  lists : m'.listHeads = m.listHeads

theorem OnlyCaches.refl (m : HeapMemory) : OnlyCaches m m :=
  ⟨SameLinks.refl m, ⟨fun _ => rfl, fun _ => rfl, fun _ => rfl⟩, fun _ => rfl, rfl⟩

theorem OnlyCaches.trans {m₁ m₂ m₃ : HeapMemory} (h : OnlyCaches m₁ m₂) (h' : OnlyCaches m₂ m₃) :
    OnlyCaches m₁ m₃ :=
  ⟨h.links.trans h'.links, h.counts.trans h'.counts, fun i => (h'.locks i).trans (h.locks i),
    h'.lists.trans h.lists⟩

theorem onlyCaches_setItem {item : MemoryTreeItem}
    (hchild : item.child = ((m.trees t).childs i).child)
    (hlock : item.lockMutex = ((m.trees t).childs i).lockMutex) :
    OnlyCaches m (m.setItem t i item) :=
  ⟨sameLinks_setItem hchild, sameCounts_setItem, sameLocks_setItem hlock, rfl⟩

section Cache

def recordList (m : HeapMemory) (t j l x : ℕ) : HeapMemory :=
  m.setItem t j { (m.trees t).childs j with largestHeap := some (l, x) }

def recordTree (m : HeapMemory) (i l x : ℕ) : HeapMemory :=
  m.setItem 0 i { (m.trees 0).childs i with
    largestHeap := some (l, x), indexLargestHeap := x % 256, listHeadLargestHeap := some l }

theorem cacheHeap_eq (heapLength : ℕ) : cacheHeap m i t j l x heapLength =
    if smaller m ((m.trees t).childs j).largestHeap heapLength then
      if smaller (recordList m t j l x)
        (((recordList m t j l x).trees 0).childs i).largestHeap heapLength then
        recordTree (recordList m t j l x) i l x
      else recordList m t j l x
    else m :=
  rfl

theorem onlyCaches_cacheHeap (heapLength : ℕ) :
    OnlyCaches m (cacheHeap m i t j l x heapLength) := by
  have hlist : OnlyCaches m (recordList m t j l x) := onlyCaches_setItem rfl rfl
  rw [cacheHeap_eq]
  split
  · split
    · exact hlist.trans (onlyCaches_setItem rfl rfl)
    · exact hlist
  · exact OnlyCaches.refl m

theorem childs_cacheHeap_of_ne {heapLength : ℕ} (hroot : ¬(u = 0 ∧ k = i))
    (htree : ¬(u = t ∧ k = j)) :
    ((cacheHeap m i t j l x heapLength).trees u).childs k = (m.trees u).childs k := by
  have hlist : ((recordList m t j l x).trees u).childs k = (m.trees u).childs k := by
    rw [recordList, childs_setItem, if_neg htree]
  rw [cacheHeap_eq]
  split
  · split
    · rw [recordTree, childs_setItem, if_neg hroot, hlist]
    · exact hlist
  · rfl

/-- The caches after the scans of `SetLargestHeap`. -/
def recached (m : HeapMemory) (i t j : ℕ) (d e : Largest) : HeapMemory :=
  let m :=
    m.setItem t j { (m.trees t).childs j with largestHeap := d.heap, indexLargestHeap := d.indx }
  m.setItem 0 i { (m.trees 0).childs i with
    indexLargestHeap := e.indx, largestHeap := e.heap, listHeadLargestHeap := e.listHead }

theorem onlyCaches_recached (m : HeapMemory) (i t j : ℕ) (d e : Largest) :
    OnlyCaches m (recached m i t j d e) := by
  have hlist : OnlyCaches m (m.setItem t j { (m.trees t).childs j with
    largestHeap := d.heap, indexLargestHeap := d.indx }) := onlyCaches_setItem rfl rfl
  rw [recached]
  exact hlist.trans (onlyCaches_setItem rfl rfl)

theorem childs_recached (m : HeapMemory) (i t j : ℕ) (d e : Largest) (ht : t ≠ 0) :
    ((recached m i t j d e).trees u).childs k =
      if u = 0 ∧ k = i then { (m.trees 0).childs i with
        indexLargestHeap := e.indx, largestHeap := e.heap, listHeadLargestHeap := e.listHead }
      else if u = t ∧ k = j then { (m.trees t).childs j with
        largestHeap := d.heap, indexLargestHeap := d.indx }
      else (m.trees u).childs k := by
  rw [recached, childs_setItem, childs_setItem, childs_setItem,
    if_neg fun h : 0 = t ∧ i = j => ht h.1.symm]

end Cache

section Release

theorem bind_of_eq {α β : Type} {e : Except Fault α} {a : α} (h : e = .ok a)
    (f : α → Except Fault β) :
    (e >>= f) = f a := by
  rw [h]
  rfl

/-- The slot `j` of the tree is no longer marked as full. -/
def unmark (m : HeapMemory) (t j : ℕ) : HeapMemory :=
  m.setTree t { m.trees t with
    fullSlots := Bitmaps.clear (m.trees t).fullSlots j
    fullSlotCount := if bit (m.trees t).fullSlots j then ((m.trees t).fullSlotCount + 255) % 256
      else (m.trees t).fullSlotCount }

/-- The slot `x` of the list is no longer used. -/
def slotFreed (m : HeapMemory) (l x : ℕ) : HeapMemory :=
  m.setListHead l { m.listHeads l with
    usedSlots := Bitmaps.clear (m.listHeads l).usedSlots x
    numUsedSlots := ((m.listHeads l).numUsedSlots + 255) % 256 }

def released (m : HeapMemory) (i t j l x : ℕ) : HeapMemory :=
  if bit (m.trees t).fullSlots j then unmark (unmark (slotFreed m l x) t j) 0 i
    else unmark (slotFreed m l x) t j

theorem childs_unmark (m : HeapMemory) (t j u : ℕ) :
    ((unmark m t j).trees u).childs = (m.trees u).childs := by
  rw [unmark]
  exact childs_setTree rfl

theorem sameLinks_unmark (m : HeapMemory) (t j : ℕ) : SameLinks m (unmark m t j) :=
  sameLinks_setTree rfl rfl rfl rfl fun _ => rfl

theorem sameLinks_slotFreed (m : HeapMemory) (l x : ℕ) : SameLinks m (slotFreed m l x) :=
  sameLinks_setListHead rfl rfl fun _ => rfl

theorem childs_released : ((released m i t j l x).trees u).childs = (m.trees u).childs := by
  rw [released]
  split
  · rw [childs_unmark, childs_unmark]
    rfl
  · rw [childs_unmark]
    rfl

theorem sameLinks_released : SameLinks m (released m i t j l x) := by
  have hone := (sameLinks_slotFreed m l x).trans (sameLinks_unmark _ t j)
  rw [released]
  split
  · exact hone.trans (sameLinks_unmark _ 0 i)
  · exact hone

theorem listHeads_released : (released m i t j l x).listHeads = (slotFreed m l x).listHeads := by
  rw [released]
  split <;> rfl

theorem unmark_of_not (h : bit (m.trees t).fullSlots j = false) :
    m.setTree t { m.trees t with fullSlots := Bitmaps.clear (m.trees t).fullSlots j } =
      unmark m t j := by
  rw [unmark, h]
  rfl

theorem unmark_of_bit {tree : FreeMemoryTree} (htree : m.trees t = tree)
    (h : bit tree.fullSlots j = true) {full : FreeMemoryTree}
    (hfull : full = { tree with fullSlots := Bitmaps.clear tree.fullSlots j }) :
    (m.setTree t full).setTree t { (m.setTree t full).trees t with
      fullSlotCount := (tree.fullSlotCount + 255) % 256 } = unmark m t j := by
  subst htree hfull
  rw [unmark, h, HeapMemory.setTree, HeapMemory.setTree, HeapMemory.setTree]
  simp only [Function.update_self, Function.update_idem, if_true]

variable {item : MemoryTreeItem}

theorem freeSlot_eq (hm : Linked m) (ht : ChildAt (m.trees 0) i t) (hl : ChildAt (m.trees t) j l)
    (hx : x < 128) (hhead : item.listHeadLargestHeap = some l)
    (hindex : item.indexLargestHeap = x) :
    freeSlot m item = .ok (released m i t j l x) := by
  obtain ⟨hpos, -, hparent, hi⟩ := hm.tree ht
  obtain ⟨-, hlparent, hj⟩ := hm.list ht hl
  have hlist : deref item.listHeadLargestHeap = .ok l := congrArg deref hhead
  have hused : resetSlot (m.listHeads l).usedSlots (item.indexLargestHeap / 128)
    (item.indexLargestHeap % 128) =
      .ok (bit (m.listHeads l).usedSlots x, Bitmaps.clear (m.listHeads l).usedSlots x) := by
    rw [hindex, resetSlot_of_lt hx]
  have htree : deref (m.listHeads l).parent = .ok t := congrArg deref hlparent
  have hfull : resetSlot (m.trees t).fullSlots ((m.listHeads l).parentItemIndex / 128)
      ((m.listHeads l).parentItemIndex % 128) =
      .ok (bit (m.trees t).fullSlots j, Bitmaps.clear (m.trees t).fullSlots j) := by
    rw [hj, resetSlot_of_lt (lt_of_mem_slots hl.1)]
  have hroot : deref (m.trees t).parent = .ok 0 := congrArg deref hparent
  rw [freeSlot, released]
  refine (bind_of_eq hlist _).trans ?_
  refine (bind_of_eq hused _).trans ?_
  refine (bind_of_eq htree _).trans ?_
  refine (bind_of_eq hfull _).trans ?_
  by_cases hmark : bit (m.trees t).fullSlots j = true
  · have hunmark := unmark_of_bit (m := slotFreed m l x) rfl hmark rfl
    have hup : resetSlot ((unmark (slotFreed m l x) t j).trees 0).fullSlots
      ((m.trees t).parentItemIndex / 128)
        ((m.trees t).parentItemIndex % 128) =
        .ok (bit ((unmark (slotFreed m l x) t j).trees 0).fullSlots i,
          Bitmaps.clear ((unmark (slotFreed m l x) t j).trees 0).fullSlots i) := by
      rw [hi, resetSlot_of_lt (lt_of_mem_slots ht.1)]
    rw [if_pos hmark]
    refine (if_pos hmark).trans ?_
    refine (bind_of_eq hroot _).trans ?_
    rw [← hunmark] at hup ⊢
    refine (bind_of_eq hup _).trans ?_
    dsimp only
    split
    · rename_i hbit
      exact congrArg Except.ok (unmark_of_bit rfl hbit rfl)
    · rename_i hbit
      exact congrArg Except.ok (unmark_of_not (Bool.eq_false_iff.mpr hbit))
  · rw [if_neg hmark]
    refine (if_neg hmark).trans ?_
    exact congrArg Except.ok (unmark_of_not (m := slotFreed m l x) (Bool.eq_false_iff.mpr hmark))

end Release

end DevOs.Heap
