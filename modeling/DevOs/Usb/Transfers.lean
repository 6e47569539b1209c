import DevOs.Usb.Schedule
import Mathlib.Data.Fintype.Card

/-!
# The transfers of an asynchronous queue

The transfers of a queue are in a list through `NextTransfer`, and their descriptors are in a ring
through `NextQtdPointer`, whose last one leads back to the first. `OpenAsyncTransfer` puts a
transfer behind the last one. `EhciRunQueue` waits for the transfers of the list in turn. A transfer
is never given back, also not when its queue is closed.
-/

namespace DevOs.Usb

open DevOs.Runs DevOs.Threads

abbrev ehciMaxQtd : ℕ := 0x200

/-- `(UINT32)(UINT64)Qtd`, for the descriptor at `EHCI_QTD_START + i * EHCI_ALIGNED_QTD_SIZE`. -/
def AssignedMemory.qtd (m : AssignedMemory) (i : Fin ehciMaxQtd) : ℕ :=
  (m.start + 0x7000 + i * 0x40) % 2 ^ 32

/-- `EHCI_ASYNC_TRANSFER`, with the links of its descriptor. -/
structure AsyncTransfer where
  present : Bool
  asyncQueue : Option (Fin ehciMaxQh)
  nextTransfer : Option (Fin ehciMaxQtd)
  nextQtdPointer : ℕ
  alternateNextQtdPointer : ℕ
deriving DecidableEq

/-- The fields of `EHCI_ASYNC_QUEUE` for its transfers, and `NextQtdPointer` of the overlay of its
queue head. -/
structure TransferQueue where
  firstTransfer : Option (Fin ehciMaxQtd)
  lastTransfer : Option (Fin ehciMaxQtd)
  nextQtdPointer : ℕ
deriving DecidableEq

/-- `opened` lists the transfers that were opened on a queue since it was closed last. It is never
read. -/
structure TransferState where
  asyncTransfers : Fin ehciMaxQtd → AsyncTransfer
  queues : Fin ehciMaxQh → TransferQueue
  opened : Fin ehciMaxQh → List (Fin ehciMaxQtd)

namespace TransferState

def next (s : TransferState) (i : Fin ehciMaxQtd) : Option (Fin ehciMaxQtd) :=
  (s.asyncTransfers i).nextTransfer

def link (s : TransferState) (i : Fin ehciMaxQtd) : ℕ := (s.asyncTransfers i).nextQtdPointer

def setTransfer (s : TransferState) (i : Fin ehciMaxQtd) (t : AsyncTransfer) : TransferState :=
  { s with asyncTransfers := Function.update s.asyncTransfers i t }

def setQueue (s : TransferState) (q : Fin ehciMaxQh) (t : TransferQueue) : TransferState :=
  { s with queues := Function.update s.queues q t }

def note (s : TransferState) (q : Fin ehciMaxQh) (l : List (Fin ehciMaxQtd)) : TransferState :=
  { s with opened := Function.update s.opened q l }

end TransferState

/-- The fields that `OpenAsyncTransfer` writes to a transfer and its descriptor before it is
linked. -/
def openedTransfer (t : AsyncTransfer) (q : Fin ehciMaxQh) : AsyncTransfer :=
  { t with
    present := true, asyncQueue := some q, nextQtdPointer := 1, alternateNextQtdPointer := 1 }

/-- The state when the transfer `i` is the first one of its queue. -/
def openFirst (m : AssignedMemory) (s : TransferState) (q : Fin ehciMaxQh) (i : Fin ehciMaxQtd) :
    TransferState :=
  let s := s.setTransfer i (openedTransfer (s.asyncTransfers i) q)
  let s := s.setTransfer i { s.asyncTransfers i with nextQtdPointer := m.qtd i }
  (s.setQueue q ⟨some i, some i, m.qtd i⟩).note q (s.opened q ++ [i])

/-- The state when the transfer `i` is put behind the transfer `last`. -/
def openBehind (m : AssignedMemory) (s : TransferState) (q : Fin ehciMaxQh)
    (i first last : Fin ehciMaxQtd) :
    TransferState :=
  let s := s.setTransfer i (openedTransfer (s.asyncTransfers i) q)
  let s := s.setTransfer last { s.asyncTransfers last with nextTransfer := some i }
  let s := s.setTransfer i { s.asyncTransfers i with nextQtdPointer := m.qtd first }
  let s := s.setTransfer last { s.asyncTransfers last with nextQtdPointer := m.qtd i }
  (s.setQueue q { s.queues q with lastTransfer := some i }).note q (s.opened q ++ [i])

/-- `OpenAsyncTransfer`. There is no result when a field of NULL is accessed. -/
def openAsyncTransfer (m : AssignedMemory) (s : TransferState) (q : Fin ehciMaxQh) :
    Option (TransferState × Option (Fin ehciMaxQtd)) :=
  match (List.finRange ehciMaxQtd).find? fun i => !(s.asyncTransfers i).present with
  | none => some (s, none)
  | some i =>
    match (s.queues q).firstTransfer with
    | none => some (openFirst m s q i, some i)
    | some first => (s.queues q).lastTransfer.map fun last =>
        (openBehind m s q i first last, some i)

/-- The loop of `EhciRunQueue`: the transfers that it waits for, one after the other. -/
def runLoop (s : TransferState) : ℕ → Option (Fin ehciMaxQtd) → Option (List (Fin ehciMaxQtd))
  | 0, _ => none
  | _ + 1, none => some []
  | fuel + 1, some i => (runLoop s fuel (s.next i)).map (i :: ·)

/-- `EhciRunQueue`. Without a transfer it returns `USB_STATUS_INVALID_PARAMETER`, which is the
result `none` inside. -/
def ehciRunQueue (m : AssignedMemory) (s : TransferState) (q : Fin ehciMaxQh) (fuel : ℕ) :
    Option (TransferState × Option (List (Fin ehciMaxQtd))) :=
  match (s.queues q).firstTransfer with
  | none => some (s, none)
  | some first =>
    (runLoop s fuel (some first)).map fun l =>
      (s.setQueue q { s.queues q with nextQtdPointer := m.qtd first }, some l)

/-- `closeQueue` is what `EhciCloseAsyncQueue` does to the queue and its head, `openQueue` what
`EhciOpenAsyncQueue` does to the overlay. -/
inductive TransferCall where
  | openQueue (q : Fin ehciMaxQh)
  | closeQueue (q : Fin ehciMaxQh)
  | openAsyncTransfer (q : Fin ehciMaxQh)
  | ehciRunQueue (q : Fin ehciMaxQh)
deriving DecidableEq

def transferStep (m : AssignedMemory) (s : TransferState) : TransferCall → Option TransferState
  | .openQueue q => some (s.setQueue q { s.queues q with nextQtdPointer := 1 })
  | .closeQueue q => some ((s.setQueue q ⟨none, none, 0⟩).note q [])
  | .openAsyncTransfer q => (openAsyncTransfer m s q).map Prod.fst
  | .ehciRunQueue q => (ehciRunQueue m s q (ehciMaxQtd + 1)).map Prod.fst

/-- `ObjZeroMemory` of the device. -/
def TransferState.initial : TransferState where
  asyncTransfers := fun _ => ⟨false, none, none, 0, 0⟩
  queues := fun _ => ⟨none, none, 0⟩
  opened := fun _ => []

variable {m : AssignedMemory} {s t : TransferState} {q : Fin ehciMaxQh} {i z : Fin ehciMaxQtd}
  {l : List (Fin ehciMaxQtd)}

/-- The lists and rings have the transfers that were opened, in their order. -/
structure Rings (m : AssignedMemory) (s : TransferState) : Prop where
  first : ∀ q, (s.queues q).firstTransfer = (s.opened q).head?
  last : ∀ q, (s.queues q).lastTransfer = (s.opened q).getLast?
  list : ∀ q, Thread (fun u a => u = some a) (· = none) s.next (s.opened q).head? (s.opened q)
  ring : ∀ q f l, s.opened q = f :: l →
    Thread (fun w a => w = m.qtd a) (· = m.qtd f) s.link (m.qtd f) (f :: l)
  owned : ∀ q, ∀ i ∈ s.opened q, (s.asyncTransfers i).present = true ∧
    (s.asyncTransfers i).asyncQueue = some q
  nodup : ∀ q, (s.opened q).Nodup
  fresh : ∀ i, (s.asyncTransfers i).present = false → s.next i = none

theorem rings_initial (m : AssignedMemory) : Rings m .initial where
  first := fun _ => rfl
  last := fun _ => rfl
  list := fun _ => ⟨none, rfl, rfl⟩
  ring := fun _ _ _ h => (List.cons_ne_nil _ _ h.symm).elim
  owned := fun _ _ h => absurd h List.not_mem_nil
  nodup := fun _ => List.nodup_nil
  fresh := fun _ _ => rfl

theorem asyncTransfers_setTransfer (s : TransferState) (i j : Fin ehciMaxQtd) (x : AsyncTransfer) :
    (s.setTransfer i x).asyncTransfers j = if j = i then x else s.asyncTransfers j := by
  simp only [TransferState.setTransfer, Function.update_apply]

/-- What a call of `OpenAsyncTransfer` does that takes the transfer `i` for the queue `q`. -/
structure Opens (m : AssignedMemory) (s : TransferState) (q : Fin ehciMaxQh) (i : Fin ehciMaxQtd)
    (t : TransferState) : Prop where
  absent : (s.asyncTransfers i).present = false
  present : (t.asyncTransfers i).present = true ∧ (t.asyncTransfers i).asyncQueue = some q
  kept : ∀ j, j ≠ i → (t.asyncTransfers j).present = (s.asyncTransfers j).present ∧
    (t.asyncTransfers j).asyncQueue = (s.asyncTransfers j).asyncQueue
  others : ∀ j, j ≠ i → (s.opened q).getLast? ≠ some j → t.next j = s.next j ∧ t.link j = s.link j
  next : t.next i = s.next i
  link : t.link i = m.qtd ((s.opened q).headD i)
  before : ∀ z, (s.opened q).getLast? = some z → t.next z = some i ∧ t.link z = m.qtd i
  opened : ∀ r, t.opened r = if r = q then s.opened q ++ [i] else s.opened r
  queue : ∀ r, ((t.queues r).firstTransfer, (t.queues r).lastTransfer) =
    if r = q then (some ((s.opened q).headD i), some i)
    else ((s.queues r).firstTransfer, (s.queues r).lastTransfer)

theorem queues_setQueue (s : TransferState) (q r : Fin ehciMaxQh) (x : TransferQueue) :
    (s.setQueue q x).queues r = if r = q then x else s.queues r := by
  simp only [TransferState.setQueue, Function.update_apply]

theorem opened_note (s : TransferState) (q r : Fin ehciMaxQh) (l : List (Fin ehciMaxQtd)) :
    (s.note q l).opened r = if r = q then l else s.opened r := by
  simp only [TransferState.note, Function.update_apply]

theorem openFirst_transfers (m : AssignedMemory) (s : TransferState) (q : Fin ehciMaxQh)
    (i j : Fin ehciMaxQtd) :
    (openFirst m s q i).asyncTransfers j =
      if j = i then { openedTransfer (s.asyncTransfers i) q with nextQtdPointer := m.qtd i }
      else s.asyncTransfers j := by
  unfold openFirst
  change ((s.setTransfer i _).setTransfer i _).asyncTransfers j = _
  rw [asyncTransfers_setTransfer, asyncTransfers_setTransfer, asyncTransfers_setTransfer,
    if_pos rfl]
  split_ifs
  · rfl
  · rfl

theorem openBehind_transfers (m : AssignedMemory) (s : TransferState) (q : Fin ehciMaxQh)
    {i last : Fin ehciMaxQtd} (first j : Fin ehciMaxQtd) (hne : i ≠ last) :
    (openBehind m s q i first last).asyncTransfers j =
      if j = last then { s.asyncTransfers last with
        nextTransfer := some i, nextQtdPointer := m.qtd i }
      else if j = i then { openedTransfer (s.asyncTransfers i) q with
        nextQtdPointer := m.qtd first }
      else s.asyncTransfers j := by
  unfold openBehind
  change ((((s.setTransfer i _).setTransfer last _).setTransfer i _).setTransfer last
    _).asyncTransfers j = _
  simp only [asyncTransfers_setTransfer, if_pos, if_neg hne, if_neg hne.symm]
  split_ifs
  · rfl
  · rfl
  · rfl

theorem opens_first (habsent : (s.asyncTransfers i).present = false) (hopened : s.opened q = []) :
    Opens m s q i (openFirst m s q i) where
  absent := habsent
  present := by
    rw [openFirst_transfers, if_pos rfl]
    exact ⟨rfl, rfl⟩
  kept := by
    intro j hj
    rw [openFirst_transfers, if_neg hj]
    exact ⟨rfl, rfl⟩
  others := by
    intro j hj _
    unfold TransferState.next TransferState.link
    rw [openFirst_transfers, if_neg hj]
    exact ⟨rfl, rfl⟩
  next := by
    unfold TransferState.next
    rw [openFirst_transfers, if_pos rfl]
    rfl
  link := by
    unfold TransferState.link
    rw [openFirst_transfers, if_pos rfl, hopened]
    rfl
  before := by
    intro z hz
    rw [hopened] at hz
    exact (Option.some_ne_none z hz.symm).elim
  opened := fun r => opened_note _ q r _
  queue := by
    intro r
    have hqueue : (openFirst m s q i).queues r = if r = q then ⟨some i, some i, m.qtd i⟩
        else s.queues r :=
      queues_setQueue _ q r _
    rw [hqueue, hopened]
    split_ifs
    · rfl
    · rfl

theorem opens_behind {f : Fin ehciMaxQtd} {l : List (Fin ehciMaxQtd)}
    (habsent : (s.asyncTransfers i).present = false) (hz : (s.asyncTransfers z).present = true)
    (hopened : s.opened q = f :: l) (hlast : (s.opened q).getLast? = some z)
    (hfirst : (s.queues q).firstTransfer = some f) : Opens m s q i (openBehind m s q i f z) := by
  have hne : i ≠ z := by
    rintro rfl
    rw [habsent] at hz
    exact Bool.noConfusion hz
  exact {
    absent := habsent
    present := by
      rw [openBehind_transfers m s q f i hne, if_neg hne, if_pos rfl]
      exact ⟨rfl, rfl⟩
    kept := by
      intro j hj
      rw [openBehind_transfers m s q f j hne, if_neg hj]
      split_ifs with hjz
      · rw [hjz]
        exact ⟨rfl, rfl⟩
      · exact ⟨rfl, rfl⟩
    others := by
      intro j hj hjz
      rw [hlast, ne_eq, Option.some.injEq] at hjz
      unfold TransferState.next TransferState.link
      rw [openBehind_transfers m s q f j hne, if_neg (Ne.symm hjz), if_neg hj]
      exact ⟨rfl, rfl⟩
    next := by
      unfold TransferState.next
      rw [openBehind_transfers m s q f i hne, if_neg hne, if_pos rfl]
      rfl
    link := by
      unfold TransferState.link
      rw [openBehind_transfers m s q f i hne, if_neg hne, if_pos rfl, hopened]
      rfl
    before := by
      intro y hy
      rw [hlast, Option.some.injEq] at hy
      subst hy
      unfold TransferState.next TransferState.link
      rw [openBehind_transfers m s q f z hne, if_pos rfl]
      exact ⟨rfl, rfl⟩
    opened := fun r => opened_note _ q r _
    queue := by
      intro r
      have hqueue : (openBehind m s q i f z).queues r =
          if r = q then { s.queues q with lastTransfer := some i } else s.queues r :=
          queues_setQueue _ q r _
      rw [hqueue, hopened]
      split_ifs
      · exact Prod.ext hfirst rfl
      · rfl }

theorem Rings.openAsyncTransfer_cases (h : Rings m s) (q : Fin ehciMaxQh) :
    (openAsyncTransfer m s q = some (s, none) ∧ ∀ i, (s.asyncTransfers i).present = true) ∨
      ∃ i t, openAsyncTransfer m s q = some (t, some i) ∧ Opens m s q i t := by
  unfold openAsyncTransfer
  cases hfree : (List.finRange ehciMaxQtd).find? fun i => !(s.asyncTransfers i).present with
  | none =>
    left
    refine ⟨rfl, fun i => ?_⟩
    have hpresent := List.find?_eq_none.mp hfree i (List.mem_finRange i)
    rwa [Bool.not_eq_true, Bool.not_eq_false'] at hpresent
  | some i =>
    right
    have habsent : (s.asyncTransfers i).present = false := by
      have hfound := List.find?_some hfree
      rwa [Bool.not_eq_true'] at hfound
    have hfirst := h.first q
    have hlast := h.last q
    dsimp only
    cases hopened : s.opened q with
    | nil =>
      rw [hopened] at hfirst
      rw [hfirst]
      exact ⟨i, openFirst m s q i, rfl, opens_first habsent hopened⟩
    | cons f l =>
      obtain ⟨z, hz⟩ : ∃ z, (s.opened q).getLast? = some z := by
        rw [hopened]
        exact ⟨_, List.getLast?_eq_some_getLast (List.cons_ne_nil f l)⟩
      have hpresent := (h.owned q z (List.mem_of_getLast? hz)).1
      rw [hopened] at hfirst
      rw [hz] at hlast
      rw [hfirst, hlast]
      exact ⟨i, openBehind m s q i f z, rfl, opens_behind habsent hpresent hopened hz hfirst⟩

theorem Rings.opens_not_mem (h : Rings m s) (ho : Opens m s q i t) (r : Fin ehciMaxQh) :
    i ∉ s.opened r := by
  intro hmem
  have hpresent := (h.owned r i hmem).1
  rw [ho.absent] at hpresent
  exact Bool.noConfusion hpresent

theorem Rings.opens_other (h : Rings m s) (ho : Opens m s q i t) {r : Fin ehciMaxQh} (hr : r ≠ q)
    {j : Fin ehciMaxQtd} (hj : j ∈ s.opened r) : t.next j = s.next j ∧ t.link j = s.link j := by
  refine ho.others j (fun hji => h.opens_not_mem ho r (hji ▸ hj)) fun hlast => ?_
  have hq := (h.owned q j (List.mem_of_getLast? hlast)).2
  rw [(h.owned r j hj).2, Option.some.injEq] at hq
  exact hr hq

theorem Rings.opens_earlier (h : Rings m s) (ho : Opens m s q i t) (hl : s.opened q = l ++ [z])
    {j : Fin ehciMaxQtd} (hj : j ∈ l) : t.next j = s.next j ∧ t.link j = s.link j := by
  have hmem : j ∈ s.opened q := by
    rw [hl]
    exact List.mem_append_left _ hj
  refine ho.others j (fun hji => h.opens_not_mem ho q (hji ▸ hmem)) fun hlast => ?_
  have hnodup := h.nodup q
  rw [hl, List.getLast?_concat, Option.some.injEq] at hlast
  rw [hl] at hnodup
  exact (List.nodup_append.mp hnodup).2.2 j hj z (List.mem_singleton_self z) hlast.symm

theorem Rings.opens_list (h : Rings m s) (ho : Opens m s q i t) (r : Fin ehciMaxQh) :
    Thread (fun u a => u = some a) (· = none) t.next (t.opened r).head? (t.opened r) := by
  rw [ho.opened]
  split_ifs with hrq
  · have hend : t.next i = none := by
      rw [ho.next]
      exact h.fresh i ho.absent
    rcases List.eq_nil_or_concat (s.opened q) with hnil | ⟨l, z, hl⟩
    · rw [hnil]
      exact ⟨t.next i, ⟨rfl, rfl⟩, hend⟩
    · rw [List.concat_eq_append] at hl
      have hold := h.list q
      have hhead : (l ++ [z] ++ [i]).head? = (l ++ [z]).head? := by
        cases l with
        | nil => rfl
        | cons f l => rfl
      have hlast : (s.opened q).getLast? = some z := by rw [hl, List.getLast?_concat]
      rw [hl] at hold ⊢
      rw [hhead]
      exact hold.snoc (ho.before z hlast).1 hend fun j hj => (h.opens_earlier ho hl hj).1
  · obtain ⟨v, hseg, hv⟩ := h.list r
    exact ⟨v, hseg.congr fun j hj => (h.opens_other ho hrq hj).1, hv⟩

theorem Rings.opens_ring_self (h : Rings m s) (ho : Opens m s q i t) {f : Fin ehciMaxQtd}
    (hr : s.opened q ++ [i] = f :: l) :
    Thread (fun w a => w = m.qtd a) (· = m.qtd f) t.link (m.qtd f) (f :: l) := by
  have hlink := ho.link
  rcases List.eq_nil_or_concat (s.opened q) with hnil | ⟨k, z, hk⟩
  · rw [hnil, List.nil_append, List.cons.injEq] at hr
    obtain ⟨rfl, rfl⟩ := hr
    rw [hnil] at hlink
    exact ⟨t.link i, ⟨rfl, rfl⟩, hlink⟩
  · rw [List.concat_eq_append] at hk
    have hlast : (s.opened q).getLast? = some z := by rw [hk, List.getLast?_concat]
    obtain ⟨g, k', hg⟩ : ∃ g k', s.opened q = g :: k' :=
      List.exists_cons_of_ne_nil (by
        rw [hk]; exact List.append_ne_nil_of_right_ne_nil k (List.cons_ne_nil z []))
    have hold := h.ring q g k' hg
    rw [← hg, hk] at hold
    rw [hg] at hlink
    have hf : f = g := by
      rw [hg, List.cons_append, List.cons.injEq] at hr
      exact hr.1.symm
    rw [← hr, hk, hf]
    exact hold.snoc (ho.before z hlast).2 hlink fun j hj => (h.opens_earlier ho hk hj).2

theorem Rings.opens_ring (h : Rings m s) (ho : Opens m s q i t) (r : Fin ehciMaxQh)
    (f : Fin ehciMaxQtd) (l : List (Fin ehciMaxQtd)) (hr : t.opened r = f :: l) :
    Thread (fun w a => w = m.qtd a) (· = m.qtd f) t.link (m.qtd f) (f :: l) := by
  rw [ho.opened] at hr
  split_ifs at hr with hrq
  · exact h.opens_ring_self ho hr
  · obtain ⟨v, hseg, hv⟩ := h.ring r f l hr
    refine ⟨v, hseg.congr fun j hj => (h.opens_other ho hrq ?_).2, hv⟩
    rw [hr]
    exact hj

theorem Rings.opens_owned (h : Rings m s) (ho : Opens m s q i t) (r : Fin ehciMaxQh)
    (j : Fin ehciMaxQtd) (hj : j ∈ t.opened r) :
    (t.asyncTransfers j).present = true ∧ (t.asyncTransfers j).asyncQueue = some r := by
  rw [ho.opened] at hj
  by_cases hji : j = i
  · subst hji
    split_ifs at hj with hrq
    · rw [hrq]
      exact ho.present
    · exact (h.opens_not_mem ho r hj).elim
  · obtain ⟨hp, ha⟩ := ho.kept j hji
    rw [hp, ha]
    split_ifs at hj with hrq
    · rw [hrq]
      rcases List.mem_append.mp hj with hold | hnew
      · exact h.owned q j hold
      · exact (hji (List.mem_singleton.mp hnew)).elim
    · exact h.owned r j hj

theorem Rings.opens_fresh (h : Rings m s) (ho : Opens m s q i t) (j : Fin ehciMaxQtd)
    (hj : (t.asyncTransfers j).present = false) : t.next j = none := by
  have hji : j ≠ i := by
    rintro rfl
    rw [ho.present.1] at hj
    exact Bool.noConfusion hj
  have hlast : (s.opened q).getLast? ≠ some j := by
    intro hlast
    have hpresent := (h.owned q j (List.mem_of_getLast? hlast)).1
    rw [← (ho.kept j hji).1, hj] at hpresent
    exact Bool.noConfusion hpresent
  rw [(ho.others j hji hlast).1]
  rw [(ho.kept j hji).1] at hj
  exact h.fresh j hj

theorem Rings.of_opens (h : Rings m s) (ho : Opens m s q i t) : Rings m t := by
  refine ⟨fun r => ?_, fun r => ?_, h.opens_list ho, h.opens_ring ho, h.opens_owned ho, fun r => ?_,
    h.opens_fresh ho⟩
  · have hqueue := congrArg Prod.fst (ho.queue r)
    rw [ho.opened]
    split_ifs at hqueue ⊢ with hrq
    all_goals dsimp only at hqueue
    · rw [hqueue]
      cases s.opened q with
      | nil => rfl
      | cons f l => rfl
    · rw [hqueue]
      exact h.first r
  · have hqueue := congrArg Prod.snd (ho.queue r)
    rw [ho.opened]
    split_ifs at hqueue ⊢ with hrq
    all_goals dsimp only at hqueue
    · rw [hqueue, List.getLast?_concat]
    · rw [hqueue]
      exact h.last r
  · rw [ho.opened]
    split_ifs with hrq
    · refine List.nodup_append.mpr ⟨h.nodup q, List.nodup_singleton i, fun a ha b hb hab => ?_⟩
      rw [hab, List.mem_singleton.mp hb] at ha
      exact h.opens_not_mem ho q ha
    · exact h.nodup r

theorem Rings.setQueue (h : Rings m s) {x : TransferQueue}
    (hfirst : x.firstTransfer = (s.queues q).firstTransfer)
    (hlast : x.lastTransfer = (s.queues q).lastTransfer) : Rings m (s.setQueue q x) where
  first := by
    intro r
    rw [queues_setQueue]
    split_ifs with hrq
    · rw [hfirst, hrq]
      exact h.first q
    · exact h.first r
  last := by
    intro r
    rw [queues_setQueue]
    split_ifs with hrq
    · rw [hlast, hrq]
      exact h.last q
    · exact h.last r
  list := h.list
  ring := h.ring
  owned := h.owned
  nodup := h.nodup
  fresh := h.fresh

theorem Rings.close (h : Rings m s) (w : ℕ) :
    Rings m ((s.setQueue q ⟨none, none, w⟩).note q []) where
  first := by
    intro r
    change ((s.setQueue q ⟨none, none, w⟩).queues r).firstTransfer = _
    rw [opened_note, queues_setQueue]
    split_ifs
    · rfl
    · exact h.first r
  last := by
    intro r
    change ((s.setQueue q ⟨none, none, w⟩).queues r).lastTransfer = _
    rw [opened_note, queues_setQueue]
    split_ifs
    · rfl
    · exact h.last r
  list := by
    intro r
    rw [opened_note]
    split_ifs
    · exact ⟨none, rfl, rfl⟩
    · exact h.list r
  ring := by
    intro r f l hr
    rw [opened_note] at hr
    split_ifs at hr
    exact h.ring r f l hr
  owned := by
    intro r j hj
    rw [opened_note] at hj
    split_ifs at hj
    · exact absurd hj List.not_mem_nil
    · exact h.owned r j hj
  nodup := by
    intro r
    rw [opened_note]
    split_ifs
    · exact List.nodup_nil
    · exact h.nodup r
  fresh := h.fresh

theorem runLoop_thread {u : Option (Fin ehciMaxQtd)} {fuel : ℕ}
    (h : Thread (fun u a => u = some a) (· = none) s.next u l) (hf : l.length < fuel) :
    runLoop s fuel u = some l := by
  obtain ⟨v, hseg, rfl⟩ := h
  induction l generalizing u fuel with
  | nil =>
    obtain ⟨fuel, rfl⟩ : ∃ n, fuel = n + 1 := ⟨fuel - 1, by omega⟩
    obtain rfl : u = none := hseg
    rfl
  | cons i l ih =>
    obtain ⟨fuel, rfl⟩ : ∃ n, fuel = n + 1 := ⟨fuel - 1, by omega⟩
    obtain ⟨rfl, hrest⟩ := hseg
    rw [runLoop, ih (Nat.lt_of_succ_lt_succ hf) hrest]
    rfl

theorem Rings.length_lt (h : Rings m s) (q : Fin ehciMaxQh) :
    (s.opened q).length < ehciMaxQtd + 1 :=
  Nat.lt_succ_of_le (by simpa using List.Nodup.length_le_card (h.nodup q))

theorem Rings.transferStep (h : Rings m s) {c : TransferCall} (hs : transferStep m s c = some t) :
    Rings m t := by
  cases c with
  | openQueue q =>
    obtain rfl := Option.some.inj hs
    exact h.setQueue rfl rfl
  | closeQueue q =>
    obtain rfl := Option.some.inj hs
    exact h.close 0
  | openAsyncTransfer q =>
    change (openAsyncTransfer m s q).map Prod.fst = some t at hs
    rcases h.openAsyncTransfer_cases q with ⟨hnone, -⟩ | ⟨i, t', hsome, ho⟩
    · rw [hnone] at hs
      obtain rfl := Option.some.inj hs
      exact h
    · rw [hsome] at hs
      obtain rfl := Option.some.inj hs
      exact h.of_opens ho
  | ehciRunQueue q =>
    change (ehciRunQueue m s q (ehciMaxQtd + 1)).map Prod.fst = some t at hs
    unfold ehciRunQueue at hs
    cases hfirst : (s.queues q).firstTransfer with
    | none =>
      simp only [hfirst] at hs
      obtain rfl := Option.some.inj hs
      exact h
    | some f =>
      simp only [hfirst, Option.map_map, Option.map_eq_some_iff] at hs
      obtain ⟨l, -, rfl⟩ := hs
      exact h.setQueue hfirst.symm rfl

def firstQueue : Fin ehciMaxQh := ⟨0, by decide⟩

def secondQueue : Fin ehciMaxQh := ⟨1, by decide⟩

def twoQueues : List TransferCall :=
  [.openQueue firstQueue, .openQueue secondQueue, .openAsyncTransfer firstQueue,
    .openAsyncTransfer secondQueue, .openAsyncTransfer firstQueue, .closeQueue secondQueue,
    .openQueue secondQueue, .openAsyncTransfer secondQueue]

end DevOs.Usb
