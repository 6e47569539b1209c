import DevOs.Usb.Schedule

/-!
# Opening and closing asynchronous queues

The schedule stays right when a queue is opened. When one is closed it stays right exactly when that
queue stands between the queues of the nearest slots, or is that of slot 0 with one more queue
behind it at most.
-/

namespace DevOs.Usb

open DevOs.Runs DevOs.Threads

variable {m : AssignedMemory} {e e' : EhciDevice} {l : List (Fin ehciMaxQh)}
    {i j k h p q : Fin ehciMaxQh} {w : ℕ}

/-- Besides, the controller follows the list when there is one, and the queues of the list are just
the open ones, each with the queue head of its slot. -/
structure Kept (m : AssignedMemory) (e : EhciDevice) (l : List (Fin ehciMaxQh)) :
    Prop extends Scheduled m e l where
  enabled : e.asyncScheduleEnable = true ↔ l ≠ []
  queue : ∀ i, e.asyncQueues i = if i ∈ l then ⟨true, i, some i⟩ else AsyncQueue.zero

theorem Scheduled.thread (hr : Scheduled m e l) (he : e.asyncScheduleEnable = true) :
    Thread (Leads m) Ends e.link e.asyncListAddress l := by
  have hvisited := hr.visited
  rwa [if_pos he] at hvisited

theorem Kept.thread (hk : Kept m e l) (hl : l ≠ []) :
    Thread (Leads m) Ends e.link e.asyncListAddress l :=
  hk.toScheduled.thread (hk.enabled.mpr hl)

theorem Kept.of_parts (hl : l ≠ []) (henabled : e.asyncScheduleEnable = true)
    (hthread : Thread (Leads m) Ends e.link e.asyncListAddress l) (honce : l.Nodup)
    (hqueue : ∀ i, e.asyncQueues i = if i ∈ l then ⟨true, i, some i⟩ else AsyncQueue.zero)
    (hflag : ∀ i, e.flag i = true ↔ l.head? = some i) (hlast : e.lastAsyncQueue = l.getLast?) :
    Kept m e l where
  visited := by rwa [if_pos henabled]
  once := honce
  present := fun i => by
    rw [EhciDevice.present, hqueue]
    by_cases hi : i ∈ l
    · simp [hi]
    · simp [hi, AsyncQueue.zero]
  flagged := hflag
  last := hlast
  enabled := ⟨fun _ => hl, fun _ => henabled⟩
  queue := hqueue

theorem Kept.of_empty (henabled : e.asyncScheduleEnable = false)
    (hqueue : ∀ i, e.asyncQueues i = AsyncQueue.zero) (hflag : ∀ i, e.flag i = false)
    (hlast : e.lastAsyncQueue = none) : Kept m e [] where
  visited := by simp [henabled]
  once := List.nodup_nil
  present := fun i => by simp [EhciDevice.present, hqueue, AsyncQueue.zero]
  flagged := fun i => by simp [hflag]
  last := hlast
  enabled := by simp [henabled]
  queue := fun i => by rw [hqueue, if_neg List.not_mem_nil]

theorem initial_kept (m : AssignedMemory) (w : ℕ) : Kept m (EhciDevice.initial w) [] :=
  Kept.of_empty rfl (fun _ => rfl) (fun _ => rfl) rfl

theorem Kept.queueHead (hk : Kept m e l) (hi : i ∈ l) : (e.asyncQueues i).queueHead = some i := by
  rw [hk.queue, if_pos hi]

theorem Kept.id (hk : Kept m e l) (hi : i ∈ l) : (e.asyncQueues i).id = i := by
  rw [hk.queue, if_pos hi]

/-- The state with the slot `i` taken, before its queue head is put into the list. -/
def EhciDevice.taken (e : EhciDevice) (i : Fin ehciMaxQh) : EhciDevice :=
  (e.setQueue i ⟨true, i, some i⟩).setLink i terminate

theorem taken_queue (hk : Kept m e l) (i j : Fin ehciMaxQh) :
    (e.taken i).asyncQueues j = if j ∈ l ++ [i] then ⟨true, j, some j⟩ else AsyncQueue.zero := by
  change Function.update e.asyncQueues i ⟨true, i, some i⟩ j = _
  rcases eq_or_ne j i with rfl | hne
  · simp
  · simp [hne, hk.queue]

theorem taken_link : (e.taken i).link = Function.update e.link i terminate :=
  EhciDevice.link_setLink

theorem taken_flag : (e.taken i).flag = e.flag := EhciDevice.flag_setLink

theorem ehciOpenAsyncQueue_first (hi : firstFrom (fun i => !e.present i) 0 = some i)
    (hlast : e.lastAsyncQueue = none) :
    ehciOpenAsyncQueue m e = some ({ (e.taken i).setFlag i with
      asyncListAddress := m.queueHead i, asyncScheduleEnable := true, lastAsyncQueue :=
  some i }, some i) := by
  have hlast' : (e.taken i).lastAsyncQueue = none := hlast
  rw [EhciDevice.taken] at hlast'
  simp only [ehciOpenAsyncQueue, hi, hlast']
  rfl

theorem ehciOpenAsyncQueue_behind (hi : firstFrom (fun i => !e.present i) 0 = some i)
    (hlast : e.lastAsyncQueue = some j) (hhead : ((e.taken i).asyncQueues j).queueHead = some h) :
    ehciOpenAsyncQueue m e = some
      ({ (e.taken i).setLink h (linkTo m i) with lastAsyncQueue := some i }, some i) := by
  have hlast' : (e.taken i).lastAsyncQueue = some j := hlast
  rw [EhciDevice.taken] at hlast' hhead
  simp only [ehciOpenAsyncQueue, hi, hlast', hhead]
  rfl

theorem ehciOpenAsyncQueue_kept (hk : Kept m e l) :
    ∃ r l', ehciOpenAsyncQueue m e = some r ∧ Kept m r.1 l' := by
  cases hfree : firstFrom (fun i => !e.present i) 0 with
  | none => exact ⟨(e, none), l, by simp only [ehciOpenAsyncQueue, hfree], hk⟩
  | some i =>
    obtain ⟨-, hnot, -⟩ := firstFrom_eq_some.mp hfree
    have hi : i ∉ l := by
      intro hmem
      rw [(hk.present i).mpr hmem] at hnot
      cases hnot
    rcases List.eq_nil_or_concat l with rfl | ⟨s, z, rfl⟩
    · refine ⟨_, [i], ehciOpenAsyncQueue_first hfree hk.last, ?_⟩
      apply Kept.of_parts (List.cons_ne_nil _ _) rfl
      · refine ⟨terminate, ⟨leads_queueHead.mpr rfl, ?_⟩, ends_terminate⟩
        change ((e.taken i).setFlag i).link i = terminate
        rw [EhciDevice.link_setFlag, taken_link, Function.update_self]
      · exact List.nodup_singleton i
      · exact taken_queue hk i
      · intro j
        change ((e.taken i).setFlag i).flag j = true ↔ _
        rw [EhciDevice.flag_setFlag, taken_flag]
        rcases eq_or_ne j i with rfl | hne
        · simp
        · simp [hne, hne.symm, hk.flagged]
      · rfl
    · rw [List.concat_eq_append] at *
      have hz : z ∈ s ++ [z] := by simp
      have hzi : z ≠ i := fun heq => hi (heq ▸ hz)
      have hhead : ((e.taken i).asyncQueues z).queueHead = some z := by
        rw [taken_queue hk, if_pos (List.mem_append_left _ hz)]
      have hlast : e.lastAsyncQueue = some z := by rw [hk.last, List.getLast?_concat]
      refine ⟨_, s ++ [z] ++ [i], ehciOpenAsyncQueue_behind hfree hlast hhead, ?_⟩
      have hlink : ((e.taken i).setLink z (linkTo m i)).link =
          Function.update (Function.update e.link i terminate) z (linkTo m i) := by
        rw [EhciDevice.link_setLink, taken_link]
      obtain ⟨honce, -, hzs⟩ := List.nodup_append.mp hk.once
      apply Kept.of_parts (by simp)
      · exact hk.enabled.mpr (by simp)
      · change Thread (Leads m) Ends ((e.taken i).setLink z (linkTo m i)).link e.asyncListAddress _
        rw [hlink]
        apply (hk.thread (by simp)).snoc
        · rw [Function.update_self]
          exact leads_linkTo.mpr rfl
        · rw [Function.update_of_ne hzi.symm, Function.update_self]
          exact ends_terminate
        · intro b hb
          have hbz : b ≠ z := hzs b hb z (List.mem_singleton_self z)
          have hbi : b ≠ i := fun heq => hi (heq ▸ List.mem_append_left _ hb)
          rw [Function.update_of_ne hbz, Function.update_of_ne hbi]
      · exact List.nodup_append.mpr ⟨hk.once, List.nodup_singleton i, fun a ha b hb => by
          rw [List.mem_singleton.mp hb]
          exact fun heq => hi (heq ▸ ha)⟩
      · exact taken_queue hk i
      · intro j
        change ((e.taken i).setLink z (linkTo m i)).flag j = true ↔ _
        rw [EhciDevice.flag_setLink, taken_flag, hk.flagged,
          List.head?_append_of_ne_nil (s ++ [z]) (by simp)]
      · exact List.getLast?_concat.symm

theorem ehciCloseAsyncQueue_base (hk : Kept m e l) (hkl : k ∈ l) (hzero : k.val = 0)
    (hj : firstFrom e.present 1 = some j) (hjl : j ∈ l) :
    ehciCloseAsyncQueue m e k = some { (e.setFlag j).zero k k with
      asyncListAddress := m.queueHead j, lastAsyncQueue := some j, asyncScheduleEnable :=
  true } := by
  simp [ehciCloseAsyncQueue, hk.queueHead hkl, hk.id hkl, hzero, hj, hk.queueHead hjl]

theorem ehciCloseAsyncQueue_only (hk : Kept m e l) (hkl : k ∈ l) (hzero : k.val = 0)
    (hnone : firstFrom e.present 1 = none) :
    ehciCloseAsyncQueue m e k = some { e.zero k k with
      asyncListAddress := 0, lastAsyncQueue := none, asyncScheduleEnable := false } := by
  simp [ehciCloseAsyncQueue, hk.queueHead hkl, hk.id hkl, hzero, hnone]

theorem ehciCloseAsyncQueue_lost (hk : Kept m e l) (hkl : k ∈ l) (hzero : k.val ≠ 0)
    (hnone : lastBelow e.present k = none) : ehciCloseAsyncQueue m e k = none := by
  simp [ehciCloseAsyncQueue, hk.queueHead hkl, hk.id hkl, hzero, hnone]

theorem ehciCloseAsyncQueue_between (hk : Kept m e l) (hkl : k ∈ l) (hzero : k.val ≠ 0)
    (hp : lastBelow e.present k = some p) (hpl : p ∈ l) (hq : firstFrom e.present (k + 1) = some q)
    (hql : q ∈ l) :
    ehciCloseAsyncQueue m e k = some ((e.setLink p (linkTo m q)).zero k k) := by
  simp [ehciCloseAsyncQueue, hk.queueHead hkl, hk.id hkl, hzero, hp, hk.queueHead hpl, hq,
    hk.queueHead hql]

theorem ehciCloseAsyncQueue_top (hk : Kept m e l) (hkl : k ∈ l) (hzero : k.val ≠ 0)
    (hp : lastBelow e.present k = some p) (hpl : p ∈ l)
    (hnone : firstFrom e.present (k + 1) = none) :
    ehciCloseAsyncQueue m e k = some ((e.setLink p terminate).zero k k) := by
  simp [ehciCloseAsyncQueue, hk.queueHead hkl, hk.id hkl, hzero, hp, hk.queueHead hpl, hnone]

theorem lastBelow_present : lastBelow e.present k = some p ↔ NearestBelow e k p := by
  rw [lastBelow_eq_some, NearestBelow]
  constructor
  · rintro ⟨hlt, hp, hall⟩
    exact ⟨hp, hlt, fun i hi hik => hall i hik hi⟩
  · rintro ⟨hp, hlt, hall⟩
    exact ⟨hlt, hp, fun i hik hi => hall i hi hik⟩

theorem firstFrom_present : firstFrom e.present (k + 1) = some q ↔ NearestAbove e k q := by
  rw [firstFrom_eq_some, NearestAbove]
  constructor
  · rintro ⟨hlt, hq, hall⟩
    exact ⟨hq, hlt, fun i hi hik => hall i hik hi⟩
  · rintro ⟨hq, hlt, hall⟩
    exact ⟨hlt, hq, fun i hik hi => hall i hi hik⟩

theorem zero_queue (hk : Kept m e l) {l' : List (Fin ehciMaxQh)} (hl : ∀ i, i ∈ l' ↔ i ∈ l ∧ i ≠ k)
    (i : Fin ehciMaxQh) :
    Function.update e.asyncQueues k AsyncQueue.zero i = if i ∈ l' then ⟨true, i, some i⟩
      else AsyncQueue.zero := by
  rcases eq_or_ne i k with rfl | hne
  · simp [hl]
  · simp [hl, hne, hk.queue]

theorem ehciCloseAsyncQueue_only_kept (hk : Kept m e l) (hkl : k ∈ l) (hzero : k.val = 0)
    (hall : ∀ i, e.present i = true → i = k) : ∃ e', ehciCloseAsyncQueue m e k = some e' ∧ Kept m e'
    [] := by
  have hnone : firstFrom e.present 1 = none := by
    rw [firstFrom_eq_none]
    intro j hj
    by_contra hp
    have := hall j (by simpa using hp)
    omega
  have hmem : ∀ i, i ∈ ([] : List (Fin ehciMaxQh)) ↔ i ∈ l ∧ i ≠ k := by
    intro i
    refine ⟨fun h => absurd h List.not_mem_nil, fun ⟨hi, hne⟩ => ?_⟩
    exact absurd (hall i ((hk.present i).mpr hi)) hne
  refine ⟨_, ehciCloseAsyncQueue_only hk hkl hzero hnone,
    Kept.of_empty rfl (fun i => ?_) (fun i => ?_) rfl⟩
  · exact (zero_queue hk hmem i).trans (if_neg List.not_mem_nil)
  · change (e.zero k k).flag i = false
    rw [EhciDevice.flag_zero]
    rcases eq_or_ne i k with rfl | hne
    · simp
    · rw [Function.update_of_ne hne, Bool.eq_false_iff]
      intro hf
      have hhead := (hk.flagged i).mp hf
      exact hne (hall i ((hk.present i).mpr (List.mem_of_mem_head? hhead)))

theorem ehciCloseAsyncQueue_base_kept (hk : Kept m e l) (hkl : k ∈ l) (hzero : k.val = 0)
    (hjk : j ≠ k) (hj : e.present j = true) (hall : ∀ i, e.present i = true → i = k ∨ i = j)
    (hlink : Leads m (e.link k) j) :
    ∃ e', ehciCloseAsyncQueue m e k = some e' ∧ Kept m e' [j] := by
  have hjl := (hk.present j).mp hj
  have hval : j.val ≠ 0 := fun h => hjk (Fin.ext (h.trans hzero.symm))
  have hfirst : firstFrom e.present 1 = some j := by
    rw [firstFrom_eq_some]
    refine ⟨by omega, hj, fun i hi hp => ?_⟩
    rcases hall i hp with rfl | rfl
    · omega
    · exact le_rfl
  have hthread := hk.thread (List.ne_nil_of_mem hkl)
  obtain ⟨s, t, hl⟩ := hthread.exists_split (leads_reads m) hkl hlink
  have honce := hl ▸ hk.once
  have hmem' : ∀ i ∈ s ++ k :: j :: t, i = k ∨
    i = j := fun i hi => hall i ((hk.present i).mpr (hl ▸ hi))
  have hs : s = [] := by
    rw [List.eq_nil_iff_forall_not_mem]
    intro i hi
    have hdisj := (List.nodup_append.mp honce).2.2 i hi
    rcases hmem' i (List.mem_append_left _ hi) with rfl | rfl
    · exact hdisj i (by simp) rfl
    · exact hdisj i (by simp) rfl
  have ht : t = [] := by
    rw [List.eq_nil_iff_forall_not_mem]
    intro i hi
    have htail := (List.nodup_append.mp honce).2.1
    simp only [List.nodup_cons, List.mem_cons, not_or] at htail
    rcases hmem' i (by simp [hi]) with rfl | rfl
    · exact htail.1.2 hi
    · exact htail.2.1 hi
  have hends : Ends (e.link j) := by
    rw [hl, hs, ht] at hthread
    exact Thread.ends_last (l := [k]) hthread
  have hmem : ∀ i, i ∈ [j] ↔ i ∈ l ∧ i ≠ k := by
    intro i
    rw [List.mem_singleton]
    constructor
    · rintro rfl
      exact ⟨hjl, hjk⟩
    · rintro ⟨hi, hne⟩
      exact (hall i ((hk.present i).mpr hi)).resolve_left hne
  refine ⟨_, ehciCloseAsyncQueue_base hk hkl hzero hfirst hjl, ?_⟩
  apply Kept.of_parts (List.cons_ne_nil _ _) rfl
  · refine ⟨e.link j, ⟨leads_queueHead.mpr rfl, ?_⟩, hends⟩
    change ((e.setFlag j).zero k k).link j = e.link j
    rw [EhciDevice.link_zero, Function.update_of_ne hjk, EhciDevice.link_setFlag]
  · exact List.nodup_singleton j
  · exact zero_queue hk hmem
  · intro i
    change ((e.setFlag j).zero k k).flag i = true ↔ _
    rw [EhciDevice.flag_zero, EhciDevice.flag_setFlag]
    rcases eq_or_ne i k with rfl | hik
    · simp [hjk]
    · rw [Function.update_of_ne hik]
      rcases eq_or_ne i j with rfl | hij
      · simp
      · rw [Function.update_of_ne hij, hk.flagged, hl, hs]
        simp [hik.symm, hij.symm]
  · rfl

theorem link_between :
    ((e.setLink p w).zero k k).link = Function.update (Function.update e.link p w) k 0 := by
  rw [EhciDevice.link_zero, EhciDevice.link_setLink]

theorem flag_between : ((e.setLink p w).zero k k).flag = Function.update e.flag k false := by
  rw [EhciDevice.flag_zero, EhciDevice.flag_setLink]

theorem ehciCloseAsyncQueue_between_kept (hk : Kept m e l) (hkl : k ∈ l) (hzero : k.val ≠ 0)
    (hp : NearestBelow e k p) (hq : NearestAbove e k q) (hpk : Leads m (e.link p) k)
    (hkq : Leads m (e.link k) q) :
    ∃ e' l', ehciCloseAsyncQueue m e k = some e' ∧ Kept m e' l' := by
  have hpl := (hk.present p).mp hp.1
  have hql := (hk.present q).mp hq.1
  have hthread := hk.thread (List.ne_nil_of_mem hkl)
  obtain ⟨s, t, hl⟩ := hthread.exists_split (leads_reads m) hpl hpk
  cases t with
  | nil =>
    rw [hl] at hthread
    exact absurd (Thread.ends_last (l := s ++ [p]) (by simpa using hthread))
      ((leads_reads m).not_ends _ _ hkq)
  | cons b t =>
    obtain rfl : b = q := by
      rw [hl] at hthread
      exact (leads_reads m).unique _ _ _
        (Thread.leads_next (l := s ++ [p]) (by simpa using hthread)) hkq
    subst hl
    obtain ⟨hs, htail, hdisj⟩ := List.nodup_append.mp hk.once
    simp only [List.nodup_cons, List.mem_cons, not_or] at htail
    have hpne : p ≠ k := htail.1.1
    have hmem : ∀ i, i ∈ s ++ p :: b :: t ↔ i ∈ s ++ p :: k :: b :: t ∧ i ≠ k := by
      intro i
      rcases eq_or_ne i k with rfl | hne
      · have his : i ∉ s := fun hi => hdisj i hi i (by simp) rfl
        simp [his, hpne.symm, htail.2.1.1, htail.2.1.2]
      · simp [hne]
    refine ⟨_, s ++ p :: b :: t,
      ehciCloseAsyncQueue_between hk hkl hzero (lastBelow_present.mpr hp) hpl
      (firstFrom_present.mpr hq) hql, ?_⟩
    apply Kept.of_parts (by simp)
    · exact hk.enabled.mpr (by simp)
    · rw [link_between]
      apply hthread.cut hk.once
      · rw [Function.update_of_ne hpne, Function.update_self]
        exact leads_linkTo.mpr rfl
      · intro x hxp hxk
        rw [Function.update_of_ne hxk, Function.update_of_ne hxp]
    · refine hk.once.sublist ?_
      exact (List.Sublist.refl s).append ((List.sublist_cons_self k _).cons_cons p)
    · exact zero_queue hk hmem
    · intro i
      have hhead : (s ++ p :: b :: t).head? = (s ++ p :: k :: b :: t).head? := by
        cases s with
        | nil => rfl
        | cons x s => rfl
      rw [flag_between, hhead]
      rcases eq_or_ne i k with rfl | hne
      · rw [Function.update_self]
        refine ⟨fun h => (by cases h), fun h => ?_⟩
        rw [← hhead] at h
        exact absurd rfl ((hmem i).mp (List.mem_of_mem_head? h)).2
      · rw [Function.update_of_ne hne, hk.flagged]
    · refine hk.last.trans ?_
      simp [List.getLast?_append, List.getLast?_cons]

theorem mem_closed (hk : Kept m e l) {l' : List (Fin ehciMaxQh)} (hr : Scheduled m e' l')
    (hqueues : e'.asyncQueues = Function.update e.asyncQueues k AsyncQueue.zero) :
    i ∈ l' ↔ i ∈ l ∧ i ≠ k := by
  rw [← hr.present, EhciDevice.present, hqueues]
  rcases eq_or_ne i k with rfl | hne
  · simp [AsyncQueue.zero]
  · rw [Function.update_of_ne hne, ← hk.present, EhciDevice.present]
    simp [hne]

/-- When the schedule is right after the queue `k` has been closed, `k` stood between two queues:
the last queue is the same as before, and the flag has not moved. -/
theorem exists_between (hk : Kept m e l) (hkl : k ∈ l) (hpl : p ∈ l) (hpk : p ≠ k)
    {l' : List (Fin ehciMaxQh)} (hr : Scheduled m ((e.setLink p w).zero k k) l') :
    ∃ s a b t, l = s ++ a :: k :: b :: t := by
  have hk' : k ∉ l' := fun h => ((mem_closed hk hr rfl).mp h).2 rfl
  have hhead : l.head? ≠ some k := by
    obtain ⟨x, r, hl'⟩ :=
      List.exists_cons_of_ne_nil (List.ne_nil_of_mem ((mem_closed hk hr rfl).mpr ⟨hpl, hpk⟩))
    have hx : x ∈ l' := by simp [hl']
    have hxk := ((mem_closed hk hr rfl).mp hx).2
    have hflag := (hr.flagged x).mpr (by rw [hl', List.head?_cons])
    rw [flag_between, Function.update_of_ne hxk, hk.flagged] at hflag
    rw [hflag]
    exact fun h => hxk (Option.some.inj h)
  have hlast : l.getLast? ≠ some k := by
    rw [← hk.last]
    intro h
    have hl' : l'.getLast? = some k := hr.last.symm.trans h
    exact hk' (List.mem_of_getLast? hl')
  obtain ⟨s, t, rfl⟩ := List.append_of_mem hkl
  rcases List.eq_nil_or_concat s with rfl | ⟨s, a, rfl⟩
  · exact absurd rfl hhead
  · cases t with
    | nil => exact absurd List.getLast?_concat hlast
    | cons b t => exact ⟨s, a, b, t, by simp⟩

/-- Then the changed link is that of the queue before `k`, and it leads to the queue behind `k`. -/
theorem exists_next (hk : Kept m e l) (hkl : k ∈ l) (hpl : p ∈ l) (hpk : p ≠ k)
    {l' : List (Fin ehciMaxQh)} (hr : Scheduled m ((e.setLink p w).zero k k) l') :
    ∃ b, Leads m (e.link p) k ∧ Leads m (e.link k) b ∧ Leads m w b := by
  obtain ⟨s, a, b, t, hl⟩ := exists_between hk hkl hpl hpk hr
  have hthread := hk.thread (List.ne_nil_of_mem hkl)
  have hak : Leads m (e.link a) k := by
    rw [hl] at hthread
    exact hthread.leads_next
  have hkb : Leads m (e.link k) b := by
    rw [hl] at hthread
    exact Thread.leads_next (l := s ++ [a]) (by simpa using hthread)
  have hal : a ∈ l := by simp [hl]
  have hbl : b ∈ l := by simp [hl]
  obtain ⟨-, htail, hdisj⟩ := List.nodup_append.mp (hl ▸ hk.once)
  simp only [List.nodup_cons, List.mem_cons, not_or] at htail
  have hthread' := hr.thread (hk.enabled.mpr (List.ne_nil_of_mem hkl))
  have hlink : ∀ c ∈ l', c ≠ p → ((e.setLink p w).zero k k).link c = e.link c := by
    intro c hc hcp
    rw [link_between, Function.update_of_ne ((mem_closed hk hr rfl).mp hc).2,
      Function.update_of_ne hcp]
  obtain rfl : a = p := by
    by_contra hap
    have ha : a ∈ l' := (mem_closed hk hr rfl).mpr ⟨hal, htail.1.1⟩
    rcases hthread'.next_mem ha with hend | ⟨c, hc, hac⟩
    · rw [hlink a ha hap] at hend
      exact (leads_reads m).not_ends _ _ hak hend
    · rw [hlink a ha hap] at hac
      exact ((mem_closed hk hr rfl).mp hc).2 ((leads_reads m).unique _ _ _ hac hak)
  have hb : b ∈ l' := (mem_closed hk hr rfl).mpr ⟨hbl, fun h => htail.2.1.1 h.symm⟩
  have hbhead : l'.head? ≠ some b := by
    intro h
    have hflag := (hr.flagged b).mpr h
    rw [flag_between, Function.update_of_ne (fun h => htail.2.1.1 h.symm), hk.flagged, hl] at hflag
    cases s with
    | nil => exact htail.1.2.1 (Option.some.inj hflag)
    | cons x s => exact hdisj x List.mem_cons_self b (by simp) (Option.some.inj hflag)
  obtain ⟨c, hc, hcb⟩ := hthread'.exists_before hb hbhead
  rcases eq_or_ne c a with rfl | hca
  · rw [link_between, Function.update_of_ne htail.1.1, Function.update_self] at hcb
    exact ⟨b, hak, hkb, hcb⟩
  · rw [hlink c hc hca] at hcb
    obtain ⟨hcl, hck⟩ := (mem_closed hk hr rfl).mp hc
    exact absurd (hthread.before_unique (leads_reads m) hk.once hcl hkl hcb hkb) hck

theorem closable_between (hk : Kept m e l) (hkl : k ∈ l) (hzero : k.val ≠ 0)
    {l' : List (Fin ehciMaxQh)} (he : ehciCloseAsyncQueue m e k = some e')
    (hr : Scheduled m e' l') : Closable m e k := by
  rw [Closable, if_neg hzero]
  cases hp : lastBelow e.present k with
  | none =>
    rw [ehciCloseAsyncQueue_lost hk hkl hzero hp] at he
    cases he
  | some p =>
    have hnear := lastBelow_present.mp hp
    have hpl := (hk.present p).mp hnear.1
    have hpk : p ≠ k := ne_of_lt hnear.2.1
    cases hq : firstFrom e.present (k + 1) with
    | none =>
      rw [ehciCloseAsyncQueue_top hk hkl hzero hp hpl hq] at he
      obtain rfl := Option.some.inj he
      obtain ⟨b, -, -, hb⟩ := exists_next hk hkl hpl hpk hr
      exact absurd ends_terminate ((leads_reads m).not_ends _ _ hb)
    | some q =>
      have habove := firstFrom_present.mp hq
      rw [ehciCloseAsyncQueue_between hk hkl hzero hp hpl hq ((hk.present q).mp habove.1)] at he
      obtain rfl := Option.some.inj he
      obtain ⟨b, hpk, hkb, hb⟩ := exists_next hk hkl hpl hpk hr
      obtain rfl := leads_linkTo.mp hb
      exact ⟨⟨p, hnear, hpk⟩, q, habove, hkb⟩

/-- When the schedule is right after slot 0 has been closed, there was one more queue at most, and
it stood behind. -/
theorem closable_base (hk : Kept m e l) (hkl : k ∈ l) (hzero : k.val = 0)
    {l' : List (Fin ehciMaxQh)} (he : ehciCloseAsyncQueue m e k = some e')
    (hr : Scheduled m e' l') : Closable m e k := by
  rw [Closable, if_pos hzero]
  cases hfirst : firstFrom e.present 1 with
  | none =>
    refine .inl fun i hi => ?_
    by_contra hik
    have hval : i.val ≠ 0 := fun h => hik (Fin.ext (h.trans hzero.symm))
    rw [firstFrom_eq_none.mp hfirst i (by omega)] at hi
    cases hi
  | some j =>
    obtain ⟨hval, hj, -⟩ := firstFrom_eq_some.mp hfirst
    have hjl := (hk.present j).mp hj
    have hjk : j ≠ k := by
      rintro rfl
      omega
    rw [ehciCloseAsyncQueue_base hk hkl hzero hfirst hjl] at he
    obtain rfl := Option.some.inj he
    have hmem : ∀ i, i ∈ l' ↔ i ∈ l ∧ i ≠ k := fun i => mem_closed hk hr rfl
    have hthread' := hr.thread rfl
    have hl' : l' = [j] := by
      cases l' with
      | nil => exact absurd ((hmem j).mpr ⟨hjl, hjk⟩) List.not_mem_nil
      | cons x r =>
        obtain ⟨v, ⟨hx, -⟩, -⟩ := hthread'
        obtain rfl := leads_queueHead.mp hx
        rcases List.eq_nil_or_concat r with rfl | ⟨r, y, rfl⟩
        · rfl
        · have hlast : some j = (j :: (r ++ [y])).getLast? := by simpa using hr.last
          rw [← List.cons_append, List.getLast?_concat, Option.some.injEq] at hlast
          have hjr := (List.nodup_cons.mp hr.once).1
          exact absurd (by simp [hlast]) hjr
    have hends : Ends (e.link j) := by
      rw [hl'] at hthread'
      have hlink := Thread.ends_last (l := []) hthread'
      change Ends (((e.setFlag j).zero k k).link j) at hlink
      rwa [EhciDevice.link_zero, Function.update_of_ne hjk, EhciDevice.link_setFlag] at hlink
    have hall : ∀ i ∈ l, i ≠ k → i = j := by
      intro i hi hik
      have hi' := (hmem i).mpr ⟨hi, hik⟩
      rw [hl'] at hi'
      exact List.mem_singleton.mp hi'
    refine .inr ⟨j, hjk, hj, fun i hi => ?_, ?_⟩
    · exact or_iff_not_imp_left.mpr (hall i ((hk.present i).mp hi))
    · have hthread := hk.thread (List.ne_nil_of_mem hkl)
      have hlhead : l.head? ≠ some j := by
        intro h
        obtain ⟨r, rfl⟩ := List.head?_eq_some_iff.mp h
        have hkr := (List.mem_cons.mp hkl).resolve_left hjk.symm
        obtain ⟨x, r, rfl⟩ := List.exists_cons_of_ne_nil (List.ne_nil_of_mem hkr)
        exact (leads_reads m).not_ends _ _ (Thread.leads_next (l := []) hthread) hends
      obtain ⟨a, ha, haj⟩ := hthread.exists_before hjl hlhead
      rcases eq_or_ne a k with rfl | hak
      · exact haj
      · obtain rfl := hall a ha hak
        exact absurd hends ((leads_reads m).not_ends _ _ haj)

theorem asyncStep_kept (hk : Kept m e l) {a : AsyncCall} (hv : CallValid e a)
    (ha : KeepsSchedule m e a) :
    ∃ e' l', asyncStep m e a = some e' ∧ Kept m e' l' := by
  cases a with
  | openQueue =>
    obtain ⟨r, l', hr, hk'⟩ := ehciOpenAsyncQueue_kept hk
    exact ⟨r.1, l', by rw [asyncStep, hr]; rfl, hk'⟩
  | closeQueue k =>
    have hkl := (hk.present k).mp hv
    rw [KeepsSchedule, Closable] at ha
    by_cases hzero : k.val = 0
    · rw [if_pos hzero] at ha
      rcases ha with hall | ⟨j, hjk, hj, hall, hlink⟩
      · obtain ⟨e', he', hk'⟩ := ehciCloseAsyncQueue_only_kept hk hkl hzero hall
        exact ⟨e', [], he', hk'⟩
      · obtain ⟨e', he', hk'⟩ := ehciCloseAsyncQueue_base_kept hk hkl hzero hjk hj hall hlink
        exact ⟨e', [j], he', hk'⟩
    · rw [if_neg hzero] at ha
      obtain ⟨⟨p, hp, hpk⟩, q, hq, hkq⟩ := ha
      exact ehciCloseAsyncQueue_between_kept hk hkl hzero hp hq hpk hkq

theorem keeps_of_right (hk : Kept m e l) {a : AsyncCall} (hv : CallValid e a)
    (ha : asyncStep m e a = some e') (hr : ScheduleRight m e') : KeepsSchedule m e a := by
  obtain ⟨l', hr⟩ := hr
  cases a with
  | openQueue => trivial
  | closeQueue k =>
    have hkl := (hk.present k).mp hv
    by_cases hzero : k.val = 0
    · exact closable_base hk hkl hzero ha hr
    · exact closable_between hk hkl hzero ha hr

/-- As long as only such queues are closed, every call returns and the schedule stays right, and the
next call keeps it right exactly when it is one of these, too. -/
theorem asyncSchedule_right_iff (m : AssignedMemory) (w : ℕ) {e : EhciDevice}
    (h : Reaches (asyncStep m) (fun e a => CallValid e a ∧ KeepsSchedule m e a)
      (EhciDevice.initial w) e) :
    ScheduleRight m e ∧ ∀ a, CallValid e a →
      ((∃ e', asyncStep m e a = some e' ∧ ScheduleRight m e') ↔ KeepsSchedule m e a) := by
  have hkept : ∃ l, Kept m e l := by
    refine h.invariant (I := fun e => ∃ l, Kept m e l) ?_ ⟨[], initial_kept m w⟩
    rintro s a t ⟨l, hk⟩ ⟨hv, ha⟩ hst
    obtain ⟨t', l', hst', hk'⟩ := asyncStep_kept hk hv ha
    obtain rfl := Option.some.inj (hst.symm.trans hst')
    exact ⟨l', hk'⟩
  obtain ⟨l, hk⟩ := hkept
  refine ⟨⟨l, hk.toScheduled⟩,
    fun a hv => ⟨fun ⟨e', he', hr⟩ => keeps_of_right hk hv he' hr, fun ha => ?_⟩⟩
  obtain ⟨e', l', he', hk'⟩ := asyncStep_kept hk hv ha
  exact ⟨e', he', l', hk'.toScheduled⟩

/-- Three queues are opened and the middle one is closed, which leaves the schedule right. To close
the last one then does not. -/
theorem middleQueue_closed : ∃ e, guardedRun (asyncStep ⟨0, dvd_zero _⟩)
    (fun e a => CallValid e a ∧ KeepsSchedule ⟨0, dvd_zero _⟩ e a) (EhciDevice.initial 0)
      [.openQueue, .openQueue, .openQueue, .closeQueue 1] = some e ∧
      ScheduleRight ⟨0, dvd_zero _⟩ e ∧
    ¬∃ e', asyncStep ⟨0, dvd_zero _⟩ e (.closeQueue 2) = some e' ∧
    ScheduleRight ⟨0, dvd_zero _⟩ e' := by
  have hsome : (guardedRun (asyncStep ⟨0, dvd_zero _⟩)
      (fun e a => CallValid e a ∧ KeepsSchedule ⟨0, dvd_zero _⟩ e a) (EhciDevice.initial 0)
        [.openQueue, .openQueue, .openQueue, .closeQueue 1]).map
      (fun e => (decide (CallValid e (.closeQueue 2)),
        decide (KeepsSchedule ⟨0, dvd_zero _⟩ e (.closeQueue 2)))) =
        some (true, false) := by decide +kernel
  obtain ⟨e, he, hboth⟩ := Option.map_eq_some_iff.mp hsome
  obtain ⟨hright, hnext⟩ := asyncSchedule_right_iff ⟨0, dvd_zero _⟩ 0 (reaches_of_guardedRun _ he)
  simp only [Prod.mk.injEq, decide_eq_true_eq, decide_eq_false_iff_not] at hboth
  exact ⟨e, he, hright, fun hr => hboth.2 ((hnext _ hboth.1).mp hr)⟩

/-- Two queues are opened and the second one is closed: `LastAsyncQueue` is still the closed
queue. -/
theorem lastQueue_not_right :
    ¬∀ m w e, Reaches (asyncStep m) CallValid (EhciDevice.initial w) e → ScheduleRight m e := by
  intro hall
  have hsome : (guardedRun (asyncStep ⟨0, dvd_zero _⟩) CallValid (EhciDevice.initial 0)
      [.openQueue, .openQueue, .closeQueue 1]).map (fun e => (e.lastAsyncQueue, e.present 1)) =
        some (some 1, false) := by decide +kernel
  obtain ⟨e, he, hboth⟩ := Option.map_eq_some_iff.mp hsome
  obtain ⟨l, hr⟩ := hall ⟨0, dvd_zero _⟩ 0 e (reaches_of_guardedRun _ he)
  obtain ⟨hlast, hpresent⟩ := Prod.mk.inj hboth
  have hmem := (hr.present 1).mpr (List.mem_of_getLast? (hr.last.symm.trans hlast))
  rw [hpresent] at hmem
  cases hmem

end DevOs.Usb
