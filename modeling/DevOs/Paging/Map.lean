import DevOs.Paging.Tables

/-!
# Mapping one page

`MapPhysicalPages` goes from the page map to the table of the page, and adds the tables that are
missing. In a tree of tables, with new pages that no table uses, this changes the entry of the page
only.
-/

namespace DevOs.Paging

open Bytes Fields Radix

variable {memory : Buffer} {m m' : Machine} {root pageMap a b f p q d D e v x flags count : ℕ}
    {nx : Bool}

theorem setWhen_eq {c : Bool} {β : Type*} (g : ℕ → β) (set : ℕ → ℕ) (h : ∀ e, g (set e) = g e)
    (e : ℕ) :
    g (setWhen c set e) = g e := by
  rw [setWhen]
  split_ifs
  · exact h e
  · rfl

theorem setWhen_lt {c : Bool} {set : ℕ → ℕ} (h : ∀ e < 2 ^ 64, set e < 2 ^ 64) (he : e < 2 ^ 64) :
    setWhen c set e < 2 ^ 64 := by
  rw [setWhen]
  split_ifs
  · exact h e he
  · exact he

theorem field_setAccess (h : d + v ≤ 1 ∨ 5 ≤ d) (e : ℕ) :
    field d v (setAccess flags e) = field d v e := by
  rw [setAccess, setReadWrite, setPcd, setPwt]
  rcases h with h | h
  · split_ifs
    · rw [field_setField_of_ge (by omega)]
    · rw [field_setField_of_ge (by omega), field_setField_of_ge (by omega)]
  · split_ifs
    · rw [field_setField_of_le (by omega)]
    · rw [field_setField_of_le (by omega), field_setField_of_le (by omega)]

theorem field_setCaching (h : d + v ≤ 3) (e : ℕ) :
    field d v (setCaching flags e) = field d v e := by
  rw [setCaching, setPhysicalAddr, setSizePat, setPcd, setPwt]
  split_ifs
  · rw [field_setField_of_ge (by omega)]
  · rw [field_setField_of_ge (by omega)]
  · rw [field_setField_of_ge (by omega)]
  · rw [field_setField_of_ge (by omega)]
  · rfl

theorem present_modelEntry : present (modelEntry nx flags) = has flags pmPresent := by
  rw [present, modelEntry, setWhen_eq (field 0 1) setSizePat
    (fun e => field_setField_of_ge (by decide)), field_setCaching (by decide),
    setWhen_eq (field 0 1) setGlobal (fun e => field_setField_of_ge (by decide)),
    setWhen_eq (field 0 1) setExecuteDisable (fun e => field_setField_of_ge (by decide)),
    setWhen_eq (field 0 1) setUserSupervisor (fun e => field_setField_of_ge (by decide)),
    field_setAccess (by decide), setWhen]
  cases has flags pmPresent <;> rfl

theorem sizePat_modelEntry (h : has flags pmLargePages = true) :
    sizePat (modelEntry nx flags) = true := by
  rw [sizePat, modelEntry, h, setWhen, if_pos rfl, setSizePat, field_setField_self]
  rfl

theorem physicalAddr_modelEntry : physicalAddr (modelEntry nx flags) =
    if has flags pmLargePages && has flags pmWriteThrough then 1 else 0 := by
  have hcaching (e : ℕ) : field 12 36 (setCaching flags e) =
      if has flags pmLargePages && has flags pmWriteThrough then 1 else field 12 36 e := by
    rw [setCaching, setPhysicalAddr, setSizePat, setPcd, setPwt]
    cases has flags pmWriteThrough <;> cases has flags pmLargePages <;>
      cases has flags pmCacheDisable <;> cases has flags pmWriteCombine <;>
      simp (disch := decide) [field_setField_of_le, field_setField_self]
  rw [physicalAddr, modelEntry,
    setWhen_eq (field 12 36) setSizePat (fun e => field_setField_of_le (by decide)), hcaching,
    setWhen_eq (field 12 36) setGlobal (fun e => field_setField_of_le (by decide)),
    setWhen_eq (field 12 36) setExecuteDisable (fun e => field_setField_of_ge (by decide)),
    setWhen_eq (field 12 36) setUserSupervisor (fun e => field_setField_of_le (by decide)),
    field_setAccess (by decide),
    setWhen_eq (field 12 36) setPresent (fun e => field_setField_of_le (by decide)), field_zero]

theorem modelEntry_lt : modelEntry nx flags < 2 ^ 64 := by
  have hset {pos width v e : ℕ} (h : pos + width ≤ 64) (he : e < 2 ^ 64) : setField pos width v e <
      2 ^ 64 :=
    setField_lt he h
  rw [modelEntry]
  apply setWhen_lt (fun e he => hset (by decide) he)
  have hcaching {e : ℕ} (he : e < 2 ^ 64) : setCaching flags e < 2 ^ 64 := by
    rw [setCaching]
    split_ifs
    · exact hset (by decide) he
    · exact hset (by decide) he
    · exact hset (by decide) he
    · exact hset (by decide) he
    · exact he
  have haccess {e : ℕ} (he : e < 2 ^ 64) : setAccess flags e < 2 ^ 64 := by
    rw [setAccess]
    split_ifs
    · exact hset (by decide) he
    · exact hset (by decide) (hset (by decide) he)
  apply hcaching
  apply setWhen_lt (fun e he => hset (by decide) he)
  apply setWhen_lt (fun e he => hset (by decide) he)
  apply setWhen_lt (fun e he => hset (by decide) he)
  apply haccess
  exact setWhen_lt (fun e he => hset (by decide) he) (by decide)

/-- A tree of tables. The pages that the allocator returns are different, and no tables. -/
structure Tree (m : Machine) (root : ℕ) : Prop where
  separate : Separate tables (slots m.memory) root
  nodup : m.pages.Nodup
  page : ∀ a ∈ m.pages, a ≠ 0 ∧ a % 2 ^ 12 = 0 ∧ a < 2 ^ 48
  unused : ∀ a ∈ m.pages, ∀ d p, tableOf m.memory root d p ≠ some (a / 2 ^ 12)

/-- The table `b` of the page at the next depth is open. No other entry than that of the table is
changed, and nothing is mapped. -/
structure Opened (m m' : Machine) (root D p b : ℕ) : Prop where
  tree : Tree m' root
  table : tableOf m'.memory root (D + 1) p = some b
  grown : ∀ d q a, tableOf m'.memory root d q = some a →
    tableOf m.memory root d q = some a ∨ a * 2 ^ 12 ∈ m.pages ∧ a * 2 ^ 12 ∉ m'.pages
  kept : ∀ d q, present (entryOf m.memory root d q) = true →
    entryOf m'.memory root d q = entryOf m.memory root d q
  entry : ∀ d q, d ≠ D ∨ ¬ Agree tables (D + 1) p q →
    entryOf m'.memory root d q = entryOf m.memory root d q
  size : ∀ q, sizePat (entryOf m'.memory root D q) = sizePat (entryOf m.memory root D q)
  translate : ∀ q, translate m'.memory root q = translate m.memory root q
  pages : m.pages.length ≤ m'.pages.length + 1
  sub : ∀ a ∈ m'.pages, a ∈ m.pages
  nx : m'.nx = m.nx
  trace : m'.trace = m.trace

theorem Tree.openTable_present (h : Tree m root) (ha : tableOf m.memory root D p = some a)
    (hD : D < 3) (hs : D = 2 → sizePat (entryOf m.memory root D p) = false)
    (hp : present (entryOf m.memory root D p) = true) :
    ∃ b, openTable m (a * 2 ^ 12) (tableIndex D p) = some (m, b * 2 ^ 12) ∧
    Opened m m root D p b := by
  have hlook : entryOf m.memory root D p = Paging.entry m.memory (a * 2 ^ 12) (tableIndex D p) :=
    look_of_some ha
  have hnext : tableOf m.memory root (D + 1) p = some (physicalAddr (entryOf m.memory root D p)) :=
      by
    rw [hlook] at hs hp ⊢
    exact (node_succ_of_some ha).trans (nextTable_of_present hD hp hs)
  refine ⟨physicalAddr (entryOf m.memory root D p), ?_, h, hnext, fun _ _ _ hb => Or.inl hb,
    fun _ _ _ => rfl, fun _ _ _ => rfl, fun _ => rfl, fun _ => rfl, Nat.le_succ _, fun _ ha => ha,
    rfl, rfl⟩
  rw [hlook] at hp ⊢
  rw [openTable, hp, if_pos rfl]

theorem translate_congr {memory' : Buffer} (h2 : entryOf memory' root 2 q = entryOf memory root 2 q)
    (h3 : entryOf memory' root 3 q = entryOf memory root 3 q) :
    translate memory' root q = translate memory root q := by
  rw [translate, translate, h2, h3]

/-- A missing table is made in the first free page, which is cleared and linked at the entry. -/
theorem openTable_missing (hp : present (slots m.memory a (tableIndex D p)) = false)
    {pages : List ℕ} (hy : m.pages = f * 2 ^ 12 :: pages) (h0 : f * 2 ^ 12 ≠ 0) :
    ∃ memory, openTable m (a * 2 ^ 12) (tableIndex D p) =
        some ({ m with memory := memory, pages := pages }, f * 2 ^ 12) ∧
      slots memory = link (slots m.memory) a (tables.index D p)
        (tableEntry (slots m.memory a (tableIndex D p)) f) f 0 := by
  refine ⟨clear (setEntry m.memory (a * 2 ^ 12) (tableIndex D p)
    (tableEntry (slots m.memory a (tableIndex D p)) f)) (f * 2 ^ 12) 0x1000, ?_, ?_⟩
  · rw [openTable]
    simp only [show present (entry m.memory (a * 2 ^ 12) (tableIndex D p)) = false from hp, hy,
      if_neg h0, Nat.mul_div_cancel _ (show 0 < 2 ^ 12 by decide)]
    rfl
  · rw [slots_clear, slots_setEntry (tableEntry_lt (slots_lt ..))]
    rfl

/-- What linking a fresh table at the entry of the page opens. -/
theorem Tree.opened_link {pages : List ℕ} (h : Tree m root)
    (hD : D < 3) (hs : D = 2 → sizePat (entryOf m.memory root D p) = false)
    (hp : present (entryOf m.memory root D p) = false) (hy : m.pages = f * 2 ^ 12 :: pages)
    (hfresh : Fresh tables (slots m.memory) root a f D p
      (tableEntry (slots m.memory a (tableIndex D p)) f) 0)
    (hslots : slots memory = link (slots m.memory) a (tables.index D p)
      (tableEntry (slots m.memory a (tableIndex D p)) f) f 0) :
    Opened m { m with memory := memory, pages := pages } root D p f := by
  have hlook : entryOf m.memory root D p = slots m.memory a (tableIndex D p) :=
    look_of_some hfresh.table
  have hmem : f * 2 ^ 12 ∈ m.pages := by
    rw [hy]
    exact List.mem_cons_self
  have hnodup := h.nodup
  rw [hy, List.nodup_cons] at hnodup
  have hentry (d q : ℕ) (hne : d ≠ D ∨ ¬ Agree tables (D + 1) p q) :
      entryOf memory root d q = entryOf m.memory root d q := by
    rw [entryOf, hslots]
    exact hfresh.look_eq hne
  have hself {q : ℕ} (hag : Agree tables (D + 1) p q) :
      entryOf memory root D q = tableEntry (entryOf m.memory root D q) f := by
    rw [entryOf, hslots]
    refine (hfresh.look_self hag).trans ?_
    rw [← hlook, entryOf, entryOf, look_congr hag]
  refine ⟨⟨?_, hnodup.2, fun b hb => ?_, fun b hb d q hq => ?_⟩, ?_, fun d q b hq => ?_,
    fun d q hq => hentry d q ?_, hentry, fun q => ?_, fun q => ?_, ?_,
    fun b hb => ?_, rfl, rfl⟩
  · rw [hslots]
    exact hfresh.separate_link
  · exact h.page b (by rw [hy]; exact List.mem_cons_of_mem _ hb)
  · rw [tableOf, hslots] at hq
    rcases hfresh.node_cases hq with hold | ⟨hbf, -, -⟩
    · exact h.unused b (by rw [hy]; exact List.mem_cons_of_mem _ hb) d q hold
    · have hpage := h.page b (by rw [hy]; exact List.mem_cons_of_mem _ hb)
      obtain rfl : b = f * 2 ^ 12 := by omega
      exact hnodup.1 hb
  · rw [tableOf, hslots]
    exact hfresh.node_new (fun _ _ => rfl)
  · rw [tableOf, hslots] at hq
    rcases hfresh.node_cases hq with hold | ⟨rfl, -, -⟩
    · exact Or.inl hold
    · exact Or.inr ⟨hmem, hnodup.1⟩
  · by_contra hcase
    rw [not_or, not_not, not_not] at hcase
    obtain ⟨rfl, hag⟩ := hcase
    rw [entryOf, ← look_congr hag] at hq
    exact absurd (hq.symm.trans hp) (by decide)
  · by_cases hag : Agree tables (D + 1) p q
    · rw [hself hag, sizePat_tableEntry]
    · rw [hentry D q (Or.inr hag)]
  · by_cases hcase : D ≠ 2 ∨ ¬ Agree tables (D + 1) p q
    · exact translate_congr (hentry 2 q (hcase.imp Ne.symm id)) (hentry 3 q (Or.inl (by omega)))
    · rw [not_or, not_not, not_not] at hcase
      obtain ⟨rfl, hag⟩ := hcase
      have hpq : entryOf m.memory root 2 q = entryOf m.memory root 2 p := (look_congr hag).symm
      have hmissing := entryOf_missing m.memory root q (d := 2) (by rw [hpq, hp])
      rw [translate, translate, hself hag, hentry 3 q (Or.inl (by decide)), hmissing, hpq]
      simp [mapping, hp, hs rfl]
  · rw [hy]
    exact Nat.le_refl _
  · rw [hy]
    exact List.mem_cons_of_mem _ hb

theorem Tree.openTable_missing (h : Tree m root) (ha : tableOf m.memory root D p = some a)
    (hD : D < 3) (hs : D = 2 → sizePat (entryOf m.memory root D p) = false)
    (hp : present (entryOf m.memory root D p) = false) (hpages : m.pages ≠ []) :
    ∃ m' b, openTable m (a * 2 ^ 12) (tableIndex D p) = some (m', b * 2 ^ 12) ∧
    Opened m m' root D p b := by
  have hlook : entryOf m.memory root D p = slots m.memory a (tableIndex D p) := look_of_some ha
  obtain ⟨y, pages, hy⟩ := List.exists_cons_of_ne_nil hpages
  have hmem : y ∈ m.pages := by
    rw [hy]
    exact List.mem_cons_self
  obtain ⟨h0, hal, hlt⟩ := h.page y hmem
  obtain ⟨f, rfl⟩ : ∃ f, y = f * 2 ^ 12 := ⟨y / 2 ^ 12, by omega⟩
  have hfresh : Fresh tables (slots m.memory) root a f D p
      (tableEntry (slots m.memory a (tableIndex D p)) f) 0 := by
    refine ⟨h.separate, ha, ?_, ?_, fun d q hq => h.unused _ hmem d q (hq.trans ?_), nextTable_zero⟩
    · rw [hlook] at hp
      exact nextTable_of_not_present hp
    · refine (nextTable_of_present hD present_tableEntry (fun h2 => ?_)).trans ?_
      · rw [sizePat_tableEntry, ← hlook]
        exact hs h2
      · rw [physicalAddr_tableEntry, Nat.mod_eq_of_lt (by omega)]
    · rw [Nat.mul_div_cancel _ (by decide)]
  obtain ⟨memory, hrun, hslots⟩ := Paging.openTable_missing (hlook ▸ hp) hy h0
  exact ⟨_, f, hrun, h.opened_link hD hs hp hy hfresh hslots⟩

theorem Tree.openTable (h : Tree m root) (ha : tableOf m.memory root D p = some a) (hD : D < 3)
    (hs : D = 2 → sizePat (entryOf m.memory root D p) = false) (hpages : m.pages ≠ []) :
    ∃ m' b, Paging.openTable m (a * 2 ^ 12) (tableIndex D p) = some (m', b * 2 ^ 12) ∧
      Opened m m' root D p b := by
  cases hp : present (entryOf m.memory root D p) with
  | true =>
    obtain ⟨b, hrun, hopen⟩ := h.openTable_present ha hD hs hp
    exact ⟨m, b, hrun, hopen⟩
  | false => exact h.openTable_missing ha hD hs hp hpages

theorem Tree.opened {t : ℕ} (h : Tree m root) (ha : tableOf m.memory root D p = some a) (hD : D < 3)
    (hs : D = 2 → sizePat (entryOf m.memory root D p) = false)
    (hrun : Paging.openTable m (a * 2 ^ 12) (tableIndex D p) = some (m', t)) :
    ∃ b, t = b * 2 ^ 12 ∧ Opened m m' root D p b := by
  by_cases hpages : m.pages = []
  · have hlook : entryOf m.memory root D p = Paging.entry m.memory (a * 2 ^ 12) (tableIndex D p) :=
      look_of_some ha
    cases hp : present (entryOf m.memory root D p) with
    | true =>
      obtain ⟨b, hrun', hopen⟩ := h.openTable_present ha hD hs hp
      rw [hrun] at hrun'
      cases hrun'
      exact ⟨b, rfl, hopen⟩
    | false =>
      rw [hlook] at hp
      rw [Paging.openTable, hp, hpages] at hrun
      cases hrun
  · obtain ⟨m₁, b, hrun', hopen⟩ := h.openTable ha hD hs hpages
    rw [hrun] at hrun'
    cases hrun'
    exact ⟨b, rfl, hopen⟩

theorem tableOf_blank (root d q : ℕ) : tableOf (fun _ => 0) root (d + 1) q = none := by
  apply node_none_of_le (d := 1) _ (Nat.succ_le_succ (Nat.zero_le d))
  have hzero : slots (fun _ => 0) root (tableIndex 0 q) = 0 := getLE_zero ..
  rw [node_succ_of_some (a := root) rfl]
  change nextTable 0 (slots (fun _ => 0) root (tableIndex 0 q)) = none
  rw [hzero, nextTable_zero]

theorem entryOf_blank (root d q : ℕ) : entryOf (fun _ => 0) root d q = 0 := by
  cases d with
  | zero => exact getLE_zero ..
  | succ d => exact look_of_none (tableOf_blank root d q)

theorem Tree.blank {pages : List ℕ} {nx : Bool} {trace : List Event} (hnodup : pages.Nodup)
    (hpage : ∀ a ∈ pages, a ≠ 0 ∧ a % 2 ^ 12 = 0 ∧ a < 2 ^ 48) (hroot : root * 2 ^ 12 ∉ pages) :
    Tree ⟨fun _ => 0, pages, nx, trace⟩ root := by
  refine ⟨fun d d' k l a hk hl => ?_, hnodup, hpage, fun a ha d q hq => ?_⟩
  · cases d with
    | zero =>
      cases d' with
      | zero => exact ⟨rfl, fun j hj => absurd hj (Nat.not_lt_zero j)⟩
      | succ d' => cases (tableOf_blank root d' l).symm.trans hl
    | succ d => cases (tableOf_blank root d k).symm.trans hk
  · cases d with
    | zero =>
      have hra : root = a / 2 ^ 12 := Option.some.inj hq
      have hmod := (hpage a ha).2.1
      obtain rfl : a = root * 2 ^ 12 := by omega
      exact hroot ha
    | succ d => cases (tableOf_blank root d q).symm.trans hq

def blankMachine (pages : List ℕ) : Machine := ⟨fun _ => 0, pages, true, []⟩

theorem entryOf_of_table (h : tableOf memory root 3 p = some b) :
    present (entryOf memory root 2 p) = true ∧ sizePat (entryOf memory root 2 p) = false := by
  cases hn : tableOf memory root 2 p with
  | none =>
    rw [tableOf, node_succ_of_none hn] at h
    cases h
  | some a =>
    have hlook : entryOf memory root 2 p = slots memory a (tableIndex 2 p) := look_of_some hn
    rw [tableOf, node_succ_of_some hn] at h
    change nextTable 2 (slots memory a (tableIndex 2 p)) = _ at h
    rw [nextTable] at h
    rw [hlook]
    split_ifs at h with hc
    exact ⟨hc.2.1, by simpa using hc.2.2⟩

theorem Tree.put {memory : Buffer} {trace : List Event} (h : Tree m root)
    (ha : tableOf m.memory root D p = some a) (he : nextTable D e = none)
    (hslots : slots memory = Radix.put (slots m.memory) a (tables.index D p) e) :
    Tree { m with memory, trace } root := by
  refine ⟨?_, h.nodup, h.page, fun b hb d q hq => ?_⟩
  · rw [hslots]
    exact h.separate.put_none ha he
  · rw [tableOf, hslots] at hq
    exact h.unused b hb d q (h.separate.node_put_sub ha he hq)

/-- The entry of a page is written, and nothing else. At most `n` pages are allocated. -/
structure Written (n : ℕ) (m m' : Machine) (root p e : ℕ) : Prop where
  tree : Tree m' root
  self : ∀ q, p % 2 ^ 36 = q % 2 ^ 36 → entryOf m'.memory root 3 q = e
  other : ∀ q, p % 2 ^ 36 ≠ q % 2 ^ 36 → entryOf m'.memory root 3 q = entryOf m.memory root 3 q
  size : ∀ q, sizePat (entryOf m'.memory root 2 q) = sizePat (entryOf m.memory root 2 q)
  kept : ∀ q, present (entryOf m.memory root 2 q) = true →
    entryOf m'.memory root 2 q = entryOf m.memory root 2 q
  away : ∀ q, ¬ Agree tables 3 p q → entryOf m'.memory root 2 q = entryOf m.memory root 2 q
  opened : present (entryOf m'.memory root 2 p) = true
  grown : ∀ d q a, tableOf m'.memory root d q = some a →
    tableOf m.memory root d q = some a ∨ a * 2 ^ 12 ∈ m.pages ∧ a * 2 ^ 12 ∉ m'.pages
  mapped : ∀ q, p % 2 ^ 36 = q % 2 ^ 36 → present e = true →
    translate m'.memory root q = some (.small (physicalAddr e))
  translate : ∀ q, p % 2 ^ 36 ≠ q % 2 ^ 36 → translate m'.memory root q = translate m.memory root q
  pages : m.pages.length ≤ m'.pages.length + n
  sub : ∀ a ∈ m'.pages, a ∈ m.pages
  nx : m'.nx = m.nx
  trace : m'.trace = m.trace ++ [.entry p (entryOf m.memory root 3 p) e]

theorem Tree.writeEntry (h : Tree m root) (hb : tableOf m.memory root 3 p = some b)
    (he : e < 2 ^ 64) :
    Written 0 m (Paging.writeEntry m (b * 2 ^ 12) (tableIndex 3 p) p e) root p e := by
  have hslots : slots (Paging.writeEntry m (b * 2 ^ 12) (tableIndex 3 p) p e).memory =
      Radix.put (slots m.memory) b (tables.index 3 p) e := slots_setEntry he
  have hdir (q : ℕ) : entryOf
    (Paging.writeEntry m (b * 2 ^ 12) (tableIndex 3 p) p e).memory root 2 q =
      entryOf m.memory root 2 q := by
    rw [entryOf, hslots]
    exact h.separate.look_put hb (Or.inl (by decide))
  have hself {q : ℕ} (hq : p % 2 ^ 36 = q % 2 ^ 36) :
      entryOf (Paging.writeEntry m (b * 2 ^ 12) (tableIndex 3 p) p e).memory root 3 q = e := by
    rw [entryOf, hslots]
    exact h.separate.look_put_self hb (agree_four.mpr hq)
  have hother {q : ℕ} (hq : p % 2 ^ 36 ≠ q % 2 ^ 36) :
      entryOf (Paging.writeEntry m (b * 2 ^ 12) (tableIndex 3 p) p e).memory root 3 q =
        entryOf m.memory root 3 q := by
    rw [entryOf, hslots]
    exact h.separate.look_put hb (Or.inr fun hag => hq (agree_four.mp hag))
  refine ⟨h.put hb (nextTable_leaf e) hslots, fun q hq => hself hq, fun q hq => hother hq,
    fun q => by rw [hdir], fun q _ => hdir q, fun q _ => hdir q, ?_, fun d q a hq => Or.inl ?_,
    fun q hq hp => ?_,
    fun q hq => translate_congr (hdir q) (hother hq), Nat.le_refl _, fun _ ha => ha, rfl, ?_⟩
  · rw [hdir]
    exact (entryOf_of_table hb).1
  · rw [tableOf, hslots] at hq
    exact h.separate.node_put_sub hb (nextTable_leaf e) hq
  · have hpq : entryOf m.memory root 2 q = entryOf m.memory root 2 p :=
      (look_congr ((agree_four.mpr hq).mono (by decide))).symm
    obtain ⟨hpd, hsd⟩ := entryOf_of_table hb
    rw [Paging.translate, hdir, hself hq, hpq]
    simp [mapping, hpd, hsd, hp]
  · have hlook : entryOf m.memory root 3 p = slots m.memory b (tableIndex 3 p) := look_of_some hb
    rw [hlook]
    rfl

theorem Opened.size_two (h : Opened m m' root D p b) (q : ℕ) :
    sizePat (entryOf m'.memory root 2 q) = sizePat (entryOf m.memory root 2 q) := by
  by_cases hD : D = 2
  · subst hD
    exact h.size q
  · rw [h.entry 2 q (Or.inl (Ne.symm hD))]

theorem Opened.written {n : ℕ} {m₁ : Machine} (h : Opened m m₁ root D p b) (hD : D < 3)
    (hw : Written n m₁ m' root p e) : Written (n + 1) m m' root p e := by
  have h3 (q : ℕ) : entryOf m₁.memory root 3 q = entryOf m.memory root 3 q :=
    h.entry 3 q (Or.inl (by omega))
  refine ⟨hw.tree, hw.self, fun q hq => (hw.other q hq).trans (h3 q),
    fun q => (hw.size q).trans (h.size_two q), fun q hq => ?_,
    fun q hq => (hw.away q hq).trans (h.entry 2 q ?_), hw.opened, fun d q a hq => ?_, hw.mapped,
    fun q hq => (hw.translate q hq).trans (h.translate q), ?_, fun a ha => h.sub a (hw.sub a ha),
    hw.nx.trans h.nx, ?_⟩
  · have hkept := h.kept 2 q hq
    exact (hw.kept q (by rw [hkept, hq])).trans hkept
  · by_cases hD2 : D = 2
    · subst hD2
      exact Or.inr hq
    · exact Or.inl (Ne.symm hD2)
  · rcases hw.grown d q a hq with hold | ⟨hmem, hnot⟩
    · exact (h.grown d q a hold).imp id fun hg => ⟨hg.1, fun hm => hg.2 (hw.sub _ hm)⟩
    · exact Or.inr ⟨h.sub _ hmem, hnot⟩
  · have := h.pages
    have := hw.pages
    omega
  · rw [hw.trace, h.trace, h3]

theorem Tree.openDirectory (h : Tree m (pageMap / 2 ^ 12)) (p : ℕ) (hpages : 2 ≤ m.pages.length) :
    ∃ m₁ m₂ b c, Paging.openTable m (untagged pageMap) (p / 2 ^ 27 % 512) = some (m₁, b * 2 ^ 12) ∧
      Paging.openTable m₁ (b * 2 ^ 12) (p / 2 ^ 18 % 512) = some (m₂, c * 2 ^ 12) ∧
      Opened m m₁ (pageMap / 2 ^ 12) 0 p b ∧ Opened m₁ m₂ (pageMap / 2 ^ 12) 1 p c := by
  obtain ⟨m₁, b, hrun₁, h₁⟩ := h.openTable (D := 0) (p := p) (a := pageMap / 2 ^ 12) rfl (by decide)
    (fun h => by cases h) (List.ne_nil_of_length_pos (by omega))
  have hpages₁ := h₁.pages
  obtain ⟨m₂, c, hrun₂, h₂⟩ := h₁.tree.openTable h₁.table (by decide) (fun h => by cases h)
    (List.ne_nil_of_length_pos (by omega))
  exact ⟨m₁, m₂, b, c, hrun₁, hrun₂, h₁, h₂⟩

theorem Tree.written (h : Tree m (pageMap / 2 ^ 12)) (hflags : has flags pmLargePages = false)
    (hs : sizePat (entryOf m.memory (pageMap / 2 ^ 12) 2 p) = false)
    (hrun : mapEntry m pageMap p x flags = some m') :
    Written 3 m m' (pageMap / 2 ^ 12) p (setPhysicalAddr (modelEntry m.nx flags) x) := by
  obtain ⟨⟨m₁, t₁⟩, hrun₁, hrun⟩ := Option.bind_eq_some_iff.mp hrun
  obtain ⟨⟨m₂, t₂⟩, hrun₂, hrun⟩ := Option.bind_eq_some_iff.mp hrun
  obtain ⟨b, rfl, h₁⟩ := h.opened (D := 0) (p := p) (a := pageMap / 2 ^ 12) rfl (by decide)
    (fun h => by cases h) hrun₁
  obtain ⟨c, rfl, h₂⟩ := h₁.tree.opened h₁.table (by decide) (fun h => by cases h) hrun₂
  simp only [hflags, Bool.false_eq_true, if_false] at hrun
  obtain ⟨⟨m₃, t₃⟩, hrun₃, rfl⟩ := Option.map_eq_some_iff.mp hrun
  obtain ⟨f, rfl, h₃⟩ := h₂.tree.opened h₂.table (by decide)
    (fun _ => by rw [h₂.size_two, h₁.size_two, hs]) hrun₃
  have hw := h₃.tree.writeEntry h₃.table (e := setPhysicalAddr (modelEntry m.nx flags) x)
    (setPhysicalAddr_lt modelEntry_lt)
  have hindex : p % 512 = tableIndex 3 p := by simp [tableIndex]
  dsimp only
  rw [hindex]
  exact h₁.written (by decide) (h₂.written (by decide) (h₃.written (by decide) hw))

theorem Tree.mapEntry_small (h : Tree m (pageMap / 2 ^ 12))
    (hflags : has flags pmLargePages = false)
    (hs : sizePat (entryOf m.memory (pageMap / 2 ^ 12) 2 p) = false) (hpages : 3 ≤ m.pages.length) :
    ∃ m', mapEntry m pageMap p x flags = some m' := by
  obtain ⟨m₁, m₂, b, c, hrun₁, hrun₂, h₁, h₂⟩ := h.openDirectory p (by omega)
  have hpages₁ := h₁.pages
  have hpages₂ := h₂.pages
  obtain ⟨m₃, f, hrun₃, h₃⟩ := h₂.tree.openTable h₂.table (by decide)
    (fun _ => by rw [h₂.size_two, h₁.size_two, hs]) (List.ne_nil_of_length_pos (by omega))
  have h₃' : Paging.openTable m₂ (c * 2 ^ 12) (p / 2 ^ 9 % 512) = some (m₃, f * 2 ^ 12) := hrun₃
  simp only [mapEntry, hrun₁, Option.bind_some, hrun₂, hflags, Bool.false_eq_true, if_false, h₃',
    Option.map_some]
  exact ⟨_, rfl⟩

/-- The entry of a page of `2 ^ 21` bytes is written, and nothing else. -/
structure WrittenLarge (n : ℕ) (m m' : Machine) (root p e : ℕ) : Prop where
  tree : Tree m' root
  mapped : ∀ q, p / 512 % 2 ^ 27 = q / 512 % 2 ^ 27 → present e = true →
    translate m'.memory root q = some (.large (physicalAddr e))
  other : ∀ q, p / 512 % 2 ^ 27 ≠ q / 512 % 2 ^ 27 →
    entryOf m'.memory root 2 q = entryOf m.memory root 2 q
  translate : ∀ q, p / 512 % 2 ^ 27 ≠ q / 512 % 2 ^ 27 →
    translate m'.memory root q = translate m.memory root q
  pages : m.pages.length ≤ m'.pages.length + n
  nx : m'.nx = m.nx
  trace : m'.trace = m.trace ++ [.entry p (entryOf m.memory root 2 p) e]

theorem Tree.writeEntry_large (h : Tree m root) (hb : tableOf m.memory root 2 p = some b)
    (he : e < 2 ^ 64) (hs : sizePat e = true) :
    WrittenLarge 0 m (Paging.writeEntry m (b * 2 ^ 12) (tableIndex 2 p) p e) root p e := by
  have hslots : slots (Paging.writeEntry m (b * 2 ^ 12) (tableIndex 2 p) p e).memory =
      Radix.put (slots m.memory) b (tables.index 2 p) e := slots_setEntry he
  have hother {q : ℕ} (d : ℕ) (hq : p / 512 % 2 ^ 27 ≠ q / 512 % 2 ^ 27) :
      entryOf (Paging.writeEntry m (b * 2 ^ 12) (tableIndex 2 p) p e).memory root d q =
        entryOf m.memory root d q := by
    rw [entryOf, hslots]
    exact h.separate.look_put hb (Or.inr fun hag => hq (agree_three.mp hag))
  refine ⟨h.put hb (nextTable_large hs) hslots, fun q hq hp => ?_, fun q hq => hother 2 hq,
    fun q hq => translate_congr (hother 2 hq) (hother 3 hq), Nat.le_refl _, rfl, ?_⟩
  · have hself : entryOf (Paging.writeEntry m (b * 2 ^ 12) (tableIndex 2 p) p e).memory root 2 q =
        e := by
      rw [entryOf, hslots]
      exact h.separate.look_put_self hb (agree_three.mpr hq)
    rw [Paging.translate, hself]
    simp [mapping, hp, hs]
  · have hlook : entryOf m.memory root 2 p = slots m.memory b (tableIndex 2 p) := look_of_some hb
    rw [hlook]
    rfl

theorem Opened.writtenLarge {n : ℕ} {m₁ : Machine} (h : Opened m m₁ root D q b) (hD : D < 2)
    (hw : WrittenLarge n m₁ m' root p e) : WrittenLarge (n + 1) m m' root p e := by
  refine ⟨hw.tree, hw.mapped, fun q hq => (hw.other q hq).trans (h.entry 2 q (Or.inl (by omega))),
    fun q hq => (hw.translate q hq).trans (h.translate q), ?_, hw.nx.trans h.nx, ?_⟩
  · have := h.pages
    have := hw.pages
    omega
  · rw [hw.trace, h.trace, h.entry 2 p (Or.inl (by omega))]

theorem Tree.writtenLarge (h : Tree m (pageMap / 2 ^ 12)) (hflags : has flags pmLargePages = true)
    (hrun : mapEntry m pageMap p x flags = some m') :
    WrittenLarge 2 m m' (pageMap / 2 ^ 12) p
      (setPhysicalAddr (modelEntry m.nx flags) (x ||| physicalAddr (modelEntry m.nx flags))) := by
  obtain ⟨⟨m₁, t₁⟩, hrun₁, hrun⟩ := Option.bind_eq_some_iff.mp hrun
  obtain ⟨⟨m₂, t₂⟩, hrun₂, hrun⟩ := Option.bind_eq_some_iff.mp hrun
  obtain ⟨b, rfl, h₁⟩ := h.opened (D := 0) (p := p) (a := pageMap / 2 ^ 12) rfl (by decide)
    (fun h => by cases h) hrun₁
  obtain ⟨c, rfl, h₂⟩ := h₁.tree.opened h₁.table (by decide) (fun h => by cases h) hrun₂
  simp only [hflags, if_true] at hrun
  cases hrun
  have hw := h₂.tree.writeEntry_large h₂.table
    (e := setPhysicalAddr (modelEntry m.nx flags) (x ||| physicalAddr (modelEntry m.nx flags)))
    (setPhysicalAddr_lt modelEntry_lt) (by rw [sizePat_setPhysicalAddr, sizePat_modelEntry hflags])
  exact h₁.writtenLarge (by decide) (h₂.writtenLarge (by decide) hw)

theorem Tree.mapEntry_large (h : Tree m (pageMap / 2 ^ 12)) (hflags : has flags pmLargePages = true)
    (hpages : 2 ≤ m.pages.length) : ∃ m', mapEntry m pageMap p x flags = some m' := by
  obtain ⟨m₁, m₂, b, c, hrun₁, hrun₂, -, -⟩ := h.openDirectory p hpages
  simp only [mapEntry, hrun₁, Option.bind_some, hrun₂, hflags, if_true]
  exact ⟨_, rfl⟩

end DevOs.Paging
