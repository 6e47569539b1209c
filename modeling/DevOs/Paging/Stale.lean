import DevOs.Paging.Map

/-!
# Entries with a stale size bit

An entry of a page directory that is not present may have its size bit set, for example after a
large page was unmapped. `MapPhysicalPages` makes such an entry lead to a new page table, but the
bit stays, and so the number of the table is read as that of a large page.
-/

namespace DevOs.Paging

open Bytes Fields Radix

variable {memory : Buffer} {m m' m₁ : Machine} {root pageMap a b f p q r d D e v x n i flags : ℕ}
  {supply : List ℕ}

def SameTables (memory memory' : Buffer) (root : ℕ) : Prop :=
  ∀ d q a, tableOf memory root d q = some a → slots memory' a = slots memory a

theorem SameTables.tableOf_eq {memory' : Buffer} (h : SameTables memory memory' root) (d q : ℕ) :
    tableOf memory' root d q = tableOf memory root d q :=
  node_eq_of_slots fun j _ a ha => by rw [h j q a ha]

theorem SameTables.entryOf_eq {memory' : Buffer} (h : SameTables memory memory' root) (d q : ℕ) :
    entryOf memory' root d q = entryOf memory root d q := by
  cases hn : tableOf memory root d q with
  | none => rw [entryOf, entryOf, look_of_none hn, look_of_none ((h.tableOf_eq d q).trans hn)]
  | some a =>
    rw [entryOf, entryOf, look_of_some hn, look_of_some ((h.tableOf_eq d q).trans hn), h d q a hn]

theorem Tree.of_sameTables {memory : Buffer} {pages : List ℕ} {trace : List Event} (h : Tree m root)
    (hsame : SameTables m.memory memory root) (hpages : pages.Sublist m.pages) :
    Tree { m with memory, pages, trace } root := by
  refine ⟨h.separate.of_sub fun d k a ha => ?_, hpages.nodup h.nodup,
    fun a ha => h.page a (hpages.subset ha),
    fun a ha d q hq => h.unused a (hpages.subset ha) d q ?_⟩
  · exact (hsame.tableOf_eq d k).symm.trans ha
  · exact (hsame.tableOf_eq d q).symm.trans hq

theorem sameTables_setEntry {i : Fin 512} (hf : ∀ d q, tableOf memory root d q ≠ some f)
    (he : e < 2 ^ 64) :
    SameTables memory (setEntry memory (f * 2 ^ 12) i e) root := by
  intro d q a ha
  funext j
  rw [slots_setEntry he, put_of_ne (Or.inl fun haf => hf d q (by rw [ha, haf]))]

theorem sameTables_clear (hf : ∀ d q, tableOf memory root d q ≠ some f) :
    SameTables memory (clear memory (f * 2 ^ 12) 0x1000) root := by
  intro d q a ha
  funext j
  rw [slots_clear]
  exact if_neg fun haf => hf d q (by rw [ha, haf])

theorem SameTables.trans {memory₁ memory₂ : Buffer} (h : SameTables memory memory₁ root)
    (h' : SameTables memory₁ memory₂ root) : SameTables memory memory₂ root :=
  fun d q a ha => (h' d q a ((h.tableOf_eq d q).trans ha)).trans (h d q a ha)

/-- The large pages in a range were made by `MapPhysicalPages` from the pages of a supply. -/
structure Rough (m : Machine) (root p n : ℕ) (supply : List ℕ) : Prop where
  tree : Tree m root
  sub : ∀ a ∈ m.pages, a ∈ supply
  large : ∀ i < n, present (entryOf m.memory root 2 (p + i)) = true →
    sizePat (entryOf m.memory root 2 (p + i)) = true →
    physicalAddr (entryOf m.memory root 2 (p + i)) * 2 ^ 12 ∈ supply ∧
      physicalAddr (entryOf m.memory root 2 (p + i)) * 2 ^ 12 ∉ m.pages ∧
      ∀ d q, tableOf m.memory root d q ≠ some (physicalAddr (entryOf m.memory root 2 (p + i)))

/-- The entries of the page directories are kept once they are present, and the size bits always. -/
structure DirectoryKept (m m' : Machine) (root : ℕ) : Prop where
  entry : ∀ q, present (entryOf m.memory root 2 q) = true →
    entryOf m'.memory root 2 q = entryOf m.memory root 2 q
  size : ∀ q, sizePat (entryOf m'.memory root 2 q) = sizePat (entryOf m.memory root 2 q)

theorem DirectoryKept.trans (h : DirectoryKept m m₁ root) (h' : DirectoryKept m₁ m' root) :
    DirectoryKept m m' root :=
  ⟨fun q hq => (h'.entry q (by rw [h.entry q hq, hq])).trans (h.entry q hq),
    fun q => (h'.size q).trans (h.size q)⟩

theorem Rough.step (h : Rough m root p n supply) (htree : Tree m' root)
    (hsub : ∀ a ∈ m'.pages, a ∈ m.pages) (hgrown : ∀ d q a, tableOf m'.memory root d q = some a →
      tableOf m.memory root d q = some a ∨ a * 2 ^ 12 ∈ m.pages ∧ a * 2 ^ 12 ∉ m'.pages)
    (hlarge : ∀ i < n, present (entryOf m'.memory root 2 (p + i)) = true →
      sizePat (entryOf m'.memory root 2 (p + i)) = true →
      entryOf m'.memory root 2 (p + i) = entryOf m.memory root 2 (p + i)) :
    Rough m' root p n supply := by
  refine ⟨htree, fun a ha => h.sub a (hsub a ha), fun i hi hp hs => ?_⟩
  have he := hlarge i hi hp hs
  rw [he] at hp hs ⊢
  obtain ⟨hmem, hnot, hno⟩ := h.large i hi hp hs
  refine ⟨hmem, fun hm => hnot (hsub _ hm), fun d q hq => ?_⟩
  rcases hgrown d q _ hq with hold | ⟨hm, -⟩
  · exact hno d q hold
  · exact hnot hm

theorem Rough.opened (h : Rough m root p n supply) (ho : Opened m m' root D r b) (hD : D < 2) :
    Rough m' root p n supply :=
  h.step ho.tree ho.sub ho.grown fun i _ _ _ => ho.entry 2 _ (Or.inl (by omega))

theorem Opened.directoryKept (h : Opened m m' root D p b) : DirectoryKept m m' root :=
  ⟨h.kept 2, h.size_two⟩

theorem Rough.written {n' : ℕ} (h : Rough m root p n supply) (hw : Written n' m m' root r e)
    (hs : sizePat (entryOf m.memory root 2 r) = false) : Rough m' root p n supply := by
  refine h.step hw.tree hw.sub hw.grown fun i _ _ hsize => ?_
  by_cases hag : Agree tables 3 r (p + i)
  · rw [hw.size, entryOf, ← look_congr hag, ← entryOf, hs] at hsize
    cases hsize
  · exact hw.away _ hag

/-- A page in a large page. Its entry goes to the page that was taken for a table. -/
theorem Rough.writeLarge (h : Rough m root p n supply) (hi : i < n)
    (hp : present (entryOf m.memory root 2 (p + i)) = true)
    (hs : sizePat (entryOf m.memory root 2 (p + i)) = true) (j : Fin 512) (he : e < 2 ^ 64) :
    let m' := writeEntry m (physicalAddr (entryOf m.memory root 2 (p + i)) * 2 ^ 12) j r e
    Rough m' root p n supply ∧ DirectoryKept m m' root := by
  obtain ⟨-, -, hno⟩ := h.large i hi hp hs
  have hsame := sameTables_setEntry (i := j) hno he
  refine ⟨h.step (h.tree.of_sameTables hsame (List.Sublist.refl _)) (fun _ ha => ha)
    (fun d q a ha => Or.inl ?_) (fun j _ _ _ => hsame.entryOf_eq 2 _),
    fun q _ => hsame.entryOf_eq 2 q, fun q => ?_⟩
  · exact (hsame.tableOf_eq d q).symm.trans ha
  · exact congrArg sizePat (hsame.entryOf_eq 2 q)

theorem Rough.link {t : ℕ} (h : Rough m root p n supply) (ha : tableOf m.memory root 2 r = some a)
    (hp : present (entryOf m.memory root 2 r) = false)
    (hs : sizePat (entryOf m.memory root 2 r) = true)
    (hrun : openTable m (a * 2 ^ 12) (tableIndex 2 r) = some (m', t)) :
    Rough m' root p n supply ∧ DirectoryKept m m' root ∧ m'.nx = m.nx ∧
      present (entryOf m'.memory root 2 r) = true ∧
      t = physicalAddr (entryOf m'.memory root 2 r) * 2 ^ 12 := by
  have hlook : entryOf m.memory root 2 r = slots m.memory a (tableIndex 2 r) := look_of_some ha
  have hpe : present (Paging.entry m.memory (a * 2 ^ 12) (tableIndex 2 r)) = false :=
    (congrArg present hlook).symm.trans hp
  rw [openTable, hpe] at hrun
  cases hpages : m.pages with
  | nil =>
    rw [hpages] at hrun
    cases hrun
  | cons y pages =>
    have hmem : y ∈ m.pages := by
      rw [hpages]
      exact List.mem_cons_self
    obtain ⟨hy0, hal, hlt⟩ := h.tree.page y hmem
    obtain ⟨f, rfl⟩ : ∃ f, y = f * 2 ^ 12 := ⟨y / 2 ^ 12, by omega⟩
    have hnodup := h.tree.nodup
    rw [hpages, List.nodup_cons] at hnodup
    have hsub : pages.Sublist m.pages := by
      rw [hpages]
      exact List.sublist_cons_self ..
    simp only [hpages, if_neg hy0, Nat.mul_div_cancel _ (show 0 < 2 ^ 12 by decide)] at hrun
    cases hrun
    -- the entry first, and then the new page
    have hleaf : nextTable 2 (tableEntry (slots m.memory a (tableIndex 2 r)) f) = none :=
      nextTable_large (by rw [sizePat_tableEntry, ← hlook, hs])
    have hslots : slots (setEntry m.memory (a * 2 ^ 12) (tableIndex 2 r)
        (tableEntry (slots m.memory a (tableIndex 2 r)) f)) =
        put (slots m.memory) a (tables.index 2 r)
          (tableEntry (slots m.memory a (tableIndex 2 r)) f) :=
          slots_setEntry (tableEntry_lt (slots_lt ..))
    have hentry : setUserSupervisor (setReadWrite (setPresent (setPhysicalAddr
        (Paging.entry m.memory (a * 2 ^ 12) (tableIndex 2 r)) f))) =
          tableEntry (slots m.memory a (tableIndex 2 r)) f := rfl
    rw [hentry]
    generalize setEntry m.memory (a * 2 ^ 12) (tableIndex 2 r)
      (tableEntry (slots m.memory a (tableIndex 2 r)) f) = memory at hslots
    have htree : Tree { m with memory } root := h.tree.put ha hleaf hslots
    have hold {d q b : ℕ} (hq : tableOf memory root d q = some b) : tableOf m.memory root d q =
        some b := by
      rw [tableOf, hslots] at hq
      exact h.tree.separate.node_put_sub ha hleaf hq
    have hnew (d q : ℕ) : tableOf memory root d q ≠ some f := fun hq =>
      h.tree.unused _ hmem d q (by rw [hold hq, Nat.mul_div_cancel _ (by decide)])
    have hself {q : ℕ} (hag : Agree tables 3 r q) :
        entryOf memory root 2 q = tableEntry (entryOf m.memory root 2 q) f := by
      rw [entryOf, hslots]
      refine (h.tree.separate.look_put_self ha hag).trans ?_
      rw [← hlook, entryOf, entryOf, look_congr hag]
    have haway {q : ℕ} (hag : ¬ Agree tables 3 r q) :
        entryOf memory root 2 q = entryOf m.memory root 2 q := by
      rw [entryOf, hslots]
      exact h.tree.separate.look_put ha (Or.inr hag)
    have hsame := sameTables_clear hnew
    have hphys (e : ℕ) : physicalAddr (tableEntry e f) = f := by
      rw [physicalAddr_tableEntry, Nat.mod_eq_of_lt (by omega)]
    refine ⟨⟨htree.of_sameTables hsame hsub, fun b hb => h.sub b (hsub.subset hb),
      fun i hi hpi hsi => ?_⟩, ⟨fun q hq => ?_, fun q => ?_⟩, rfl, ?_, ?_⟩
    · dsimp only at hpi hsi ⊢
      rw [hsame.entryOf_eq] at hpi hsi ⊢
      by_cases hag : Agree tables 3 r (p + i)
      · rw [hself hag, hphys]
        exact ⟨h.sub _ hmem, hnodup.1,
          fun d q hq => hnew d q ((hsame.tableOf_eq d q).symm.trans hq)⟩
      · rw [haway hag] at hpi hsi ⊢
        obtain ⟨hin, hnot, hno⟩ := h.large i hi hpi hsi
        exact ⟨hin, fun hb => hnot (hsub.subset hb),
          fun d q hq => hno d q (hold ((hsame.tableOf_eq d q).symm.trans hq))⟩
    · refine (hsame.entryOf_eq 2 q).trans (haway fun hag => ?_)
      rw [entryOf, ← look_congr hag] at hq
      exact absurd (hq.symm.trans hp) (by decide)
    · refine (congrArg sizePat (hsame.entryOf_eq 2 q)).trans ?_
      by_cases hag : Agree tables 3 r q
      · rw [hself hag, sizePat_tableEntry]
      · rw [haway hag]
    · refine (congrArg present (hsame.entryOf_eq 2 r)).trans ?_
      rw [hself (fun _ _ => rfl), present_tableEntry]
    · have hr := (hsame.entryOf_eq 2 r).trans (hself (fun _ _ => rfl))
      dsimp only
      rw [hr, hphys]

theorem Rough.mapEntry (h : Rough m (pageMap / 2 ^ 12) p n supply)
    (hflags : has flags pmLargePages = false) (hi : i < n) (hr : r % 2 ^ 36 = (p + i) % 2 ^ 36)
    (hrun : mapEntry m pageMap r x flags = some m') :
    Rough m' (pageMap / 2 ^ 12) p n supply ∧ DirectoryKept m m' (pageMap / 2 ^ 12) ∧
      present (entryOf m'.memory (pageMap / 2 ^ 12) 2 r) = true := by
  cases hs : sizePat (entryOf m.memory (pageMap / 2 ^ 12) 2 r) with
  | false =>
    have hw := h.tree.written hflags hs hrun
    exact ⟨h.written hw hs, ⟨hw.kept, hw.size⟩, hw.opened⟩
  | true =>
    obtain ⟨⟨m₁, t₁⟩, hrun₁, hrun⟩ := Option.bind_eq_some_iff.mp hrun
    obtain ⟨⟨m₂, t₂⟩, hrun₂, hrun⟩ := Option.bind_eq_some_iff.mp hrun
    obtain ⟨b, rfl, h₁⟩ := h.tree.opened (D := 0) (p := r) (a := pageMap / 2 ^ 12) rfl (by decide)
      (fun h => by cases h) hrun₁
    obtain ⟨c, rfl, h₂⟩ := h₁.tree.opened h₁.table (by decide) (fun h => by cases h) hrun₂
    simp only [hflags, Bool.false_eq_true, if_false] at hrun
    obtain ⟨⟨m₃, t₃⟩, hrun₃, rfl⟩ := Option.map_eq_some_iff.mp hrun
    have hrough := (h.opened h₁ (by decide)).opened h₂ (by decide)
    have hkept := h₁.directoryKept.trans h₂.directoryKept
    have hs₂ : sizePat (entryOf m₂.memory (pageMap / 2 ^ 12) 2 r) = true := (hkept.size r).trans hs
    have hlook : entryOf m₂.memory (pageMap / 2 ^ 12) 2 r =
        Paging.entry m₂.memory (c * 2 ^ 12) (r / 2 ^ 9 % 512) := look_of_some h₂.table
    have hpr (memory : Buffer) : entryOf memory (pageMap / 2 ^ 12) 2 r =
        entryOf memory (pageMap / 2 ^ 12) 2 (p + i) := entryOf_mod _ _ (by decide) hr
    have hindex : r % 512 = (⟨r % 512, Nat.mod_lt _ (by decide)⟩ : Fin 512) := rfl
    cases hp : present (entryOf m₂.memory (pageMap / 2 ^ 12) 2 r) with
    | true =>
      have hopen : openTable m₂ (c * 2 ^ 12) (r / 2 ^ 9 % 512) =
          some (m₂, physicalAddr (entryOf m₂.memory (pageMap / 2 ^ 12) 2 r) * 2 ^ 12) := by
        rw [hlook] at hp ⊢
        rw [openTable, hp, if_pos rfl]
      rw [hopen] at hrun₃
      cases hrun₃
      dsimp only
      rw [hpr] at hs₂ hp ⊢
      rw [hindex]
      obtain ⟨hrough', hkept'⟩ :=
        hrough.writeLarge (r := r) hi hp hs₂ ⟨r % 512, Nat.mod_lt _ (by decide)⟩
        (e := setPhysicalAddr (modelEntry m.nx flags) x) (setPhysicalAddr_lt modelEntry_lt)
      exact ⟨hrough', hkept.trans hkept', by rw [hpr, hkept'.entry _ hp, hp]⟩
    | false =>
      obtain ⟨hrough₃, hkept₃, -, hp₃, rfl⟩ := hrough.link h₂.table hp hs₂ hrun₃
      have hs₃ : sizePat (entryOf m₃.memory (pageMap / 2 ^ 12) 2 r) = true :=
        (hkept₃.size r).trans hs₂
      dsimp only
      rw [hpr] at hs₃ hp₃ ⊢
      rw [hindex]
      obtain ⟨hrough', hkept'⟩ :=
        hrough₃.writeLarge (r := r) hi hp₃ hs₃ ⟨r % 512, Nat.mod_lt _ (by decide)⟩
        (e := setPhysicalAddr (modelEntry m.nx flags) x) (setPhysicalAddr_lt modelEntry_lt)
      exact ⟨hrough', (hkept.trans hkept₃).trans hkept', by rw [hpr, hkept'.entry _ hp₃, hp₃]⟩

end DevOs.Paging
