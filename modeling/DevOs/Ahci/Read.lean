import DevOs.Ahci.Slots
import Mathlib.Data.List.Perm.Basic
import Mathlib.Algebra.Order.Ring.Nat

/-!
# Reads of more than one command

`AhciSataRead` cuts a request into commands of at most `MAX_PRDT_BYTE_COUNT` bytes. The buffer and
the number of bytes that remain go on from one command to the next, and the sector address does not,
so every command reads from the first sector on. A request that fits into one command is read as it
should be. The loop at the end waits for all commands of the thread, in every run in which slots and
acknowledgements are in order.
-/

namespace DevOs.Ahci

open Words Runs

def maxPrdtByteCount : ℕ := 0x40000
def ataReadDma : ℕ := 0xC8
def ahciDeviceLba : ℕ := 0x40

/-- What a command of a read says: the fields of `ATA_FIS_H2D`, the entry of the command list and
the first `PHYSICAL_REGION_DESCRIPTOR_TABLE`. -/
structure ReadCommand where
  command : ℕ
  device : ℕ
  count : ℕ
  lba0 : ℕ
  lba1 : ℕ
  lba2 : ℕ
  lba3 : ℕ
  prdtByteCount : ℕ
  dataBaseAddress : ℕ
  dataByteCount : ℕ
deriving DecidableEq, Repr

/-- The command for `readBytes` bytes. -/
def readCommand (address buffer readBytes : ℕ) : ReadCommand where
  command := ataReadDma
  device := ahciDeviceLba
  count := (readBytes >>> 9) % 2 ^ 16
  lba0 := address % 2 ^ 16
  lba1 := (address >>> 16) % 2 ^ 8
  lba2 := (address >>> 24) % 2 ^ 16
  lba3 := (address >>> 40) % 2 ^ 8
  prdtByteCount := (readBytes >>> 9) % 2 ^ 32
  dataBaseAddress := buffer
  dataByteCount := (readBytes - 1) % 2 ^ 22

/-- The commands that `AhciSataRead` issues, in order. -/
def readCommands (address buffer remaining : ℕ) : List ReadCommand :=
  if _h : remaining = 0 then []
  else
    let readBytes := if maxPrdtByteCount < remaining then maxPrdtByteCount else remaining
    readCommand address buffer readBytes :: readCommands address (buffer + readBytes)
      (remaining - readBytes)
termination_by remaining
decreasing_by
  have hmax : 0 < maxPrdtByteCount := by decide
  split <;> omega

def ReadCommand.lba (c : ReadCommand) : ℕ :=
  c.lba0 + 2 ^ 16 * c.lba1 + 2 ^ 24 * c.lba2 + 2 ^ 40 * c.lba3

/-- The sectors that a command reads, with the address that each of them is read to. -/
def ReadCommand.transfers (c : ReadCommand) : List (ℕ × ℕ) :=
  (List.range c.count).map fun j => (c.lba + j, c.dataBaseAddress + 512 * j)

def requested (address buffer numBytes : ℕ) : List (ℕ × ℕ) :=
  (List.range (numBytes / 512)).map fun k => (address + k, buffer + 512 * k)

/-- The commands together read every sector of the request to its place, and each of them once. -/
def Covers (address buffer numBytes : ℕ) (commands : List ReadCommand) : Prop :=
  (commands.flatMap ReadCommand.transfers).Perm (requested address buffer numBytes)

theorem lba_readCommand (address buffer readBytes : ℕ) :
    (readCommand address buffer readBytes).lba = address % 2 ^ 48 := by
  rw [ReadCommand.lba]
  simp only [readCommand, Nat.shiftRight_eq_div_pow]
  omega

theorem readCommands_zero (address buffer : ℕ) : readCommands address buffer 0 = [] := by
  rw [readCommands, dif_pos rfl]

theorem readCommands_last {remaining : ℕ} (address buffer : ℕ) (hpos : remaining ≠ 0)
    (h : remaining ≤ maxPrdtByteCount) :
    readCommands address buffer remaining = [readCommand address buffer remaining] := by
  rw [readCommands, dif_neg hpos]
  dsimp only
  rw [if_neg (Nat.not_lt.mpr h), Nat.sub_self, readCommands_zero]

theorem mem_transfers_lt {address buffer remaining : ℕ} {x : ℕ × ℕ}
    (h : x ∈ (readCommands address buffer remaining).flatMap ReadCommand.transfers) :
    x.1 < address % 2 ^ 48 + 512 := by
  induction remaining using Nat.strong_induction_on generalizing buffer with
  | _ remaining ih =>
    rw [readCommands] at h
    split at h
    · cases h
    · next hpos =>
      rw [List.flatMap_cons, List.mem_append] at h
      have hmax : maxPrdtByteCount = 262144 := rfl
      rcases h with h | h
      · obtain ⟨j, hj, rfl⟩ := List.mem_map.mp h
        have hcount : j <
            ((if maxPrdtByteCount < remaining then maxPrdtByteCount else remaining) >>> 9) %
            2 ^ 16 :=
          List.mem_range.mp hj
        rw [lba_readCommand]
        rw [Nat.shiftRight_eq_div_pow] at hcount
        split at hcount <;> omega
      · exact ih _ (by split <;> omega) h

theorem covers_iff {address buffer numBytes : ℕ} (h : 512 ∣ numBytes) :
    Covers address buffer numBytes (readCommands address buffer numBytes) ↔
      numBytes = 0 ∨ numBytes ≤ maxPrdtByteCount ∧ address < 2 ^ 48 := by
  have hmax : maxPrdtByteCount = 262144 := rfl
  constructor
  · intro hc
    by_cases hzero : numBytes = 0
    · exact Or.inl hzero
    · right
      have hread : ∀ k < numBytes / 512, address + k < address % 2 ^ 48 + 512 := by
        intro k hk
        have hmem : (address + k, buffer + 512 * k) ∈ requested address buffer numBytes :=
          List.mem_map.mpr ⟨k, List.mem_range.mpr hk, rfl⟩
        exact mem_transfers_lt (hc.mem_iff.mpr hmem)
      have hfirst := hread 0 (by omega)
      refine ⟨?_, by omega⟩
      by_contra hlarge
      have hlast := hread 512 (by omega)
      omega
  · rintro (rfl | ⟨hle, haddress⟩)
    · rw [Covers, readCommands_zero]
      exact List.Perm.refl _
    · by_cases hzero : numBytes = 0
      · subst hzero
        rw [Covers, readCommands_zero]
        exact List.Perm.refl _
      · have hcount : (readCommand address buffer numBytes).count = numBytes / 512 := by
          change (numBytes >>> 9) % 2 ^ 16 = numBytes / 512
          rw [Nat.shiftRight_eq_div_pow]
          omega
        rw [Covers, readCommands_last address buffer hzero hle, List.flatMap_singleton,
          ReadCommand.transfers, lba_readCommand, hcount, Nat.mod_eq_of_lt haddress]
        exact List.Perm.refl _

/-- Beside a run: the commands that were issued and that the controller has not completed, by thread
and slot, and for the last read of each thread how many commands it has and how many of them were
issued. -/
structure Tally where
  outstanding : ℕ → ℕ → Bool
  total : ℕ → ℕ
  posted : ℕ → ℕ

def Tally.initial : Tally := ⟨fun _ _ => false, fun _ => 0, fun _ => 0⟩

def noteTally (p : Port) (a : Action) (y : Tally) : Tally :=
  match a with
  | .read t n =>
      { y with total := Function.update y.total t n, posted := Function.update y.posted t 0 }
  | .step t =>
    match p.pcs t with
    | .posted k i =>
      { y with
        outstanding := Function.update y.outstanding t (Function.update (y.outstanding t) i true)
        posted := if k = .issue then y.posted else Function.update y.posted t (y.posted t + 1) }
    | _ => y
  | .complete c => { y with outstanding := fun t i => if i = c then false else y.outstanding t i }
  | _ => y

def noteRead (p : Port) (a : Action) (x : Commands × Tally) : Commands × Tally :=
  (noteAction p a x.1, noteTally p a x.2)

/-- The next statement of the thread is the return of `AhciSataRead`. -/
def Port.Returns (p : Port) (t : ℕ) : Prop := ∃ i, p.pcs t = .wait false i ∧ p.maxCommandSlots ≤ i

def Caller.Left (k : Caller) (y : Tally) (t : ℕ) : Prop :=
  ∀ n, k = .read n → y.posted t + n + 1 = y.total t

def PcOk (p : Port) (y : Tally) (t : ℕ) : Pc → Prop
  | .clean n _ => n ≠ 0 ∧ y.posted t + n = y.total t
  | .cleanFound n _ => n ≠ 0 ∧ y.posted t + n = y.total t
  | .cleanRelease n _ => n ≠ 0 ∧ y.posted t + n = y.total t
  | .readMask k => k.Left y t
  | .scan k _ _ => k.Left y t
  | .claim k _ i => k.Left y t ∧ i < p.maxCommandSlots
  | .allocated k i => k.Left y t ∧ i < p.maxCommandSlots
  | .store k i => k.Left y t ∧ i < p.maxCommandSlots
  | .posted k i => k.Left y t ∧ i < p.maxCommandSlots
  | .wait threadPending i =>
    y.posted t = y.total t ∧ (threadPending = false → ∀ j < i, p.pendingCommands j ≠ some t)
  | .waitFound _ => y.posted t = y.total t
  | .waitRelease _ => y.posted t = y.total t
  | _ => True

/-- What every step keeps. -/
structure Waiting (p : Port) (g : Commands) (y : Tally) : Prop where
  exclusive : Exclusive p g
  issued : ∀ t i, y.outstanding t i = true → (t, .issued) ∈ g i
  bounded : ∀ i, p.pendingCommands i ≠ none → i < p.maxCommandSlots
  pcs : ∀ t, PcOk p y t (p.pcs t)

section Waiting

variable {p p' : Port} {g : Commands} {y y' : Tally} {t u i : ℕ}

theorem Exclusive.pending_of_issued (h : Exclusive p g) (hmem : (t, .issued) ∈ g i) :
    p.pendingCommands i = some t := by
  have hi := h i
  generalize g i = l at hi hmem
  cases hi with
  | free => cases hmem
  | claimed v => cases List.mem_singleton.mp hmem
  | posted v => cases List.mem_singleton.mp hmem
  | issued v _ _ hpend =>
    cases List.mem_singleton.mp hmem
    exact hpend
  | completed v => cases List.mem_singleton.mp hmem
  | acknowledged v => cases List.mem_singleton.mp hmem

/-- When a read returns, all its commands were issued and the controller has completed them. -/
theorem Waiting.returns (h : Waiting p g y) (hret : p.Returns t) :
    (∀ i, y.outstanding t i = false) ∧ y.posted t = y.total t := by
  obtain ⟨n, hpc, hn⟩ := hret
  have hok := h.pcs t
  rw [hpc] at hok
  refine ⟨fun i => ?_, hok.1⟩
  by_contra hout
  rw [Bool.not_eq_false] at hout
  have hpend := h.exclusive.pending_of_issued (h.issued t i hout)
  have hlt : i < p.maxCommandSlots := h.bounded i (by rw [hpend]; exact Option.some_ne_none t)
  exact hok.2 rfl i (by omega) hpend

/-- A thread knows the same when its own numbers and the entries of its slots are the same. -/
theorem PcOk.congr {pc : Pc} (h : PcOk p y t pc) (hmax : p'.maxCommandSlots = p.maxCommandSlots)
    (hpend : ∀ j, p'.pendingCommands j = some t → p.pendingCommands j = some t)
    (hposted : y'.posted t = y.posted t) (htotal : y'.total t = y.total t) : PcOk p' y' t pc := by
  have hleft : ∀ k : Caller, k.Left y t → k.Left y' t := by
    intro k hk n hn
    rw [hposted, htotal]
    exact hk n hn
  cases pc with
  | outside => trivial
  | clean n i => exact ⟨h.1, by rw [hposted, htotal]; exact h.2⟩
  | cleanFound n i => exact ⟨h.1, by rw [hposted, htotal]; exact h.2⟩
  | cleanRelease n i => exact ⟨h.1, by rw [hposted, htotal]; exact h.2⟩
  | readMask k => exact hleft k h
  | scan k mask i => exact hleft k h
  | claim k mask i => exact ⟨hleft k h.1, by rw [hmax]; exact h.2⟩
  | allocated k i => exact ⟨hleft k h.1, by rw [hmax]; exact h.2⟩
  | store k i => exact ⟨hleft k h.1, by rw [hmax]; exact h.2⟩
  | posted k i => exact ⟨hleft k h.1, by rw [hmax]; exact h.2⟩
  | wait b i =>
    refine ⟨by rw [hposted, htotal]; exact h.1, fun hb j hj hp => ?_⟩
    exact h.2 hb j hj (hpend j hp)
  | waitFound i => exact (hposted.trans h).trans htotal.symm
  | waitRelease i => exact (hposted.trans h).trans htotal.symm
  | await i => trivial
  | awaitFound i => trivial
  | awaitRelease i => trivial

theorem mem_advance {x : Option ℕ} {a b : Phase} {c : ℕ} (ha : a ≠ .issued)
    (hmem : (u, .issued) ∈ g i) :
    (u, .issued) ∈ g.advance x c a b i := by
  rw [Commands.advance]
  by_cases hic : i = c
  · subst hic
    rw [Function.update_self, List.mem_map]
    exact ⟨(u, .issued), hmem, if_neg fun h => ha h.1.symm⟩
  · rw [Function.update_of_ne hic]
    exact hmem

theorem Exclusive.mem_drop (h : Exclusive p g) {j : ℕ} (hst : p.stage t j = .consumes)
    (hmem : (u, .issued) ∈ g i) : (u, .issued) ∈ g.drop t j i := by
  rw [Commands.drop]
  by_cases hij : i = j
  · subst hij
    rw [((h i).of_consumes hst).1] at hmem
    cases List.mem_singleton.mp hmem
  · rw [Function.update_of_ne hij]
    exact hmem

theorem Exclusive.issued_kept (h : Exclusive p g) {a : Action} (hmem : (u, .issued) ∈ g i)
    (ha : a ≠ .complete i) : (u, .issued) ∈ noteAction p a g i := by
  cases a with
  | read t n => exact hmem
  | issue t => exact hmem
  | interrupt => exact hmem
  | complete c =>
    rw [noteAction, Commands.advance, Function.update_of_ne fun hc => ha (congrArg _ hc.symm)]
    exact hmem
  | handle =>
    cases hack : p.acknowledges with
    | none =>
      simp only [noteAction, hack]
      exact hmem
    | some c =>
      simp only [noteAction, hack]
      exact mem_advance (by decide) hmem
  | step t =>
    rw [noteAction]
    cases hpc : p.pcs t with
    | claim k mask j =>
      simp only [noteStep, hpc]
      split
      · exact hmem
      · rw [Commands.claim]
        by_cases hij : i = j
        · subst hij
          rw [Function.update_self]
          exact List.mem_cons_of_mem _ hmem
        · rw [Function.update_of_ne hij]
          exact hmem
    | allocated k j =>
      have hclaims : p.stage t j = .claims := by
        rw [Port.stage, hpc]
        exact if_pos rfl
      simp only [noteStep, hpc]
      rw [if_neg fun hx => hx.2 ((h j).of_claims hclaims).2.2.2.2.1]
      exact hmem
    | posted k j =>
      simp only [noteStep, hpc]
      exact mem_advance (by decide) hmem
    | cleanFound n j =>
      simp only [noteStep, hpc]
      refine h.mem_drop ?_ hmem
      rw [Port.stage, hpc]
      exact if_pos rfl
    | waitFound j =>
      simp only [noteStep, hpc]
      refine h.mem_drop ?_ hmem
      rw [Port.stage, hpc]
      exact if_pos rfl
    | awaitFound j =>
      simp only [noteStep, hpc]
      refine h.mem_drop ?_ hmem
      rw [Port.stage, hpc]
      exact if_pos rfl
    | _ =>
      simp only [noteStep, hpc]
      exact hmem

theorem pcs_setPc {q : Port} {pc' : Pc} (h : ∀ u, PcOk p y u (p.pcs u)) (hpcs : q.pcs = p.pcs)
    (hmax : q.maxCommandSlots = p.maxCommandSlots)
    (hpend : ∀ u, u ≠ t → ∀ j, q.pendingCommands j = some u → p.pendingCommands j = some u)
    (hposted : ∀ u, u ≠ t → y'.posted u = y.posted u) (htotal : ∀ u, u ≠ t → y'.total u = y.total u)
    (hpc' : PcOk (q.setPc t pc') y' t pc') (u : ℕ) :
    PcOk (q.setPc t pc') y' u ((q.setPc t pc').pcs u) := by
  rw [Port.setPc, hpcs]
  dsimp only
  by_cases hu : u = t
  · subst hu
    rw [Function.update_self]
    exact hpc'
  · rw [Function.update_of_ne hu]
    exact (h u).congr hmax (hpend u hu) (hposted u hu) (htotal u hu)

theorem pending_of_release {j : ℕ} (hp : (p.setPending i none).pendingCommands j = some u) :
    p.pendingCommands j = some u := by
  change Function.update p.pendingCommands i none j = some u at hp
  by_cases hji : j = i
  · rw [hji, Function.update_self] at hp
    cases hp
  · rw [Function.update_of_ne hji] at hp
    exact hp

theorem Waiting.bounded_release (h : Waiting p g y) (i j : ℕ)
    (hj : (p.setPending i none).pendingCommands j ≠ none) :
    j < p.maxCommandSlots := by
  obtain ⟨u, hu⟩ := Option.ne_none_iff_exists'.mp hj
  exact h.bounded j (by rw [pending_of_release hu]; exact Option.some_ne_none u)

theorem pending_of_store {j : ℕ} (hp : (p.setPending i (some t)).pendingCommands j = some u)
    (hu : u ≠ t) :
    p.pendingCommands j = some u := by
  change Function.update p.pendingCommands i (some t) j = some u at hp
  by_cases hji : j = i
  · rw [hji, Function.update_self] at hp
    exact absurd (Option.some.inj hp).symm hu
  · rw [Function.update_of_ne hji] at hp
    exact hp

theorem Waiting.bounded_store (h : Waiting p g y) (hi : i < p.maxCommandSlots) (j : ℕ)
    (hj : (p.setPending i (some t)).pendingCommands j ≠ none) : j < p.maxCommandSlots := by
  change Function.update p.pendingCommands i (some t) j ≠ none at hj
  by_cases hji : j = i
  · rw [hji]
    exact hi
  · rw [Function.update_of_ne hji] at hj
    exact h.bounded j hj

/-- The thread knows the numbers of its read after it has issued one more command. -/
theorem pcOk_afterIssue {k : Caller} (hk : k.Left y t) (hpc : p.pcs t = .posted k i) :
    PcOk p' (noteTally p (.step t) y) t (Port.afterIssue i k) := by
  cases k with
  | issue => exact trivial
  | read n =>
    have hsum := hk n rfl
    have hposted : (noteTally p (.step t) y).posted t = y.posted t + 1 := by
      simp only [noteTally, hpc, reduceCtorEq, if_false]
      exact Function.update_self _ _ _
    have htotal : (noteTally p (.step t) y).total t = y.total t := by
      simp only [noteTally, hpc]
    rw [Port.afterIssue, Port.ahciSataRead]
    by_cases hn : n = 0
    · rw [if_pos hn]
      refine ⟨?_, fun _ j hj => absurd hj (Nat.not_lt_zero j)⟩
      rw [hposted, htotal]
      omega
    · rw [if_neg hn]
      refine ⟨hn, ?_⟩
      rw [hposted, htotal]
      omega

theorem Waiting.threadStep (h : Waiting p g y) (hs : p.threadStep t = some p') :
    (∀ i, p'.pendingCommands i ≠ none → i < p'.maxCommandSlots) ∧
      ∀ u, PcOk p' (noteTally p (.step t) y) u (p'.pcs u) := by
  have hok := h.pcs t
  obtain ⟨pc, hpc, hstep⟩ := threadStep_cases hs
  rw [hpc] at hok
  have hstay {q : Port} {pc' : Pc} (hpcs : q.pcs = p.pcs)
    (hmax : q.maxCommandSlots = p.maxCommandSlots)
      (hpend : q.pendingCommands = p.pendingCommands) (hpc' : PcOk (q.setPc t pc') y t pc')
      (u : ℕ) :
      PcOk (q.setPc t pc') y u ((q.setPc t pc').pcs u) :=
    pcs_setPc h.pcs hpcs hmax (fun _ _ _ hp => hpend ▸ hp) (fun _ _ => rfl) (fun _ _ => rfl) hpc' u
  have hrelease {pc' : Pc} {j : ℕ} (hpc' : PcOk ((p.setPending j none).setPc t pc') y t pc')
    (u : ℕ) :
      PcOk ((p.setPending j none).setPc t pc') y u (((p.setPending j none).setPc t pc').pcs u) :=
    pcs_setPc (q := p.setPending j none) h.pcs rfl rfl (fun _ _ _ hp => pending_of_release hp)
      (fun _ _ => rfl) (fun _ _ => rfl) hpc' u
  cases hstep with
  | cleanEnd n i =>
    simp only [noteTally, hpc]
    refine ⟨h.bounded, hstay rfl rfl rfl fun m hm => ?_⟩
    cases hm
    obtain ⟨hn, hsum⟩ := hok
    omega
  | scanFound k mask i hi =>
    simp only [noteTally, hpc]
    exact ⟨h.bounded, hstay rfl rfl rfl ⟨hok, hi⟩⟩
  | cleanRelease n i =>
    simp only [noteTally, hpc]
    exact ⟨h.bounded_release i, hrelease hok⟩
  | waitRelease i =>
    simp only [noteTally, hpc]
    exact ⟨h.bounded_release i, hrelease ⟨hok, fun hb => (by cases hb)⟩⟩
  | awaitRelease i =>
    simp only [noteTally, hpc]
    exact ⟨h.bounded_release i, hrelease trivial⟩
  | store k i =>
    simp only [noteTally, hpc]
    exact ⟨h.bounded_store hok.2, pcs_setPc h.pcs rfl rfl (fun _ hu _ hp => pending_of_store hp hu)
      (fun _ _ => rfl) (fun _ _ => rfl) hok⟩
  | post k i =>
    refine ⟨h.bounded, pcs_setPc h.pcs rfl rfl (fun _ _ _ hp => hp) (fun u hu => ?_) (fun u _ => ?_)
      (pcOk_afterIssue hok.1 hpc)⟩
    · simp only [noteTally, hpc]
      split
      · rfl
      · exact Function.update_of_ne hu _ _
    · simp only [noteTally, hpc]
  | waitNext b i hpend =>
    simp only [noteTally, hpc]
    refine ⟨h.bounded, hstay rfl rfl rfl ⟨hok.1, fun hb j hj => ?_⟩⟩
    by_cases hji : j = i
    · rw [hji]
      exact hpend
    · exact hok.2 hb j (by omega)
  | waitFound b i =>
    simp only [noteTally, hpc]
    exact ⟨h.bounded, hstay rfl rfl rfl hok.1⟩
  | waitPending b i =>
    simp only [noteTally, hpc]
    exact ⟨h.bounded, hstay rfl rfl rfl ⟨hok.1, fun hb => (by cases hb)⟩⟩
  | waitAgain b i =>
    simp only [noteTally, hpc]
    exact ⟨h.bounded, hstay rfl rfl rfl ⟨hok.1, fun _ j hj => absurd hj (Nat.not_lt_zero j)⟩⟩
  | refused | waitEnd | awaitFound | awaitAgain | awaitConsume =>
    simp only [noteTally, hpc]
    exact ⟨h.bounded, hstay rfl rfl rfl trivial⟩
  | _ =>
    -- the thread knows the same at its next statement
    simp only [noteTally, hpc]
    exact ⟨h.bounded, hstay rfl rfl rfl hok⟩

/-- The tally and the commands agree after a step on what is issued and not completed. -/
theorem Waiting.issued_step (h : Waiting p g y) {a : Action}
    (hout : (noteTally p a y).outstanding u i = true) : (u, .issued) ∈ noteAction p a g i := by
  by_cases hposts : ∃ k, a = .step u ∧ p.pcs u = .posted k i
  · obtain ⟨k, rfl, hpc⟩ := hposts
    have hst : p.stage u i = .posts := by
      rw [Port.stage, hpc]
      exact if_pos rfl
    have hslot := ((h.exclusive i).of_posts hst).1
    simp only [noteAction, noteStep, hpc]
    rw [Commands.advance, Function.update_self, hslot]
    exact List.mem_singleton.mpr (if_pos ⟨rfl, Or.inr rfl⟩).symm
  · have hold : y.outstanding u i = true ∧ a ≠ .complete i := by
      cases a with
      | read t n => exact ⟨hout, fun hc => (by cases hc)⟩
      | issue t => exact ⟨hout, fun hc => (by cases hc)⟩
      | interrupt => exact ⟨hout, fun hc => (by cases hc)⟩
      | handle => exact ⟨hout, fun hc => (by cases hc)⟩
      | complete c =>
        simp only [noteTally] at hout
        by_cases hic : i = c
        · rw [if_pos hic] at hout
          cases hout
        · rw [if_neg hic] at hout
          refine ⟨hout, fun hc => hic ?_⟩
          cases hc
          rfl
      | step t =>
        refine ⟨?_, fun hc => (by cases hc)⟩
        cases hpc : p.pcs t with
        | posted k j =>
          simp only [noteTally, hpc] at hout
          by_cases hut : u = t
          · subst hut
            rw [Function.update_self] at hout
            by_cases hij : i = j
            · subst hij
              exact absurd ⟨k, rfl, hpc⟩ hposts
            · rw [Function.update_of_ne hij] at hout
              exact hout
          · rw [Function.update_of_ne hut] at hout
            exact hout
        | _ =>
          simp only [noteTally, hpc] at hout
          exact hout
    exact h.exclusive.issued_kept (h.issued u i hold.1) hold.2

theorem Waiting.step (h : Waiting p g y) {a : Action} (hok : stepOk p a = true)
    (hs : ahciStep p a = some p') :
    Waiting p' (noteAction p a g) (noteTally p a y) := by
  have hrest : (∀ i, p'.pendingCommands i ≠ none → i < p'.maxCommandSlots) ∧
      ∀ u, PcOk p' (noteTally p a y) u (p'.pcs u) := by
    -- a step of the controller or of the handler changes no entry and no statement of a thread
    have hsame : ∀ {q : Port} {z : Tally}, q.pendingCommands = p.pendingCommands →
        q.maxCommandSlots = p.maxCommandSlots → q.pcs = p.pcs → z.posted = y.posted →
        z.total = y.total →
        (∀ i, q.pendingCommands i ≠ none → i < q.maxCommandSlots) ∧ ∀ u, PcOk q z u (q.pcs u) := by
      intro q z hpend hmax hpcs hposted htotal
      refine ⟨fun i hi => ?_, fun u => ?_⟩
      · rw [hpend] at hi
        rw [hmax]
        exact h.bounded i hi
      · rw [hpcs]
        exact (h.pcs u).congr hmax (fun j hj => by
          rw [← hpend]; exact hj) (congrFun hposted u) (congrFun htotal u)
    cases a with
    | step t => exact h.threadStep hs
    | read t n =>
      simp only [ahciStep] at hs
      split_ifs at hs
      cases hs
      refine ⟨h.bounded, pcs_setPc h.pcs rfl rfl (fun _ _ _ hp => hp) (fun u hu => ?_)
        (fun u hu => ?_) ?_⟩
      · exact Function.update_of_ne hu _ _
      · exact Function.update_of_ne hu _ _
      · have hposted : (noteTally p (.read t n) y).posted t = 0 := Function.update_self _ _ _
        have htotal : (noteTally p (.read t n) y).total t = n := Function.update_self _ _ _
        rw [Port.ahciSataRead]
        by_cases hn : n = 0
        · rw [if_pos hn]
          refine ⟨?_, fun _ j hj => absurd hj (Nat.not_lt_zero j)⟩
          rw [hposted, htotal, hn]
        · rw [if_neg hn]
          refine ⟨hn, ?_⟩
          rw [hposted, htotal, Nat.zero_add]
    | issue t =>
      simp only [ahciStep] at hs
      split_ifs at hs
      cases hs
      exact ⟨h.bounded, pcs_setPc h.pcs rfl rfl (fun _ _ _ hp => hp) (fun _ _ => rfl)
        (fun _ _ => rfl)
        fun _ hm => (by cases hm)⟩
    | complete c =>
      simp only [ahciStep] at hs
      split_ifs at hs
      cases hs
      exact hsame rfl rfl rfl rfl rfl
    | interrupt =>
      simp only [ahciStep] at hs
      split at hs
      · cases hs
        exact hsame rfl rfl rfl rfl rfl
      · cases hs
    | handle =>
      simp only [ahciStep] at hs
      split at hs
      · cases hs
      · next cmdIssue c _ =>
        split_ifs at hs
        · cases hs
          rw [Port.handleSlot]
          dsimp only
          split
          · exact hsame rfl rfl rfl rfl rfl
          · exact hsame rfl rfl rfl rfl rfl
        · cases hs
          exact hsame rfl rfl rfl rfl rfl
  exact ⟨h.exclusive.step hok hs, fun t i hout => h.issued_step hout, hrest.1, hrest.2⟩

theorem waiting_initial (maxCommandSlots : ℕ) (sataActive : BitVec 32) :
    Waiting (.initial maxCommandSlots sataActive) (fun _ => []) .initial where
  exclusive := exclusive_initial maxCommandSlots sataActive
  issued := nofun
  bounded := fun _ hi => absurd rfl hi
  pcs := fun _ => trivial

end Waiting

end DevOs.Ahci
