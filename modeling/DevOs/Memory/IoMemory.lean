import DevOs.Lib.Bitmaps
import DevOs.Lib.Holes
import DevOs.Lib.Loops
import DevOs.Lib.Runs

/-!
# The windows of I/O memory

`AllocateIoMemory` searches a bitmap for a run of clear bits, sets them and maps the pages of the
run. The bitmap is `IoBitmap`, whose field `Next` is never set: the only assignment to it stands
behind a test for a null pointer that would have been read before. A search that leaves the bitmap
therefore reads a bitmap at address zero.
-/

namespace DevOs.Memory

open Bitmaps Holes Loops Words

def ioBitmapSize : ℕ := 0x1FF

def ioPages : ℕ := 64 * ioBitmapSize

def systemSpace48Io : ℕ := 0x200000000000

def systemSpace48Ram : ℕ := 0x400000000000

/-- The variables of the search that live across its loops. -/
structure IoScan where
  startBmp : Bool
  startIndex : ℕ
  startBit : ℕ
  pages : ℕ
  virtualStart : ℕ
  vaddr : ℕ
deriving DecidableEq, Repr

/-- The body of the inner loop, at the bit `i` of the word `k`. -/
def scanIoBit (numPages k : ℕ) (bitMask : BitVec 64) (i : ℕ) (s : IoScan) : IoScan ⊕ IoScan :=
  if bitMask.getLsbD i then
    let s := if s.startBmp then { s with startBmp := false, pages := 0 } else s
    .inr { s with vaddr := s.vaddr + 0x1000 }
  else
    let s :=
      if s.startBmp then s
      else { s with startBmp := true, startIndex := k, startBit := i, virtualStart := s.vaddr }
    let s := { s with pages := s.pages + 1 }
    if s.pages = numPages then .inl s else .inr { s with vaddr := s.vaddr + 0x1000 }

def scanIoWord (numPages : ℕ) (bmp : Bitmap 64) (k : ℕ) (s : IoScan) : IoScan ⊕ IoScan :=
  forRange (scanIoBit numPages k (bmp k)) 64 0 s

def scanIoBitmap (numPages : ℕ) (bmp : Bitmap 64) (s : IoScan) : IoScan ⊕ IoScan :=
  forRange (scanIoWord numPages bmp) ioBitmapSize 0 s

/-- The body of the loop over `x`, with `Value` and `Pages`. -/
def markIoBit (x : ℕ) (t : BitVec 64 × ℕ) : BitVec 64 ⊕ (BitVec 64 × ℕ) :=
  let value := bitTestAndSet t.1 x
  if t.2 - 1 = 0 then .inl value else .inr (value, t.2 - 1)

/-- The body of the loop over `v`, with the bitmap, `Pages` and `x`. -/
def markIoWord (v : ℕ) (t : Bitmap 64 × ℕ × ℕ) : Bitmap 64 ⊕ (Bitmap 64 × ℕ × ℕ) :=
  match forRange markIoBit (64 - t.2.2) t.2.2 (t.1 v, t.2.1) with
  | .inl value => .inl (Function.update t.1 v value)
  | .inr (value, pages) => .inr (Function.update t.1 v value, pages, 0)

def markIoPages (bmp : Bitmap 64) (startIndex startBit pages : ℕ) : Bitmap 64 :=
  match forRange markIoWord (ioBitmapSize - startIndex) startIndex (bmp, pages, startBit) with
  | .inl bmp => bmp
  | .inr t => t.1

/-- The bitmap and `IoMemorySize`. -/
structure IoMemory where
  ioBitmap : Bitmap 64
  ioMemorySize : ℕ

structure IoCall where
  physicalAddress : ℕ
  numPages : ℕ
  flags : ℕ
deriving DecidableEq, Repr

/-- The arguments of `MapPhysicalPages`; the first one is returned. -/
structure IoWindow where
  virtualStart : ℕ
  physicalAddress : ℕ
  numPages : ℕ
  mapFlags : ℕ
deriving DecidableEq, Repr

inductive IoOutcome where
  | null
  | window (w : IoWindow)
  /-- The search reads a bitmap through a null pointer. -/
  | nullBitmap
deriving DecidableEq, Repr

/-- `MapFlags`, from `IO_MEMORY_CACHE_DISABLED` (1), `IO_MEMORY_WRITE_THROUGH` (2),
`IO_MEMORY_READ_ONLY` (4) and `IO_MEMORY_WRITE_COMBINE` (8). -/
def ioMapFlags (flags : ℕ) : ℕ :=
  let mapFlags := 5 ||| 8
  let mapFlags :=
    if flags &&& 2 ≠ 0 then mapFlags ||| 0x40
    else if flags &&& 1 ≠ 0 then mapFlags ||| 0x20
    else if flags &&& 8 ≠ 0 then mapFlags ||| 0x400
    else mapFlags
  if flags &&& 4 ≠ 0 then mapFlags - (mapFlags &&& 4) else mapFlags

/-- The test at the start: no pages, or more than the window of I/O memory has left. -/
def rejected (m : IoMemory) (c : IoCall) : Prop :=
  c.numPages = 0 ∨
    systemSpace48Ram - systemSpace48Io < (m.ioMemorySize + c.numPages * 2 ^ 12 % 2 ^ 64) % 2 ^ 64

instance (m : IoMemory) (c : IoCall) : Decidable (rejected m c) :=
  inferInstanceAs (Decidable (_ ∨ _))

/-- `AllocateIoMemory`. `base` is `SystemSpaceBase`. -/
def allocateIoMemory (base : ℕ) (m : IoMemory) (c : IoCall) : IoMemory × IoOutcome :=
  if rejected m c then (m, .null)
  else
    match scanIoBitmap c.numPages m.ioBitmap ⟨false, 0, 0, 0, 0, base + systemSpace48Io⟩ with
    | .inl s =>
      ({ m with ioBitmap := markIoPages m.ioBitmap s.startIndex s.startBit s.pages },
        .window ⟨s.virtualStart, c.physicalAddress, c.numPages, ioMapFlags c.flags⟩)
    | .inr _ => (m, .nullBitmap)

/-- The memory, the windows returned so far, and whether a null bitmap was read. -/
structure IoSystem where
  memory : IoMemory
  windows : List IoWindow
  nullRead : Bool

def ioStep (base : ℕ) (s : IoSystem) (c : IoCall) : Option IoSystem :=
  if s.nullRead then none
  else
    match allocateIoMemory base s.memory c with
    | (m, .null) => some { s with memory := m }
    | (m, .window w) => some { s with memory := m, windows := s.windows ++ [w] }
    | (m, .nullBitmap) => some { s with memory := m, nullRead := true }

/-- `IoBitmap` as the kernel is loaded. -/
def ioStart : IoSystem := ⟨⟨fun _ => 0, 0⟩, [], false⟩

def IoFree (bmp : Bitmap 64) (q : ℕ) : Prop := q < ioPages ∧ bit bmp q = false

variable {bmp : Bitmap 64} {numPages start p v : ℕ}

/-- The search at the page `p`: what it counts is the run of free pages before it. -/
structure IoScanned (bmp : Bitmap 64) (numPages start p : ℕ) (s : IoScan) : Prop where
  vaddr : s.vaddr = start + 0x1000 * p
  hole : Hole (IoFree bmp) 0 numPages p s.pages
  fewer : s.pages < numPages
  idle : s.startBmp = false → s.pages = 0
  open_ : s.startBmp = true → 64 * s.startIndex + s.startBit = p - s.pages ∧ s.startBit < 64 ∧
    s.virtualStart = start + 0x1000 * (p - s.pages)

/-- The run that was found. -/
structure IoFound (bmp : Bitmap 64) (numPages start : ℕ) (s : IoScan) (v : ℕ) : Prop where
  first : First (IoFree bmp) 0 numPages v
  pages : s.pages = numPages
  place : 64 * s.startIndex + s.startBit = v
  bit_lt : s.startBit < 64
  virtualStart : s.virtualStart = start + 0x1000 * v

theorem ioFree_iff {k i : ℕ} (hk : k < ioBitmapSize) (hi : i < 64) :
    IoFree bmp (64 * k + i) ↔ (bmp k).getLsbD i = false := by
  rw [IoFree, bit, show (64 * k + i) / 64 = k by omega, show (64 * k + i) % 64 = i by omega]
  exact and_iff_right (by rw [ioPages]; omega)

theorem scanIoBit_spec {k i : ℕ} {s : IoScan} (hn : 0 < numPages) (hk : k < ioBitmapSize)
    (hi : i < 64) (h : IoScanned bmp numPages start (64 * k + i) s) :
    Sum.elim (fun t => ∃ v, IoFound bmp numPages start t v)
      (IoScanned bmp numPages start (64 * k + (i + 1))) (scanIoBit numPages k (bmp k) i s) := by
  have hfree : IoFree bmp (64 * k + i) ↔ (bmp k).getLsbD i = false := ioFree_iff hk hi
  have hstep : start + 0x1000 * (64 * k + i) + 0x1000 = start + 0x1000 * (64 * k + (i + 1)) := by
    omega
  rw [← Nat.add_assoc] at hstep ⊢
  cases hbit : (bmp k).getLsbD i with
  | true =>
    have hskip := h.hole.skip hn Nat.one_pos (fun q hq hlt hf => by
      rw [show q = 64 * k + i by omega, hfree, hbit] at hf
      cases hf)
    rw [scanIoBit, hbit, if_pos rfl]
    cases hs : s.startBmp with
    | true =>
      exact ⟨by rw [← hstep, ← h.vaddr]; rfl, hskip, hn, fun _ => rfl, fun h => by cases h⟩
    | false =>
      have hp := h.idle hs
      refine ⟨by rw [← hstep, ← h.vaddr]; rfl, ?_, h.fewer, fun _ => hp, fun ht => ?_⟩
      · simp only [Bool.false_eq_true, if_false, hp]
        exact hskip
      · simp [hs] at ht
  | false =>
    have hrun : ∀ q, 64 * k + i ≤ q → q < 64 * k + i + 1 → IoFree bmp q := by
      intro q hq hlt
      rw [show q = 64 * k + i by omega, hfree]
      exact hbit
    obtain ⟨t, ht⟩ : ∃ t, t = if s.startBmp then s else
      { s with startBmp := true, startIndex := k, startBit := i, virtualStart := s.vaddr } :=
        ⟨_, rfl⟩
    have hplace : t.startBmp = true ∧ t.pages = s.pages ∧ t.vaddr = s.vaddr ∧
        64 * t.startIndex + t.startBit = 64 * k + i - s.pages ∧ t.startBit < 64 ∧
        t.virtualStart = start + 0x1000 * (64 * k + i - s.pages) := by
      cases hs : s.startBmp with
      | true =>
        rw [hs, if_pos rfl] at ht
        rw [ht]
        exact ⟨hs, rfl, rfl, h.open_ hs⟩
      | false =>
        rw [hs, if_neg (by decide)] at ht
        rw [ht, h.idle hs]
        exact ⟨rfl, rfl, rfl, rfl, hi, h.vaddr⟩
    obtain ⟨htb, htp, htv, hplace, hlt, hvs⟩ := hplace
    rw [scanIoBit, hbit, if_neg (by decide), ← ht]
    dsimp only
    have hle := h.hole.le
    by_cases hend : t.pages + 1 = numPages
    · rw [if_pos hend]
      refine ⟨64 * k + i - s.pages, h.hole.fit hrun (by omega), hend, hplace, hlt, hvs⟩
    · have hfewer := h.fewer
      rw [if_neg hend]
      refine ⟨?_, ?_, ?_, fun hf => ?_, fun _ => ⟨?_, hlt, ?_⟩⟩
      · dsimp only
        rw [htv, h.vaddr, hstep]
      · dsimp only
        rw [htp]
        exact h.hole.extend hrun (by omega)
      · dsimp only
        omega
      · rw [htb] at hf
        cases hf
      · dsimp only
        omega
      · dsimp only
        rw [hvs, htp]
        omega

theorem scanIoBitmap_spec (bmp : Bitmap 64) (start : ℕ) (hn : 0 < numPages) :
    Sum.elim (fun t => ∃ v, IoFound bmp numPages start t v)
      (IoScanned bmp numPages start ioPages)
        (scanIoBitmap numPages bmp ⟨false, 0, 0, 0, 0, start⟩) := by
  have hrule := forRange_rule (scanIoWord numPages bmp) (n := ioBitmapSize) (i := 0)
    (Q := fun t => ∃ v, IoFound bmp numPages start t v)
    (I := fun k s => IoScanned bmp numPages start (64 * k) s) (s := ⟨false, 0, 0, 0, 0, start⟩) ?_
    ⟨rfl, Hole.init _ 0 hn, hn, fun _ => rfl, fun h => by cases h⟩
  · rw [Nat.zero_add] at hrule
    exact hrule
  · intro k t _ hk ht
    rw [Nat.zero_add] at hk
    have hword := forRange_rule (scanIoBit numPages k (bmp k)) (n := 64) (i := 0)
      (Q := fun t => ∃ v, IoFound bmp numPages start t v)
      (I := fun i s => IoScanned bmp numPages start (64 * k + i) s) (s := t) ?_ ht
    · exact hword
    · intro i u _ hi hu
      exact scanIoBit_spec hn hk (by omega) hu

theorem markIoBit_spec {w v x v₀ n : ℕ} {b₀ b : Bitmap 64} {t : BitVec 64 × ℕ} (hx : x < 64)
    (hpos : 0 < t.2) (hsum : 64 * v + x + t.2 = v₀ + n)
    (hbits : ∀ l, bit (Function.update b v t.1) l = (bit b₀ l || decide (v₀ ≤ l ∧ l < 64 * v + x)))
    (hv : v₀ ≤ 64 * v + x) (hw : w = v) :
    Sum.elim
      (fun value => ∀ l, bit (Function.update b w value) l =
        (bit b₀ l || decide (v₀ ≤ l ∧ l < v₀ + n)))
      (fun t => 0 < t.2 ∧ 64 * v + (x + 1) + t.2 = v₀ + n ∧ ∀ l, bit (Function.update b v t.1) l =
        (bit b₀ l || decide (v₀ ≤ l ∧ l < 64 * v + (x + 1))))
      (markIoBit x t) := by
  subst hw
  have hnext (l : ℕ) : bit (Function.update b w (bitTestAndSet t.1 x)) l =
      (bit b₀ l || decide (v₀ ≤ l ∧ l < 64 * w + (x + 1))) := by
    have hset : Function.update b w (bitTestAndSet t.1 x) =
        Bitmaps.set (Function.update b w t.1) (64 * w + x) := by
      rw [Bitmaps.set, show (64 * w + x) / 64 = w by omega, show (64 * w + x) % 64 = x by omega,
        Function.update_self, Function.update_idem]
    rw [hset, bit_set (by decide), hbits l, Bool.or_assoc, ← Bool.decide_or]
    congr 1
    exact decide_eq_decide.mpr (by omega)
  rw [markIoBit]
  by_cases hend : t.2 - 1 = 0
  · rw [if_pos hend]
    intro l
    rw [hnext l, show 64 * w + (x + 1) = v₀ + n by omega]
  · rw [if_neg hend]
    exact ⟨by dsimp only; omega, by dsimp only; omega, hnext⟩

theorem bit_markIoPages {startIndex startBit n : ℕ} (hn : 0 < n) (hbit : startBit < 64)
    (hfit : 64 * startIndex + startBit + n ≤ ioPages) (l : ℕ) :
    bit (markIoPages bmp startIndex startBit n) l = (bit bmp l ||
      decide (64 * startIndex + startBit ≤ l ∧ l < 64 * startIndex + startBit + n)) := by
  obtain ⟨v₀, hv₀⟩ : ∃ v₀, v₀ = 64 * startIndex + startBit := ⟨_, rfl⟩
  rw [← hv₀] at hfit ⊢
  have hsize : startIndex + (ioBitmapSize - startIndex) = ioBitmapSize := by
    rw [ioPages] at hfit
    omega
  have hrule := forRange_rule markIoWord (n := ioBitmapSize - startIndex) (i := startIndex)
    (Q := fun b => ∀ l, bit b l = (bit bmp l || decide (v₀ ≤ l ∧ l < v₀ + n)))
    (I := fun v t => 0 < t.2.1 ∧ t.2.2 < 64 ∧ v₀ ≤ 64 * v + t.2.2 ∧
    64 * v + t.2.2 + t.2.1 = v₀ + n ∧
      ∀ l, bit t.1 l = (bit bmp l || decide (v₀ ≤ l ∧ l < 64 * v + t.2.2)))
    (s := (bmp, n, startBit)) ?_ ⟨hn, hbit, Nat.le_of_eq hv₀, by dsimp only; omega, fun l => by
      simp [show ¬ (v₀ ≤ l ∧ l < 64 * startIndex + startBit) by omega]⟩
  · rw [markIoPages]
    cases hres : forRange markIoWord (ioBitmapSize - startIndex) startIndex (bmp, n, startBit) with
    | inl b =>
      rw [hres] at hrule
      exact hrule l
    | inr t =>
      rw [hres, hsize] at hrule
      obtain ⟨hpos, _, _, hsum, _⟩ := hrule
      rw [ioPages] at hfit
      omega
  · rintro v ⟨b, pages, x⟩ _ _ ⟨hpos, hx, hle, hsum, hbits⟩
    dsimp only at hpos hx hle hsum hbits
    have hword := forRange_rule markIoBit (n := 64 - x) (i := x)
      (Q := fun value => ∀ l, bit (Function.update b v value) l =
        (bit bmp l || decide (v₀ ≤ l ∧ l < v₀ + n)))
      (I := fun x t => 0 < t.2 ∧ 64 * v + x + t.2 = v₀ + n ∧ v₀ ≤ 64 * v + x ∧
        ∀ l, bit (Function.update b v t.1) l = (bit bmp l || decide (v₀ ≤ l ∧ l < 64 * v + x)))
      (s := (b v, pages)) ?_ ⟨hpos, hsum, hle, by rw [Function.update_eq_self]; exact hbits⟩
    · rw [markIoWord]
      dsimp only
      cases hres : forRange markIoBit (64 - x) x (b v, pages) with
      | inl value =>
        rw [hres] at hword
        exact hword
      | inr t =>
        rw [hres, show x + (64 - x) = 64 by omega] at hword
        obtain ⟨hpos', hsum', hle', hbits'⟩ := hword
        refine ⟨hpos', by dsimp only; omega, by dsimp only; omega, by dsimp only; omega, ?_⟩
        intro l
        rw [hbits' l, show 64 * v + 64 = 64 * (v + 1) + 0 by omega]
    · rintro y t hy hlt ⟨hpos', hsum', hle', hbits'⟩
      have hstep := markIoBit_spec (w := v) (by omega) hpos' hsum' hbits' hle' rfl
      refine elim_mono hstep ?_
      rintro u ⟨hu, hsumu, hbitsu⟩
      exact ⟨hu, hsumu, by omega, hbitsu⟩

def HasRun (bmp : Bitmap 64) (numPages : ℕ) : Prop := ∃ v, FreeRun (IoFree bmp) v numPages

/-- What a call does. -/
inductive IoEffect (base : ℕ) (m : IoMemory) (c : IoCall) : IoMemory → IoOutcome → Prop
  | rejected (h : rejected m c) : IoEffect base m c m .null
  | served (v : ℕ) (bmp : Bitmap 64) (hpos : 0 < c.numPages)
      (hfirst : First (IoFree m.ioBitmap) 0 c.numPages v) (hfit : v + c.numPages ≤ ioPages)
      (hbits : ∀ l, bit bmp l = (bit m.ioBitmap l || decide (v ≤ l ∧ l < v + c.numPages))) :
      IoEffect base m c { m with ioBitmap := bmp }
        (.window ⟨base + systemSpace48Io + 0x1000 * v, c.physicalAddress, c.numPages,
          ioMapFlags c.flags⟩)
  | nullBitmap (h : ¬ Memory.rejected m c) (hnone : ¬ HasRun m.ioBitmap c.numPages) :
      IoEffect base m c m .nullBitmap

theorem allocateIoMemory_effect (base : ℕ) (m : IoMemory) (c : IoCall) :
    IoEffect base m c (allocateIoMemory base m c).1 (allocateIoMemory base m c).2 := by
  rw [allocateIoMemory]
  by_cases hrej : rejected m c
  · rw [if_pos hrej]
    exact .rejected hrej
  · rw [if_neg hrej]
    have hn : 0 < c.numPages := by
      by_contra h0
      exact hrej (Or.inl (by omega))
    have hspec := scanIoBitmap_spec m.ioBitmap (base + systemSpace48Io) hn
    cases hscan : scanIoBitmap c.numPages m.ioBitmap
        ⟨false, 0, 0, 0, 0, base + systemSpace48Io⟩ with
    | inl s =>
      rw [hscan] at hspec
      obtain ⟨v, hfirst, hpages, hplace, hlt, hvs⟩ := hspec
      have hfit : v + c.numPages ≤ ioPages := by
        have hlast := hfirst.run (v + c.numPages - 1) (by omega) (by omega)
        have := hlast.1
        omega
      dsimp only
      rw [hvs]
      refine .served v _ hn hfirst hfit fun l => ?_
      rw [hpages, bit_markIoPages hn hlt (by omega), hplace]
    | inr s =>
      rw [hscan] at hspec
      refine .nullBitmap hrej ?_
      rintro ⟨v, hv⟩
      have hlast := hv (v + c.numPages - 1) (by omega) (by omega)
      exact hspec.hole.none v (Nat.zero_le v) (by have := hlast.1; omega) hv

end DevOs.Memory
