import DevOs.Memory.IoMemory

/-!
# I/O windows are apart

In every run of `AllocateIoMemory` the windows returned are apart, each at the lowest free pages at
its time, and the bitmap has exactly their pages set. A call that finds no run of free pages in the
bitmap reads a null one.
-/

namespace DevOs.Memory

open Bitmaps Holes

namespace IoWindow

def Covers (w : IoWindow) (a : ℕ) : Prop :=
  w.virtualStart ≤ a ∧ a < w.virtualStart + 0x1000 * w.numPages

def Apart (w w' : IoWindow) : Prop :=
  w.virtualStart + 0x1000 * w.numPages ≤ w'.virtualStart ∨
    w'.virtualStart + 0x1000 * w'.numPages ≤ w.virtualStart

def InBitmap (base : ℕ) (w : IoWindow) : Prop :=
  ∃ v, w.virtualStart = base + systemSpace48Io + 0x1000 * v ∧ 0 < w.numPages ∧
    v + w.numPages ≤ ioPages

end IoWindow

def Unreserved (base : ℕ) (windows : List IoWindow) (q : ℕ) : Prop :=
  q < ioPages ∧ ∀ w ∈ windows, ¬ w.Covers (base + systemSpace48Io + 0x1000 * q)

/-- The windows are apart, each starts at the lowest address at which its pages were unreserved by
the ones before it, and the set bits are the pages of the windows. -/
structure WindowsSound (base : ℕ) (s : IoSystem) : Prop where
  apart : s.windows.Pairwise IoWindow.Apart
  inBitmap : ∀ w ∈ s.windows, w.InBitmap base
  lowest : ∀ i (h : i < s.windows.length), ∃ v,
    s.windows[i].virtualStart = base + systemSpace48Io + 0x1000 * v ∧
    First (Unreserved base (s.windows.take i)) 0 s.windows[i].numPages v
  bits : ∀ q < ioPages, bit s.memory.ioBitmap q = true ↔
    ∃ w ∈ s.windows, w.Covers (base + systemSpace48Io + 0x1000 * q)

variable {base : ℕ} {s t : IoSystem} {c : IoCall} {m : IoMemory} {w : IoWindow}

theorem WindowsSound.unreserved (h : WindowsSound base s) :
    Unreserved base s.windows = IoFree s.memory.ioBitmap := by
  funext q
  rw [Unreserved, IoFree]
  refine propext (and_congr_right fun hq => ?_)
  have hbit := h.bits q hq
  constructor
  · intro hnone
    rw [Bool.eq_false_iff, Ne, hbit]
    rintro ⟨w, hw, hcover⟩
    exact hnone w hw hcover
  · intro hclear w hw hcover
    rw [hbit.mpr ⟨w, hw, hcover⟩] at hclear
    cases hclear

theorem WindowsSound.apart_of_free (h : WindowsSound base s) {v numPages : ℕ}
    (hrun : FreeRun (IoFree s.memory.ioBitmap) v numPages) (hpos : 0 < numPages)
    (hw : w ∈ s.windows) {w' : IoWindow}
    (hstart : w'.virtualStart = base + systemSpace48Io + 0x1000 * v) (hn : w'.numPages = numPages) :
    w.Apart w' := by
  obtain ⟨v₀, hv₀, hpos₀, hfit⟩ := h.inBitmap w hw
  rw [IoWindow.Apart, hstart, hv₀, hn]
  by_contra hover
  -- the later one of the two starts would be a page of both
  have hfree := hrun (max v₀ v) (by omega) (by omega)
  rw [← h.unreserved] at hfree
  refine hfree.2 w hw ?_
  rw [IoWindow.Covers, hv₀]
  omega

theorem WindowsSound.served (h : WindowsSound base s) {v : ℕ} {bmp : Bitmap 64}
    (hpos : 0 < w.numPages) (hstart : w.virtualStart = base + systemSpace48Io + 0x1000 * v)
    (hfirst : First (IoFree s.memory.ioBitmap) 0 w.numPages v) (hfit : v + w.numPages ≤ ioPages)
    (hbits : ∀ l, bit bmp l = (bit s.memory.ioBitmap l || decide (v ≤ l ∧ l < v + w.numPages)))
    (hm : m.ioBitmap = bmp) (nullRead : Bool) :
    WindowsSound base ⟨m, s.windows ++ [w], nullRead⟩ := by
  constructor
  · rw [List.pairwise_append]
    refine ⟨h.apart, List.pairwise_singleton _ _, fun a ha b hb => ?_⟩
    rw [List.mem_singleton.mp hb]
    exact h.apart_of_free hfirst.run hpos ha hstart rfl
  · intro a ha
    rcases List.mem_append.mp ha with ha | ha
    · exact h.inBitmap a ha
    · rw [List.mem_singleton.mp ha]
      exact ⟨v, hstart, hpos, hfit⟩
  · intro i hi
    dsimp only at hi ⊢
    rw [List.length_append, List.length_singleton] at hi
    by_cases hold : i < s.windows.length
    · rw [List.getElem_append_left hold, List.take_append_of_le_length (Nat.le_of_lt hold)]
      exact h.lowest i hold
    · obtain rfl : i = s.windows.length := by omega
      rw [List.getElem_concat_length rfl, List.take_append_of_le_length (Nat.le_refl _),
        List.take_length, h.unreserved]
      exact ⟨v, hstart, hfirst⟩
  · intro q hq
    dsimp only
    rw [hm, hbits q, Bool.or_eq_true, h.bits q hq, decide_eq_true_eq]
    have hcover : w.Covers (base + systemSpace48Io + 0x1000 * q) ↔ v ≤ q ∧ q < v + w.numPages := by
      rw [IoWindow.Covers, hstart]
      omega
    simp only [List.mem_append, List.mem_singleton, ← hcover]
    constructor
    · rintro (⟨a, ha, hc⟩ | hc)
      · exact ⟨a, Or.inl ha, hc⟩
      · exact ⟨w, Or.inr rfl, hc⟩
    · rintro ⟨a, ha | rfl, hc⟩
      · exact Or.inl ⟨a, ha, hc⟩
      · exact Or.inr hc

theorem WindowsSound.step (h : WindowsSound base s) (hs : ioStep base s c = some t) :
    WindowsSound base t := by
  have heffect := allocateIoMemory_effect base s.memory c
  rw [ioStep] at hs
  split_ifs at hs
  generalize allocateIoMemory base s.memory c = r at hs heffect
  obtain ⟨m, o⟩ := r
  cases heffect with
  | rejected _ =>
    cases hs
    exact ⟨h.apart, h.inBitmap, h.lowest, h.bits⟩
  | served v bmp hpos hfirst hfit hbits =>
    cases hs
    exact h.served hpos rfl hfirst hfit hbits rfl s.nullRead
  | nullBitmap _ _ =>
    cases hs
    exact ⟨h.apart, h.inBitmap, h.lowest, h.bits⟩

theorem windowsSound_start (base : ℕ) : WindowsSound base ioStart := by
  refine ⟨List.Pairwise.nil, fun w hw => absurd hw List.not_mem_nil, fun i hi => ?_, fun q _ => ?_⟩
  · exact absurd hi (Nat.not_lt_zero i)
  · simp [ioStart, bit]

theorem windowsSound_of_reaches {guard : IoSystem → IoCall → Prop}
    (hs : Runs.Reaches (ioStep base) guard ioStart s) : WindowsSound base s :=
  Runs.Reaches.invariant (fun _ _ _ hi _ hst => hi.step hst) hs (windowsSound_start base)

/-- In every run of calls the windows returned are apart, each starts at the lowest address at which
its pages were unreserved, and the set bits of the bitmap are the pages of the windows. -/
theorem io_windows_sound (base : ℕ) (s : IoSystem)
    (hs : Runs.Reaches (ioStep base) Runs.anyStep ioStart s) : WindowsSound base s :=
  windowsSound_of_reaches hs

/-- Windows of 3, 61 and 130 pages, the last one over three words of the bitmap. -/
theorem io_windows_sound_three :
    ∃ s, Runs.Reaches (ioStep 0xFFFF800000000000) Runs.anyStep ioStart s ∧
    s.windows.map IoWindow.virtualStart =
      [0xFFFFA00000000000, 0xFFFFA00000003000, 0xFFFFA00000040000] ∧
    WindowsSound 0xFFFF800000000000 s := by
  have hrun : (Runs.guardedRun (ioStep 0xFFFF800000000000) Runs.anyStep ioStart
      [⟨0x1000, 3, 0⟩, ⟨0xFEC00000, 61, 1⟩, ⟨0xFED00000, 130, 8⟩]).map
      (fun s => s.windows.map IoWindow.virtualStart) =
      some [0xFFFFA00000000000, 0xFFFFA00000003000, 0xFFFFA00000040000] := by decide +kernel
  obtain ⟨s, hs, hw⟩ := Option.map_eq_some_iff.mp hrun
  have hr := Runs.reaches_of_guardedRun _ hs
  exact ⟨s, hr, hw, io_windows_sound _ s hr⟩

/-- The call is rejected at the start, or the bitmap has a run of free pages for it. -/
def Fits (s : IoSystem) (c : IoCall) : Prop :=
  rejected s.memory c ∨ HasRun s.memory.ioBitmap c.numPages

/-- The call returns pages inside the window of I/O memory that are apart from all earlier ones, or
returns nothing and leaves the memory as it is; it reads no null bitmap. -/
def CallGood (base : ℕ) (s : IoSystem) (c : IoCall) : Prop :=
  match allocateIoMemory base s.memory c with
  | (m, .null) => m = s.memory
  | (_, .window w) => w.numPages = c.numPages ∧ base + systemSpace48Io ≤ w.virtualStart ∧
      w.virtualStart + 0x1000 * w.numPages ≤ base + systemSpace48Ram ∧
      ∀ w' ∈ s.windows, w'.Apart w
  | (_, .nullBitmap) => False

theorem WindowsSound.callGood_iff (h : WindowsSound base s) (c : IoCall) :
    CallGood base s c ↔ Fits s c := by
  have heffect := allocateIoMemory_effect base s.memory c
  rw [CallGood, Fits]
  generalize allocateIoMemory base s.memory c = r at heffect
  obtain ⟨m, o⟩ := r
  cases heffect with
  | rejected hrej => exact ⟨fun _ => Or.inl hrej, fun _ => rfl⟩
  | served v bmp hpos hfirst hfit hbits =>
    refine ⟨fun _ => Or.inr ⟨v, hfirst.run⟩,
      fun _ => ⟨rfl, Nat.le_add_right _ _, ?_, fun w hw => ?_⟩⟩
    · have hpages : ioPages = 32704 := rfl
      rw [systemSpace48Io, systemSpace48Ram]
      dsimp only
      omega
    · exact h.apart_of_free hfirst.run hpos hw rfl rfl
  | nullBitmap hrej hnone =>
    refine ⟨False.elim, fun hfits => ?_⟩
    rcases hfits with hrej' | hrun
    · exact hrej hrej'
    · exact hnone hrun

theorem nullRead_step (hnull : s.nullRead = false) (hfits : Fits s c)
    (hs : ioStep base s c = some t) : t.nullRead = false := by
  have heffect := allocateIoMemory_effect base s.memory c
  rw [ioStep, hnull, if_neg (by decide)] at hs
  generalize allocateIoMemory base s.memory c = r at hs heffect
  obtain ⟨m, o⟩ := r
  cases heffect with
  | rejected _ =>
    cases hs
    rfl
  | served v bmp hpos hfirst hfit hbits =>
    cases hs
    rfl
  | nullBitmap hrej hnone =>
    rcases hfits with hrej' | hrun
    · exact absurd hrej' hrej
    · exact absurd hrun hnone

/-- In every run whose calls are rejected at the start or fit into the bitmap no null bitmap is
read, the windows are apart, and a call returns as it should exactly when it is such a call. -/
theorem io_calls_good (base : ℕ) (s : IoSystem)
    (hs : Runs.Reaches (ioStep base) Fits ioStart s) :
    s.nullRead = false ∧ s.windows.Pairwise IoWindow.Apart ∧
      ∀ c, CallGood base s c ↔ Fits s c := by
  have hsound := windowsSound_of_reaches hs
  refine ⟨?_, hsound.apart, hsound.callGood_iff⟩
  exact Runs.Reaches.invariant (I := fun s => s.nullRead = false)
    (fun _ _ _ hi hg hst => nullRead_step hi hg hst) hs rfl

def FitsSoon (s : IoSystem) (c : IoCall) : Prop :=
  ∃ v < 256, v + c.numPages ≤ ioPages ∧ ∀ q < c.numPages, bit s.memory.ioBitmap (v + q) = false

instance (s : IoSystem) (c : IoCall) : Decidable (FitsSoon s c) :=
  inferInstanceAs (Decidable (∃ v < 256, _))

theorem FitsSoon.fits (h : FitsSoon s c) : Fits s c := by
  obtain ⟨v, -, hle, hclear⟩ := h
  refine Or.inr ⟨v, fun q hv hq => ⟨by omega, ?_⟩⟩
  have hbit := hclear (q - v) (by omega)
  rw [Nat.add_sub_cancel' hv] at hbit
  exact hbit

/-- Calls for 3, 61 and 130 pages, one after the other. -/
theorem io_calls_good_three : ∃ s, Runs.Reaches (ioStep 0xFFFF800000000000) Fits ioStart s ∧
    s.windows.map IoWindow.numPages = [3, 61, 130] ∧ s.nullRead = false ∧
    s.windows.Pairwise IoWindow.Apart := by
  have hrun : (Runs.guardedRun (ioStep 0xFFFF800000000000) FitsSoon ioStart
      [⟨0xFEC00000, 3, 1⟩, ⟨0x1000, 61, 0⟩, ⟨0xFED00000, 130, 8⟩]).map
      (fun s => s.windows.map IoWindow.numPages) = some [3, 61, 130] := by decide +kernel
  obtain ⟨s, hs, hpages⟩ := Option.map_eq_some_iff.mp hrun
  have hr : Runs.Reaches (ioStep 0xFFFF800000000000) Fits ioStart s :=
    (Runs.reaches_of_guardedRun _ hs).mono fun _ _ h => h.fits
  obtain ⟨hnull, hapart, -⟩ := io_calls_good _ s hr
  exact ⟨s, hr, hpages, hnull, hapart⟩

/-- 32705 pages, one more than the bitmap has bits, from the empty bitmap. -/
theorem io_null_bitmap : ¬ rejected ioStart.memory ⟨0xE0000000, 32705, 8⟩ ∧
    (allocateIoMemory 0xFFFF800000000000 ioStart.memory ⟨0xE0000000, 32705, 8⟩).2 = .nullBitmap ∧
    ¬ CallGood 0xFFFF800000000000 ioStart ⟨0xE0000000, 32705, 8⟩ := by
  have hrej : ¬ rejected ioStart.memory ⟨0xE0000000, 32705, 8⟩ := by decide
  have hpages : ioPages = 32704 := rfl
  have heffect := allocateIoMemory_effect 0xFFFF800000000000 ioStart.memory ⟨0xE0000000, 32705, 8⟩
  rw [CallGood]
  generalize allocateIoMemory 0xFFFF800000000000 ioStart.memory ⟨0xE0000000, 32705, 8⟩ =
    r at heffect
  obtain ⟨m, o⟩ := r
  cases heffect with
  | rejected h => exact absurd h hrej
  | served v bmp hpos hfirst hfit hbits =>
    dsimp only at hfit
    omega
  | nullBitmap _ _ => exact ⟨hrej, rfl, id⟩

end DevOs.Memory
