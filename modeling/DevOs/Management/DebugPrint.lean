import DevOs.Kernel.Numbers
import DevOs.Lib.Runs
import Mathlib.Data.List.GetD
import Mathlib.Order.CompletePartialOrder

/-!
# Debug prints

`SystemDebugPrint` writes its format and the values behind it into a buffer and draws the buffer as
one line of the screen. A conversion is a percent sign with its letters, none of which may be
followed by another letter. A percent sign that begins no conversion is written as it is, and yet it
uses up a value. The position in the buffer has 8 bits, so that a text of more than 255 characters
goes around it: what is drawn is the part behind the last time.
-/

namespace DevOs.Management

open Kernel Numerals Runs

/-- The characters of a format up to its zero. -/
structure Format where
  chars : List (BitVec 16)
  nonzero : 0 ∉ chars

def Format.char (f : Format) (i : ℕ) : BitVec 16 := f.chars.getD i 0

abbrev AddressSpace := BitVec 64 → BitVec 8

def charsAt (memory : AddressSpace) (a : BitVec 64) :
    Cells 16 := fun k => (memory (a + BitVec.ofNat 64 k)).setWidth 16

def wcharsAt (memory : AddressSpace) (a : BitVec 64) : Cells 16 := fun k =>
  memory (a + BitVec.ofNat 64 (2 * k + 1)) ++ memory (a + BitVec.ofNat 64 (2 * k))

def isLetter (c : BitVec 16) : Bool :=
  (0x61 ≤ c.toNat && c.toNat ≤ 0x7A) || (0x41 ≤ c.toNat && c.toNat ≤ 0x5A)

def maxFormatLength : ℕ := 0x100

/-- What may stand behind a percent sign. -/
inductive Conversion where
  | decimal
  | binary
  | hexadecimal
  | character
  | string
  | wideString
deriving DecidableEq, Repr

def Conversion.letters : Conversion → List (BitVec 16)
  | .decimal => [0x64]
  | .binary => [0x25]
  | .hexadecimal => [0x78]
  | .character => [0x63]
  | .string => [0x73]
  | .wideString => [0x6C, 0x73]

/-- The tests of `Next`, in their order. -/
def conversionAt (next : ℕ → BitVec 16) : Option Conversion :=
  if next 0 = 0x64 ∧ isLetter (next 1) = false then some .decimal
  else if next 0 = 0x25 ∧ isLetter (next 1) = false then some .binary
  else if next 0 = 0x78 ∧ isLetter (next 1) = false then some .hexadecimal
  else if next 0 = 0x63 ∧ isLetter (next 1) = false then some .character
  else if next 0 = 0x73 ∧ isLetter (next 1) = false then some .string
  else if next 0 = 0x6C ∧ next 1 = 0x73 ∧ isLetter (next 2) = false then some .wideString
  else none

/-- The variables of the loop over the format. `stackOff` counts the values that have been used
up. -/
structure Printer where
  formatted : Cells 16
  formatNumber : Cells 8
  formatIndex : BitVec 8
  i : BitVec 8
  stackOff : ℕ

namespace Printer

def put (p : Printer) (c : BitVec 16) : Printer :=
  { p with
    formatted := Function.update p.formatted p.formatIndex.toNat c,
    formatIndex := p.formatIndex + 1 }

def advance (p : Printer) (n : ℕ) : Printer := { p with i := p.i + BitVec.ofNat 8 n }

/-- The loop that copies a text from its `k`-th character on. `full` is the test that leaves it
early. -/
def copyText (full : BitVec 8 → Bool) (text : Cells 16) : ℕ → ℕ → Printer → Option Printer
  | 0, _, _ => none
  | fuel + 1, k, p =>
    if text k = 0 then some p
    else if full p.formatIndex then some p
    else copyText full text fuel (k + 1) (p.put (text k))

/-- The comparison of an 8-bit position with `MAX_FORMAT_LENGTH`, which never holds. -/
def full (formatIndex : BitVec 8) : Bool := decide (maxFormatLength ≤ formatIndex.toNat)

def printNumber (fuel : ℕ) (v : BitVec 64) (radix : ℕ) (p : Printer) : Option Printer :=
  (itoa v p.formatNumber radix).bind fun r =>
    copyText (fun _ => false) (fun k => (r.1 k).signExtend 16) fuel 0 { p with formatNumber := r.1 }

def convert (memory : AddressSpace) (fuel : ℕ) (value : BitVec 64) (p : Printer) :
    Conversion → Option Printer
  | .decimal => p.printNumber fuel ((value.setWidth 32).signExtend 64) radixDecimal
  | .binary => p.printNumber fuel value radixBinary
  | .hexadecimal => p.printNumber fuel value radixHexadecimal
  | .character =>
    some (p.put (if value.setWidth 8 ≠ 0 then (value.setWidth 8).setWidth 16 else 0x20))
  | .string => copyText full (charsAt memory value) fuel 0 p
  | .wideString => copyText full (wcharsAt memory value) fuel 0 p

def step (f : Format) (memory : AddressSpace) (values : ℕ → BitVec 64) (fuel : ℕ) (p : Printer) :
    Option Printer :=
  if f.char p.i.toNat = 0x25 then
    let p := { p with stackOff := p.stackOff + 1 }
    match conversionAt fun k => f.char (p.i.toNat + 1 + k) with
    | some c => (p.convert memory fuel (values p.stackOff) c).map (advance · (c.letters.length + 1))
    | none => some ((p.put (f.char p.i.toNat)).advance 1)
  else some ((p.put (f.char p.i.toNat)).advance 1)

def loop (f : Format) (memory : AddressSpace) (values : ℕ → BitVec 64) (fuel : ℕ) :
    ℕ → Printer → Option Printer
  | 0, _ => none
  | n + 1, p =>
    if p.i < BitVec.ofNat 8 f.chars.length then (p.step f memory values fuel).bind
      (loop f memory values fuel n)
    else some p

end Printer

/-- What is drawn: a filled rectangle, a text, or a character. -/
inductive Draw where
  | rect (x y width height : BitVec 16) (color : ℕ)
  | text (s : List (BitVec 16)) (color x y : ℕ)
  | character (c : BitVec 8) (color x y : ℕ)
deriving DecidableEq, Repr

/-- The buffers of the prints, and how far the screen is written. -/
structure DebugScreen where
  formatted : Cells 16
  formatNumber : Cells 8
  yoff : BitVec 16
  biggestWidth : BitVec 16

inductive PrintStatus where
  | sok
  | invalidParameter
deriving DecidableEq, Repr

/-- `wstrlen`, from the `k`-th character on. -/
def wstrlen (text : Cells 16) : ℕ → ℕ → Option ℕ
  | 0, _ => none
  | fuel + 1, k => if text k = 0 then some k else wstrlen text fuel (k + 1)

/-- A line that would come too close to the end of the screen is the first one again. -/
def clearScreen (verticalResolution : BitVec 32) (s : DebugScreen) : List Draw × DebugScreen :=
  if verticalResolution - 40 ≤ s.yoff.setWidth 32 then
    ([.rect 20 20 s.biggestWidth s.yoff 0], { s with yoff := 20, biggestWidth := 0 })
  else ([], s)

def drawMark (s : DebugScreen) : List Draw :=
  if s.yoff ≠ 20 then [.rect 5 (s.yoff - 16 + (8 - 1)) 10 2 0] else []

/-- The loop over the first `len` characters of the buffer. -/
def drawCharacters (nameLen len : ℕ) (s : DebugScreen) : List Draw :=
  (List.range len).map fun i =>
    .character ((s.formatted i).setWidth 8) 0xFFFFFF (20 + (nameLen + 3 + i) * 8) s.yoff.toNat

/-- The part behind the loop over the format, which draws the buffer behind the name of the
process. -/
def drawLine (verticalResolution : BitVec 32) (name : List (BitVec 16)) (len : ℕ)
    (s : DebugScreen) :
    List Draw × DebugScreen :=
  let nameLen := name.length % 2 ^ 8
  let (cleared, s) := clearScreen verticalResolution s
  let y := s.yoff.toNat
  let width := (len + nameLen + 3) * 8
  (cleared ++ (drawMark s ++
    (.rect 20 s.yoff (BitVec.ofNat 16 width) 16 0 :: .text name 0xE29910 20 y ::
      .text [0x20, 0x3A, 0x20] 0xE29910 (20 + nameLen * 8) y :: (drawCharacters nameLen len s ++
      [.rect 5 (s.yoff + (8 - 1)) 10 2 0xFFFFFF]))),
    { s with
      yoff := s.yoff + 16
      biggestWidth :=
        if s.biggestWidth.toNat < width then BitVec.ofNat 16 width else s.biggestWidth })

def systemDebugPrint (verticalResolution : BitVec 32) (name : List (BitVec 16))
    (memory : AddressSpace) (fuel : ℕ) (format : Option Format) (values : ℕ → BitVec 64)
    (s : DebugScreen) :
    Option (PrintStatus × List Draw × DebugScreen) :=
  match format with
  | none => some (.invalidParameter, [], s)
  | some f =>
    if BitVec.ofNat 8 f.chars.length = 0 then some (.invalidParameter, [], s)
    else do
      let p ← Printer.loop f memory values fuel fuel ⟨s.formatted, s.formatNumber, 0, 0, 0⟩
      let formatted := Function.update p.formatted p.formatIndex.toNat 0
      let len ← wstrlen formatted fuel 0
      let r := drawLine verticalResolution name (len % 2 ^ 8)
        { s with formatted := formatted, formatNumber := p.formatNumber }
      return (.sok, r)

/-- A format is written in pieces. -/
inductive Piece where
  | character (c : BitVec 16)
  | percent
  | conversion (c : Conversion)

namespace Piece

def text : Piece → List (BitVec 16)
  | .character c => [c]
  | .percent => [0x25]
  | .conversion c => 0x25 :: c.letters

/-- The piece may stand in front of `s`. -/
def Fits (s : List (BitVec 16)) : Piece → Prop
  | .character c => c ≠ 0x25
  | .percent =>
    ∀ (c : Conversion) (t : List (BitVec 16)), s = c.letters ++ t → isLetter (t.getD 0 0) = true
  | .conversion _ => isLetter (s.getD 0 0) = false

def values : Piece → ℕ
  | .character _ => 0
  | .percent => 1
  | .conversion _ => 1

end Piece

/-- What a conversion makes of its value. A negative number has no decimal text. -/
def Conversion.Writes (memory : AddressSpace) (value : BitVec 64) : Conversion → List ℕ → Prop
  | .decimal, t => 0 ≤ (value.setWidth 32).toInt ∧ t = numeral 10 (value.setWidth 32).toNat
  | .binary, t => t = numeral 2 value.toNat
  | .hexadecimal, t => t = numeral 16 value.toNat
  | .character, t =>
    t = [if value.setWidth 8 = (0 : BitVec 8) then 0x20 else (value.setWidth 8).toNat]
  | .string, t => HasString (charsAt memory value) 0 t
  | .wideString, t => HasString (wcharsAt memory value) 0 t

def Piece.Writes (memory : AddressSpace) (value : BitVec 64) : Piece → List ℕ → Prop
  | .character c, t => t = [c.toNat]
  | .percent, t => t = [0x25]
  | .conversion c, t => c.Writes memory value t

/-- The pieces, one after the other, are the text `s`. -/
def Spells : List Piece → List (BitVec 16) → Prop
  | [], s => s = []
  | p :: ps, s => ∃ t, s = p.text ++ t ∧ p.Fits t ∧ Spells ps t

/-- The pieces write `out`, with the values behind the first `k` ones. -/
def Renders (memory : AddressSpace) (values : ℕ → BitVec 64) : ℕ → List Piece → List ℕ → Prop
  | _, [], out => out = []
  | k, p :: ps, out =>
    ∃ t u, out = t ++ u ∧ p.Writes memory (values (k + 1)) t ∧
      Renders memory values (k + p.values) ps u

variable {f : Format} {memory : AddressSpace} {values : ℕ → BitVec 64} {p : Printer}
    {out t u : List ℕ}

/-- The text has been put into the buffer, where its last characters still are. -/
structure Printer.Written (p : Printer) (out : List ℕ) : Prop where
  index : p.formatIndex = BitVec.ofNat 8 out.length
  cells : ∀ j (h : j < out.length), out.length ≤ j + 256 → (p.formatted (j % 256)).toNat = out[j]

theorem Printer.Written.put (h : p.Written out) (c : BitVec 16) :
    (p.put c).Written (out ++ [c.toNat]) := by
  have hindex : p.formatIndex.toNat = out.length % 256 := by rw [h.index, BitVec.toNat_ofNat]
  have hput : (p.put c).formatted = Function.update p.formatted (out.length % 256) c := by
    rw [Printer.put, hindex]
  refine ⟨?_, fun j hj hle => ?_⟩
  · rw [List.length_append, List.length_singleton, BitVec.ofNat_add, ← h.index]
    rfl
  · rw [List.length_append, List.length_singleton] at hj hle
    rw [hput]
    by_cases hlast : j = out.length
    · subst hlast
      rw [Function.update_self, List.getElem_concat_length rfl]
    · rw [Function.update_of_ne (by omega), List.getElem_append_left (by omega)]
      exact h.cells j (by omega) (by omega)

theorem Printer.Written.advance (h : p.Written out) (n : ℕ) : (p.advance n).Written out :=
  ⟨h.index, h.cells⟩

theorem Printer.Written.use (h : p.Written out) (k : ℕ) :
    ({ p with stackOff := k } : Printer).Written out :=
  ⟨h.index, h.cells⟩

/-- With enough fuel, the printer `g` ends and leaves the text `out`, the place `i` and the value
`k`. -/
def Leaves (g : ℕ → Option Printer) (out : List ℕ) (i : BitVec 8) (k : ℕ) : Prop :=
  ∃ n q, (∀ fuel, n ≤ fuel → g fuel = some q) ∧ q.Written out ∧ q.i = i ∧ q.stackOff = k

theorem hasString_head {w k a : ℕ} {c : Cells w} {s : List ℕ} (h : HasString c k (a :: s)) :
    (c k).toNat = a ∧ c k ≠ 0 := by
  have hhead : (c k).toNat = a := h.chars 0 (Nat.succ_pos _)
  refine ⟨hhead, fun hzero => h.nonzero ?_⟩
  rw [← hhead, hzero]
  exact List.mem_cons_self

theorem hasString_tail {w k a : ℕ} {c : Cells w} {s : List ℕ} (h : HasString c k (a :: s)) :
    HasString c (k + 1) s := by
  refine ⟨fun i hi => ?_, fun hmem => h.nonzero (List.mem_cons_of_mem _ hmem), ?_⟩
  · have hchar := h.chars (i + 1) (Nat.succ_lt_succ hi)
    rw [Nat.add_right_comm, Nat.add_assoc]
    exact hchar
  · rw [Nat.add_right_comm, Nat.add_assoc]
    exact h.zero

theorem copyText_leaves {full : BitVec 8 → Bool} (hfull : ∀ x, full x = false) {text : Cells 16}
    {s : List ℕ} {k : ℕ} (hs : HasString text k s) (hw : p.Written out) :
    Leaves (fun fuel => Printer.copyText full text fuel k p) (out ++ s) p.i p.stackOff := by
  induction s generalizing k p out with
  | nil =>
    refine ⟨1, p, fun fuel hfuel => ?_, by rwa [List.append_nil], rfl, rfl⟩
    obtain ⟨n, rfl⟩ := Nat.exists_eq_add_of_le' hfuel
    have hzero : text k = 0 := hs.zero
    show Printer.copyText full text (n + 1) k p = _
    rw [Printer.copyText, if_pos hzero]
  | cons a s ih =>
    obtain ⟨hhead, hne⟩ := hasString_head hs
    obtain ⟨n, q, hq, hwritten, hi, hoff⟩ := ih (hasString_tail hs) (hw.put (text k))
    refine ⟨n + 1, q, fun fuel hfuel => ?_, ?_, hi, hoff⟩
    · obtain ⟨m, rfl⟩ := Nat.exists_eq_add_of_le' (Nat.le_of_add_left_le hfuel)
      show Printer.copyText full text (m + 1) k p = _
      rw [Printer.copyText, if_neg hne, hfull, if_neg Bool.false_ne_true]
      exact hq m (by omega)
    · rw [hhead, List.append_assoc, List.singleton_append] at hwritten
      exact hwritten

theorem not_full (x : BitVec 8) : Printer.full x = false :=
  decide_eq_false (Nat.not_le.mpr x.isLt)

theorem numeral_lt {base n c : ℕ} (hb : 1 < base) (hle : base ≤ 16) (h : c ∈ numeral base n) :
    c < 2 ^ 7 := by
  obtain ⟨d, hd, rfl⟩ := (isNumeral_numeral hb n).digits c h
  exact digitChar_lt (Nat.lt_of_lt_of_le hd hle)

theorem hasString_signExtend {base n : ℕ} {c : Cells 8} (hb : 1 < base) (hle : base ≤ 16)
    (h : HasString c 0 (numeral base n)) :
    HasString (fun k => (c k).signExtend 16) 0 (numeral base n) := by
  refine ⟨fun i hi => ?_, h.nonzero, ?_⟩
  · have hchar := h.chars i hi
    have hlt := numeral_lt hb hle (List.getElem_mem hi)
    have hmsb : (c (0 + i)).msb = false := BitVec.msb_eq_false_iff_two_mul_lt.mpr (by omega)
    show ((c (0 + i)).signExtend 16).toNat = _
    rw [BitVec.signExtend_eq_setWidth_of_msb_false hmsb, BitVec.toNat_setWidth, hchar,
      Nat.mod_eq_of_lt (by omega)]
  · show (c _).signExtend 16 = 0
    rw [h.zero]
    rfl

theorem printNumber_leaves {v : BitVec 64} {radix base n : ℕ} {c : Cells 8} (hb : 1 < base)
    (hle : base ≤ 16) (hitoa : itoa v p.formatNumber radix = some (c, 0))
    (hs : HasString c 0 (numeral base n)) (hw : p.Written out) :
    Leaves (fun fuel => p.printNumber fuel v radix) (out ++ numeral base n) p.i p.stackOff := by
  have hw' : ({ p with formatNumber := c } : Printer).Written out := ⟨hw.index, hw.cells⟩
  obtain ⟨m, q, hq, hrest⟩ := copyText_leaves (fun _ => rfl) (hasString_signExtend hb hle hs) hw'
  refine ⟨m, q, fun fuel hfuel => ?_, hrest⟩
  show p.printNumber fuel v radix = _
  rw [Printer.printNumber, hitoa, Option.bind_some]
  exact hq fuel hfuel

theorem convert_leaves {value : BitVec 64} {c : Conversion} (h : c.Writes memory value t)
    (hw : p.Written out) :
    Leaves (fun fuel => p.convert memory fuel value c) (out ++ t) p.i p.stackOff := by
  cases c with
  | decimal =>
    obtain ⟨hpos, rfl⟩ := h
    have hmsb : (value.setWidth 32).msb = false := by
      rw [BitVec.msb_eq_toInt]
      exact decide_eq_false (by omega)
    have htoNat : ((value.setWidth 32).signExtend 64).toNat = (value.setWidth 32).toNat := by
      rw [BitVec.signExtend_eq_setWidth_of_msb_false hmsb, BitVec.toNat_setWidth]
      exact Nat.mod_eq_of_lt (by omega)
    have hnonneg : ¬((value.setWidth 32).signExtend 64).toInt < 0 := by
      rw [BitVec.toInt_signExtend_of_le (by decide)]
      omega
    obtain ⟨d, hd, hs⟩ := itoaDecimal_nonneg hnonneg (by decide) p.formatNumber
    rw [htoNat] at hs
    exact printNumber_leaves (by decide) (by decide) (congrArg some hd) hs hw
  | binary =>
    cases h
    obtain ⟨d, hd, hs⟩ := itoaBinary_right value (by decide) p.formatNumber
    exact printNumber_leaves (by decide) (by decide) (congrArg some hd) hs hw
  | hexadecimal =>
    cases h
    obtain ⟨d, hd, hs⟩ := itoaHexadecimal_right value (by decide) p.formatNumber
    exact printNumber_leaves (by decide) (by decide) (congrArg some hd) hs hw
  | character =>
    cases h
    refine ⟨0, _, fun fuel _ => rfl, ?_, rfl, rfl⟩
    by_cases hzero : value.setWidth 8 = (0 : BitVec 8)
    · rw [if_pos hzero, if_neg (not_not_intro hzero)]
      exact hw.put 0x20
    · have hchar : ((value.setWidth 8).setWidth 16).toNat = (value.setWidth 8).toNat := by
        rw [BitVec.toNat_setWidth]
        exact Nat.mod_eq_of_lt (by omega)
      rw [if_neg hzero, if_pos hzero, ← hchar]
      exact hw.put _
  | string => exact copyText_leaves not_full h hw
  | wideString => exact copyText_leaves not_full h hw

theorem cons_of_getD {s : List (BitVec 16)} {c : BitVec 16} (hc : c ≠ 0) (h : s.getD 0 0 = c) :
    ∃ t, s = c :: t := by
  cases s with
  | nil => exact absurd h.symm hc
  | cons a t => exact ⟨t, congrArg (· :: t) h⟩

theorem conversionAt_letters {c : Conversion} {s : List (BitVec 16)}
    (h : isLetter (s.getD 0 0) = false) :
    conversionAt (fun k => (c.letters ++ s).getD k 0) = some c := by
  cases c <;> simp [conversionAt, Conversion.letters, isLetter] at h ⊢ <;> omega

/-- A conversion is met only where its letters stand, and no letter behind them. -/
theorem letters_of_conversionAt {c : Conversion} {s : List (BitVec 16)}
    (h : conversionAt (fun k => s.getD k 0) = some c) :
    ∃ t, s = c.letters ++ t ∧ isLetter (t.getD 0 0) = false := by
  rw [conversionAt] at h
  have hone : ∀ {a : BitVec 16}, a ≠ 0 → s.getD 0 0 = a ∧ isLetter (s.getD 1 0) = false →
      ∃ t, s = [a] ++ t ∧ isLetter (t.getD 0 0) = false := by
    rintro a hne ⟨ha, hletter⟩
    obtain ⟨t, rfl⟩ := cons_of_getD hne ha
    exact ⟨t, rfl, hletter⟩
  split_ifs at h with h1 h2 h3 h4 h5 h6 <;> cases h
  · exact hone (by decide) h1
  · exact hone (by decide) h2
  · exact hone (by decide) h3
  · exact hone (by decide) h4
  · exact hone (by decide) h5
  · obtain ⟨hl, hs, hletter⟩ := h6
    obtain ⟨t, rfl⟩ := cons_of_getD (by decide) hl
    obtain ⟨t, rfl⟩ := cons_of_getD (s := t) (by decide) hs
    exact ⟨t, rfl, hletter⟩

theorem exists_spells (s : List (BitVec 16)) : ∃ ps, Spells ps s := by
  induction hn : s.length using Nat.strong_induction_on generalizing s with
  | _ n ih =>
    cases s with
    | nil => exact ⟨[], rfl⟩
    | cons a s =>
      by_cases ha : a = 0x25
      · by_cases hc : ∃ (c : Conversion) (t : List (BitVec 16)), s = c.letters ++ t ∧
          isLetter (t.getD 0 0) = false
        · obtain ⟨c, t, rfl, hletter⟩ := hc
          obtain ⟨ps, hps⟩ :=
            ih t.length (by rw [← hn, List.length_cons, List.length_append]; omega) t rfl
          exact ⟨.conversion c :: ps, t, by rw [ha]; rfl, hletter, hps⟩
        · obtain ⟨ps, hps⟩ := ih s.length (by rw [← hn, List.length_cons]; omega) s rfl
          refine ⟨.percent :: ps, s, by rw [ha]; rfl, fun c t hs => ?_, hps⟩
          by_contra hletter
          exact hc ⟨c, t, hs, Bool.eq_false_of_not_eq_true hletter⟩
      · obtain ⟨ps, hps⟩ := ih s.length (by rw [← hn, List.length_cons]; omega) s rfl
        exact ⟨.character a :: ps, s, rfl, ha, hps⟩

theorem char_eq {pre s : List (BitVec 16)} (hf : f.chars = pre ++ s) (k : ℕ) :
    f.char (pre.length + k) = s.getD k 0 := by
  rw [Format.char, hf, List.getD_append_right _ _ _ _ (Nat.le_add_right _ _),
    Nat.add_sub_cancel_left]

theorem step_leaves {pre s : List (BitVec 16)} {piece : Piece}
    (hf : f.chars = pre ++ (piece.text ++ s)) (hfit : piece.Fits s) (hi : p.i.toNat = pre.length)
    (h : piece.Writes memory (values (p.stackOff + 1)) t) (hw : p.Written out) :
    Leaves (fun fuel => p.step f memory values fuel) (out ++ t)
      (p.i + BitVec.ofNat 8 piece.text.length)
      (p.stackOff + piece.values) := by
  have hchar : f.char p.i.toNat = (piece.text ++ s).getD 0 0 := by
    rw [hi, ← char_eq hf 0, Nat.add_zero]
  have hnext : ∀ a s', piece.text ++ s = a :: s' →
      (fun k => f.char (p.i.toNat + 1 + k)) = fun k => s'.getD k 0 := by
    intro a s' hs
    funext k
    rw [hi, Nat.add_assoc, char_eq hf, hs, Nat.add_comm, List.getD_cons_succ]
  cases piece with
  | character c =>
    cases h
    have hc : f.char p.i.toNat = c := hchar
    refine ⟨0, (p.put c).advance 1, fun fuel _ => ?_, (hw.put c).advance 1, rfl, rfl⟩
    show p.step f memory values fuel = _
    rw [Printer.step, hc, if_neg hfit]
  | percent =>
    cases h
    have hc : f.char p.i.toNat = 0x25 := hchar
    have hnone : conversionAt (fun k => f.char (p.i.toNat + 1 + k)) = none := by
      rw [hnext 0x25 s rfl]
      by_contra hsome
      obtain ⟨c, hconv⟩ := Option.ne_none_iff_exists'.mp hsome
      obtain ⟨s', hs, hletter⟩ := letters_of_conversionAt hconv
      rw [hfit c s' hs] at hletter
      cases hletter
    refine ⟨0, (Printer.put { p with stackOff := p.stackOff + 1 } 0x25).advance 1, fun fuel _ => ?_,
      ((hw.use _).put 0x25).advance 1, rfl, rfl⟩
    show p.step f memory values fuel = _
    simp only [Printer.step, hc, hnone, if_true]
  | conversion c =>
    have hc : f.char p.i.toNat = 0x25 := hchar
    have hsome : conversionAt (fun k => f.char (p.i.toNat + 1 + k)) = some c := by
      rw [hnext 0x25 (c.letters ++ s) rfl]
      exact conversionAt_letters hfit
    obtain ⟨n, q, hq, hwritten, hqi, hoff⟩ := convert_leaves h (hw.use (p.stackOff + 1))
    refine ⟨n, q.advance (c.letters.length + 1), fun fuel hfuel => ?_, hwritten.advance _, ?_, hoff⟩
    · have hconvert : Printer.convert memory fuel (values (p.stackOff + 1))
        { p with stackOff := p.stackOff + 1 } c =
          some q := hq fuel hfuel
      show p.step f memory values fuel = _
      simp only [Printer.step, hc, hsome, if_true]
      rw [hconvert, Option.map_some]
    · show q.i + _ = _
      rw [hqi]
      rfl

theorem text_pos (piece : Piece) : 0 < piece.text.length := by
  cases piece <;> exact Nat.succ_pos _

theorem loop_leaves (hlen : f.chars.length ≤ 255) {ps : List Piece} {pre s : List (BitVec 16)}
    (hf : f.chars = pre ++ s) (hs : Spells ps s) (hi : p.i.toNat = pre.length)
    (h : Renders memory values p.stackOff ps t) (hw : p.Written out) :
    ∃ n q, (∀ fuel, n ≤ fuel → ∀ m, n ≤ m → Printer.loop f memory values fuel m p = some q) ∧
    q.Written (out ++ t) := by
  have hlt : (BitVec.ofNat 8 f.chars.length).toNat = f.chars.length := by
    rw [BitVec.toNat_ofNat]
    omega
  induction ps generalizing pre s p out t with
  | nil =>
    cases hs
    cases h
    refine ⟨1, p, fun fuel _ m hm => ?_, by rwa [List.append_nil]⟩
    obtain ⟨m, rfl⟩ := Nat.exists_eq_add_of_le' hm
    have hend : ¬p.i < BitVec.ofNat 8 f.chars.length := by
      rw [BitVec.lt_def, hlt, hi, hf, List.append_nil]
      exact Nat.lt_irrefl _
    rw [Printer.loop, if_neg hend]
  | cons piece ps ih =>
    obtain ⟨s', rfl, hfit, hs'⟩ := hs
    obtain ⟨t, u, rfl, hwrites, hrest⟩ := h
    obtain ⟨n, q, hq, hwritten, hqi, hoff⟩ := step_leaves hf hfit hi hwrites hw
    have hlength : f.chars.length = pre.length + (piece.text.length + s'.length) := by
      rw [hf, List.length_append, List.length_append]
    have hpos := text_pos piece
    have hqi' : q.i.toNat = (pre ++ piece.text).length := by
      rw [hqi, BitVec.toNat_add, hi, BitVec.toNat_ofNat, List.length_append]
      omega
    obtain ⟨n', q', hq', hwritten'⟩ :=
      ih (by rw [hf, List.append_assoc]) hs' hqi' (hoff ▸ hrest) hwritten
    refine ⟨max n n' + 1, q', fun fuel hfuel m hm => ?_, by rwa [← List.append_assoc]⟩
    obtain ⟨m, rfl⟩ := Nat.exists_eq_add_of_le' (Nat.le_of_add_left_le hm)
    have hmore : p.i < BitVec.ofNat 8 f.chars.length := by
      rw [BitVec.lt_def, hlt, hi]
      omega
    have hstep : p.step f memory values fuel = some q := hq fuel (by omega)
    rw [Printer.loop, if_pos hmore, hstep, Option.bind_some]
    exact hq' fuel (by omega) m (by omega)

theorem Conversion.Writes.nonzero {value : BitVec 64} {c : Conversion}
    (h : c.Writes memory value t) : 0 ∉ t := by
  cases c with
  | decimal => exact h.2 ▸ zero_not_mem_map _
  | binary => exact h ▸ zero_not_mem_map _
  | hexadecimal => exact h ▸ zero_not_mem_map _
  | character =>
    cases h
    rw [List.mem_singleton]
    split_ifs with hzero
    · decide
    · exact fun hz => hzero (BitVec.eq_of_toNat_eq hz.symm)
  | string =>
    have hs : HasString (charsAt memory value) 0 t := h
    exact hs.nonzero
  | wideString =>
    have hs : HasString (wcharsAt memory value) 0 t := h
    exact hs.nonzero

theorem Renders.nonzero {ps : List Piece} {s : List (BitVec 16)} {k : ℕ} (hs : Spells ps s)
    (hnonzero : 0 ∉ s) (h : Renders memory values k ps out) : 0 ∉ out := by
  induction ps generalizing s k out with
  | nil =>
    cases h
    exact List.not_mem_nil
  | cons piece ps ih =>
    obtain ⟨s', rfl, -, hs'⟩ := hs
    obtain ⟨t, u, rfl, hwrites, hrest⟩ := h
    rw [List.mem_append, not_or] at hnonzero
    refine List.not_mem_append ?_ (ih hs' hnonzero.2 hrest)
    cases piece with
    | character c =>
      cases hwrites
      rw [List.mem_singleton]
      intro hzero
      exact hnonzero.1 (List.mem_singleton.mpr (BitVec.eq_of_toNat_eq hzero))
    | percent =>
      cases hwrites
      decide
    | conversion c => exact Conversion.Writes.nonzero hwrites

theorem wstrlen_eq {text : Cells 16} {n k fuel : ℕ} (hchars : ∀ i < n, text i ≠ 0)
    (hzero : text n = 0) (hk : k ≤ n) (hfuel : n < fuel + k) : wstrlen text fuel k = some n := by
  induction fuel generalizing k with
  | zero => omega
  | succ fuel ih =>
    rw [wstrlen]
    rcases Nat.eq_or_lt_of_le hk with rfl | hlt
    · rw [if_pos hzero]
    · rw [if_neg (hchars k hlt)]
      exact ih hlt (by omega)

def lastPart (out : List ℕ) : List ℕ := out.drop (256 * (out.length / 256))

theorem lastPart_length (out : List ℕ) : (lastPart out).length = out.length % 256 := by
  rw [lastPart, List.length_drop]
  omega

theorem Printer.Written.cell (h : p.Written out) {i : ℕ} (hi : i < (lastPart out).length) :
    (Function.update p.formatted p.formatIndex.toNat 0 i).toNat = (lastPart out)[i] := by
  have hindex : p.formatIndex.toNat = out.length % 256 := by rw [h.index, BitVec.toNat_ofNat]
  have hlt : i < out.length % 256 := lastPart_length out ▸ hi
  have hcell := h.cells (256 * (out.length / 256) + i) (by omega) (by omega)
  rw [Nat.mul_add_mod, Nat.mod_eq_of_lt (by omega)] at hcell
  rw [hindex, Function.update_of_ne (by omega), hcell]
  simp only [lastPart, List.getElem_drop]

theorem Printer.Written.wstrlen_eq (h : p.Written out) (hnonzero : 0 ∉ out) {fuel : ℕ}
    (hfuel : 256 ≤ fuel) :
    wstrlen (Function.update p.formatted p.formatIndex.toNat 0) fuel 0 =
      some (lastPart out).length := by
  have hindex : p.formatIndex.toNat = (lastPart out).length := by
    rw [h.index, BitVec.toNat_ofNat, lastPart_length]
  have hlength := lastPart_length out
  refine Management.wstrlen_eq (fun i hi hzero => hnonzero ?_) ?_ (Nat.zero_le _) (by omega)
  · have hcell := h.cell hi
    rw [hzero] at hcell
    have hmem : (0 : BitVec 16).toNat ∈ lastPart out := hcell ▸ List.getElem_mem hi
    exact List.mem_of_mem_drop hmem
  · rw [hindex, Function.update_self]

def Draw.drawnCharacter : Draw → Option (BitVec 8 × ℕ × ℕ)
  | .character c _ x y => some (c, x, y)
  | _ => none

theorem clearScreen_characters (v : BitVec 32) (s : DebugScreen) :
    (clearScreen v s).1.filterMap Draw.drawnCharacter = [] ∧
    (clearScreen v s).2.formatted = s.formatted := by
  rw [clearScreen]
  split_ifs <;> exact ⟨rfl, rfl⟩

theorem drawMark_characters (s : DebugScreen) :
    (drawMark s).filterMap Draw.drawnCharacter = [] := by
  rw [drawMark]
  split_ifs <;> rfl

theorem drawCharacters_characters (nameLen len : ℕ) (s : DebugScreen) :
    (drawCharacters nameLen len s).filterMap Draw.drawnCharacter = (List.range len).map fun i =>
      ((s.formatted i).setWidth 8, 20 + (nameLen + 3 + i) * 8, s.yoff.toNat) := by
  rw [drawCharacters, List.filterMap_map, ← List.filterMap_eq_map]
  rfl

/-- The characters that are drawn are the first ones of the buffer, one behind the other. -/
theorem drawLine_characters (v : BitVec 32) (name : List (BitVec 16)) (len : ℕ) (s : DebugScreen) :
    (drawLine v name len s).1.filterMap Draw.drawnCharacter = (List.range len).map fun i =>
      ((s.formatted i).setWidth 8, 20 + (name.length % 2 ^ 8 + 3 + i) * 8,
          (clearScreen v s).2.yoff.toNat) := by
  obtain ⟨hcleared, hformatted⟩ := clearScreen_characters v s
  rw [drawLine, List.filterMap_append, List.filterMap_append, hcleared, drawMark_characters,
    List.nil_append, List.nil_append, List.filterMap_cons_none rfl, List.filterMap_cons_none rfl,
    List.filterMap_cons_none rfl,
    List.filterMap_append, drawCharacters_characters, hformatted]
  exact List.append_nil _

theorem map_range_cells {cells : Cells 16} {l : List ℕ}
    (hcells : ∀ i (h : i < l.length), (cells i).toNat = l[i]) (x : ℕ → ℕ) (y : ℕ) :
    ((List.range l.length).map fun i => ((cells i).setWidth 8, x i, y)) =
      l.mapIdx fun i c => (BitVec.ofNat 8 c, x i, y) := by
  refine List.ext_getElem (by
    rw [List.length_map, List.length_range, List.length_mapIdx]) fun i hi hi' => ?_
  have hlt : i < l.length := List.length_mapIdx ▸ hi'
  have hchar : (cells i).setWidth 8 = BitVec.ofNat 8 l[i] := by
    rw [← hcells i hlt, BitVec.ofNat_toNat]
  rw [List.getElem_map, List.getElem_range, List.getElem_mapIdx, hchar]

/-- Every format of up to 255 characters is written in pieces, and what is drawn is the text that
the pieces render, as far as it is in the buffer: one character behind the other, in one row, behind
the name of the process. -/
theorem debug_print_renders (f : Format) (h0 : f.chars ≠ []) (hlen : f.chars.length ≤ 255) :
    (∃ ps, Spells ps f.chars) ∧ ∀ ps memory values out, Spells ps f.chars →
    Renders memory values 0 ps out →
      ∀ v name s, ∃ n draws s', (∀ fuel, n ≤ fuel →
          systemDebugPrint v name memory fuel (some f) values s = some (.sok, draws, s')) ∧
        draws.filterMap Draw.drawnCharacter = (lastPart out).mapIdx fun i c =>
          (BitVec.ofNat 8 c, 20 + (name.length % 2 ^ 8 + 3 + i) * 8,
              (clearScreen v s).2.yoff.toNat) := by
  refine ⟨exists_spells f.chars, fun ps memory values out hs hr v name s => ?_⟩
  have hlength : BitVec.ofNat 8 f.chars.length ≠ 0 := by
    intro hzero
    have htoNat := congrArg BitVec.toNat hzero
    rw [BitVec.toNat_ofNat, Nat.mod_eq_of_lt (by omega)] at htoNat
    exact h0 (List.length_eq_zero_iff.mp htoNat)
  have hempty : (⟨s.formatted, s.formatNumber, 0, 0, 0⟩ : Printer).Written [] :=
    ⟨rfl, fun j hj => absurd hj (Nat.not_lt_zero j)⟩
  obtain ⟨n, p, hloop, hwritten⟩ := loop_leaves hlen (List.nil_append f.chars).symm hs rfl hr hempty
  rw [List.nil_append] at hwritten
  have hnonzero := Renders.nonzero hs f.nonzero hr
  have hmod : (lastPart out).length % 2 ^ 8 = (lastPart out).length := by
    rw [lastPart_length]
    omega
  let s' : DebugScreen := { s with
    formatted := Function.update p.formatted p.formatIndex.toNat 0, formatNumber := p.formatNumber }
  have hrow : (clearScreen v s').2.yoff = (clearScreen v s).2.yoff := by
    rw [clearScreen, clearScreen]
    split_ifs <;> rfl
  refine ⟨max n 256, (drawLine v name (lastPart out).length s').1,
    (drawLine v name (lastPart out).length s').2, fun fuel hfuel => ?_, ?_⟩
  · simp only [systemDebugPrint, if_neg hlength, hloop fuel (by omega) fuel (by omega),
      Option.bind_eq_bind, Option.bind_some,
      hwritten.wstrlen_eq hnonzero (show 256 ≤ fuel by omega), hmod]
    rfl
  · rw [drawLine_characters, hrow]
    exact map_range_cells (fun i hi => hwritten.cell hi) _ _

def greeting : Format := ⟨[0x61, 0x25, 0x64, 0x25], by decide⟩

theorem debug_print_renders_greeting : ∃ n draws s', (∀ fuel, n ≤ fuel →
      systemDebugPrint 600
      [] (fun _ => 0) fuel (some greeting) (fun _ => 7) ⟨fun _ => 0, fun _ => 0, 20, 0⟩ =
        some (.sok, draws, s')) ∧
    draws.filterMap Draw.drawnCharacter = [(0x61, 44, 20), (0x37, 52, 20), (0x25, 60, 20)] := by
  have ha : (0x61 : BitVec 16) ≠ 0x25 := by decide
  have hpercent : Piece.Fits [] .percent := by
    intro c t h
    cases c <;> cases h
  have hspells : Spells [.character 0x61, .conversion .decimal, .percent] greeting.chars :=
    ⟨_, rfl, ha, [0x25], rfl, rfl, [], rfl, hpercent, rfl⟩
  have hrenders : Renders (fun _ => 0)
    (fun _ => 7) 0 [.character 0x61, .conversion .decimal, .percent]
      [0x61, 0x37, 0x25] :=
    ⟨[0x61], _, rfl, rfl, [0x37], [0x25], rfl, ⟨by decide, rfl⟩, [0x25], [], rfl, rfl, rfl⟩
  exact (debug_print_renders greeting (by decide) (by decide)).2 _ _ _ _ hspells hrenders 600 []
    ⟨fun _ => 0, fun _ => 0, 20, 0⟩

/-- The arguments of a print, among them the name of the process that makes it. -/
structure PrintCall where
  name : List (BitVec 16)
  memory : AddressSpace
  fuel : ℕ
  format : Option Format
  values : ℕ → BitVec 64

def PrintCall.result (v : BitVec 32) (s : DebugScreen) (c : PrintCall) :
    Option (PrintStatus × List Draw × DebugScreen) :=
  systemDebugPrint v c.name c.memory c.fuel c.format c.values s

def printStep (v : BitVec 32) (s : DebugScreen) (c : PrintCall) : Option DebugScreen :=
  (c.result v s).map fun r => r.2.2

/-- Characters side by side, from the place `x` on. -/
def row (x y : ℕ) (chars : List (BitVec 8)) : List (BitVec 8 × ℕ × ℕ) :=
  chars.mapIdx fun i c => (c, x + 8 * i, y)

/-- The characters of a drawing and where they are drawn. A text is drawn by the low bytes of its
characters, and one without low byte takes no place. -/
def Draw.cells : Draw → List (BitVec 8 × ℕ × ℕ)
  | .rect _ _ _ _ _ => []
  | .text s _ x y => row x y ((s.map (BitVec.setWidth 8)).filter (· ≠ 0))
  | .character c _ x y => [(c, x, y)]

def noteCells (v : BitVec 32) (s : DebugScreen) (c : PrintCall) (shown : List (BitVec 8 × ℕ × ℕ)) :
    List (BitVec 8 × ℕ × ℕ) :=
  match c.result v s with
  | some (.sok, draws, _) =>
      (if v - 40 ≤ s.yoff.setWidth 32 then [] else shown) ++ draws.flatMap Draw.cells
  | _ => shown

/-- The places in the frame buffer that the glyph of a character may write, with
`horizontalResolution` to a line. -/
def pixels (horizontalResolution : ℕ) (a : BitVec 8 × ℕ × ℕ) : Set ℕ :=
  {n | ∃ i < 8, ∃ j < 16, n = a.2.1 + i + (a.2.2 + j) * horizontalResolution}

/-- The process has a name of at most 255 characters, and what is drawn ends inside the screen. -/
def LineFits (horizontalResolution : ℕ) (v : BitVec 32) (s : DebugScreen) (c : PrintCall) : Prop :=
  c.name.length < 2 ^ 8 ∧ ∀ r ∈ c.result v s, ∀ a ∈ r.2.1.flatMap Draw.cells,
    a.2.1 + 8 ≤ horizontalResolution

/-- Two characters of eight pixels in sixteen are beside or below each other. -/
def Apart (a b : BitVec 8 × ℕ × ℕ) : Prop := a.2.1 + 8 ≤ b.2.1 ∨ a.2.2 + 16 ≤ b.2.2

def Covered (s : DebugScreen) (a : BitVec 8 × ℕ × ℕ) : Prop :=
  20 ≤ a.2.1 ∧ a.2.1 + 8 ≤ 20 + s.biggestWidth.toNat ∧ 20 ≤ a.2.2 ∧ a.2.2 + 16 ≤ s.yoff.toNat

structure LinesOk (horizontalResolution : ℕ) (v : BitVec 32) (s : DebugScreen)
    (shown : List (BitVec 8 × ℕ × ℕ)) : Prop where
  first : 20 ≤ s.yoff.toNat
  last : s.yoff.toNat + 24 < v.toNat
  covered : ∀ a ∈ shown, Covered s a
  inside : ∀ a ∈ shown, a.2.1 + 8 ≤ horizontalResolution
  apart : shown.Pairwise Apart

/-- Inside the screen the glyphs of characters that are apart write different pixels. -/
theorem Apart.disjoint {hres : ℕ} {a b : BitVec 8 × ℕ × ℕ} (h : Apart a b) (ha : a.2.1 + 8 ≤ hres)
    (hb : b.2.1 + 8 ≤ hres) : Disjoint (pixels hres a) (pixels hres b) := by
  rw [Set.disjoint_left]
  rintro n ⟨i, hi, j, hj, rfl⟩ ⟨i', hi', j', hj', heq⟩
  have hpos : 0 < hres := by omega
  have hcolumn := congrArg (· % hres) heq
  have hline := congrArg (· / hres) heq
  simp only [Nat.add_mul_mod_self_right, Nat.mod_eq_of_lt (show a.2.1 + i < hres by omega),
    Nat.mod_eq_of_lt (show b.2.1 + i' < hres by omega)] at hcolumn
  simp only [Nat.add_mul_div_right _ _ hpos, Nat.div_eq_of_lt (show a.2.1 + i < hres by omega),
    Nat.div_eq_of_lt (show b.2.1 + i' < hres by omega)] at hline
  rw [Apart] at h
  omega

theorem mem_row {x y : ℕ} {chars : List (BitVec 8)} {a : BitVec 8 × ℕ × ℕ} (h : a ∈ row x y chars) :
    x ≤ a.2.1 ∧ a.2.1 + 8 ≤ x + 8 * chars.length ∧ a.2.2 = y := by
  obtain ⟨i, hi, rfl⟩ := List.mem_mapIdx.mp h
  refine ⟨Nat.le_add_right x _, ?_, rfl⟩
  show x + 8 * i + 8 ≤ _
  omega

theorem row_pairwise (x y : ℕ) (chars : List (BitVec 8)) : (row x y chars).Pairwise Apart := by
  rw [List.pairwise_iff_getElem]
  intro i j hi hj hij
  simp only [row, List.getElem_mapIdx]
  refine .inl ?_
  show x + 8 * i + 8 ≤ x + 8 * j
  omega

theorem drawCharacters_cells (nameLen len : ℕ) (s : DebugScreen) :
    (drawCharacters nameLen len s).flatMap Draw.cells =
    row (20 + (nameLen + 3) * 8) s.yoff.toNat
      ((List.range len).map fun i => (s.formatted i).setWidth 8) := by
  rw [drawCharacters, List.flatMap_map, row]
  refine (List.map_eq_flatMap ..).symm.trans (List.ext_getElem (by simp) fun i hi hi' => ?_)
  rw [List.getElem_map, List.getElem_mapIdx, List.getElem_map, List.getElem_range]
  exact Prod.ext rfl (Prod.ext (by dsimp only; omega) rfl)

theorem clearScreen_cells (v : BitVec 32) (s : DebugScreen) :
    (clearScreen v s).1.flatMap Draw.cells = [] ∧ (clearScreen v s).2.formatted = s.formatted := by
  rw [clearScreen]
  split_ifs <;> exact ⟨rfl, rfl⟩

theorem drawMark_cells (s : DebugScreen) : (drawMark s).flatMap Draw.cells = [] := by
  rw [drawMark]
  split_ifs <;> rfl

theorem drawLine_cells (v : BitVec 32) (name : List (BitVec 16)) (len : ℕ) (s : DebugScreen) :
    (drawLine v name len s).1.flatMap Draw.cells =
      row 20 (clearScreen v s).2.yoff.toNat ((name.map (BitVec.setWidth 8)).filter (· ≠ 0)) ++
      (row (20 + name.length % 2 ^ 8 * 8) (clearScreen v s).2.yoff.toNat [0x20, 0x3A, 0x20] ++
        row (20 + (name.length % 2 ^ 8 + 3) * 8) (clearScreen v s).2.yoff.toNat
          ((List.range len).map fun i => (s.formatted i).setWidth 8)) := by
  obtain ⟨hcleared, hformatted⟩ := clearScreen_cells v s
  have hseparator : (([0x20, 0x3A, 0x20] : List (BitVec 16)).map (BitVec.setWidth 8)).filter
    (· ≠ 0) =
      [0x20, 0x3A, 0x20] := by decide
  rw [drawLine]
  simp only [List.flatMap_append, List.flatMap_cons, List.flatMap_nil, hcleared, drawMark_cells,
    Draw.cells, drawCharacters_cells, hformatted, hseparator, List.nil_append, List.append_nil]

theorem result_cases {v : BitVec 32} {s s' : DebugScreen} {c : PrintCall} {status : PrintStatus}
    {draws : List Draw} (h : c.result v s = some (status, draws, s')) :
    status = .invalidParameter ∧ s' = s ∨
      status = .sok ∧ ∃ formatted formatNumber len, len < 2 ^ 8 ∧
        (draws, s') = drawLine v c.name len
          { s with formatted := formatted, formatNumber := formatNumber } := by
  obtain ⟨name, memory, fuel, format, values⟩ := c
  cases format with
  | none =>
    cases h
    exact .inl ⟨rfl, rfl⟩
  | some f =>
    simp only [PrintCall.result, systemDebugPrint] at h
    split_ifs at h with hzero
    · cases h
      exact .inl ⟨rfl, rfl⟩
    · obtain ⟨p, -, h⟩ := Option.bind_eq_some_iff.mp h
      obtain ⟨len, -, h⟩ := Option.bind_eq_some_iff.mp h
      cases h
      exact .inr ⟨rfl, _, p.formatNumber, len % 2 ^ 8, Nat.mod_lt _ (by decide), rfl⟩

theorem clears_iff {v : BitVec 32} (hv : 60 < v.toNat) (y : BitVec 16) :
    v - 40 ≤ y.setWidth 32 ↔ v.toNat ≤ y.toNat + 40 := by
  rw [BitVec.le_def, BitVec.toNat_sub, BitVec.toNat_setWidth,
    show (40 : BitVec 32).toNat = 40 from rfl]
  omega

section Lines

variable {hres : ℕ} {v : BitVec 32} {s : DebugScreen} {shown : List (BitVec 8 × ℕ × ℕ)}

theorem clearScreen_lines (hv : 60 < v.toNat) (h : LinesOk hres v s shown) :
    (clearScreen v s).2.yoff.toNat + 40 < v.toNat ∧
      LinesOk hres v (clearScreen v s).2 (if v - 40 ≤ s.yoff.setWidth 32 then [] else shown) := by
  have hiff := clears_iff hv s.yoff
  rw [clearScreen]
  split_ifs with hclears
  · have hfirst : (20 : BitVec 16).toNat = 20 := rfl
    refine ⟨?_, hfirst.ge, ?_, fun a ha => absurd ha List.not_mem_nil,
      fun a ha => absurd ha List.not_mem_nil, List.Pairwise.nil⟩
    · show (20 : BitVec 16).toNat + 40 < _
      omega
    · show (20 : BitVec 16).toNat + 24 < _
      omega
  · refine ⟨?_, h⟩
    exact Nat.not_le.mp (mt hiff.mpr hclears)

/-- A line takes sixteen pixels of the height, and the width of its characters. -/
theorem drawLine_grows (hv' : v.toNat < 2 ^ 16) (name : List (BitVec 16)) {len : ℕ}
    (hlen : len < 2 ^ 8) (hroom : (clearScreen v s).2.yoff.toNat + 40 < v.toNat) :
    (drawLine v name len s).2.yoff.toNat = (clearScreen v s).2.yoff.toNat + 16 ∧
      (clearScreen v s).2.biggestWidth.toNat ≤ (drawLine v name len s).2.biggestWidth.toNat ∧
      (len + name.length % 2 ^ 8 + 3) * 8 ≤ (drawLine v name len s).2.biggestWidth.toNat := by
  refine ⟨?_, ?_⟩
  · have hadd : (drawLine v name len s).2.yoff = (clearScreen v s).2.yoff + 16 := rfl
    rw [hadd, BitVec.toNat_add, show (16 : BitVec 16).toNat = 16 from rfl]
    omega
  · have hif : (drawLine v name len s).2.biggestWidth =
        if (clearScreen v s).2.biggestWidth.toNat < (len + name.length % 2 ^ 8 + 3) * 8 then
          BitVec.ofNat 16 ((len + name.length % 2 ^ 8 + 3) * 8)
            else (clearScreen v s).2.biggestWidth := rfl
    rw [hif]
    split_ifs with hless
    · rw [BitVec.toNat_ofNat, Nat.mod_eq_of_lt (by omega)]
      exact ⟨hless.le, le_rfl⟩
    · exact ⟨le_rfl, Nat.not_lt.mp hless⟩

/-- The characters of a line are apart, in its row and to the right of the margin. -/
theorem drawLine_row (name : List (BitVec 16)) (hname : name.length < 2 ^ 8) (len : ℕ) :
    ((drawLine v name len s).1.flatMap Draw.cells).Pairwise Apart ∧
      ∀ a ∈ (drawLine v name len s).1.flatMap Draw.cells, 20 ≤ a.2.1 ∧
        a.2.1 + 8 ≤ 20 + (len + name.length % 2 ^ 8 + 3) * 8 ∧
        a.2.2 = (clearScreen v s).2.yoff.toNat := by
  have hlow : ((name.map (BitVec.setWidth 8)).filter (· ≠ (0 : BitVec 8))).length ≤
      name.length := by
    have hle := List.length_filter_le (· ≠ (0 : BitVec 8)) (name.map (BitVec.setWidth 8))
    rwa [List.length_map] at hle
  have hthree : ([0x20, 0x3A, 0x20] : List (BitVec 8)).length = 3 := rfl
  have hlen : ((List.range len).map fun i => (s.formatted i).setWidth 8).length = len := by
    rw [List.length_map, List.length_range]
  rw [drawLine_cells, Nat.mod_eq_of_lt hname]
  refine ⟨List.pairwise_append.mpr
    ⟨row_pairwise .., List.pairwise_append.mpr
    ⟨row_pairwise .., row_pairwise .., fun a ha b hb => .inl ?_⟩, fun a ha b hb => .inl ?_⟩,
    fun a ha => ?_⟩
  · have hleft := (mem_row ha).2.1
    have hright := (mem_row hb).1
    omega
  · have hleft := (mem_row ha).2.1
    rcases List.mem_append.mp hb with hb | hb
    · have hright := (mem_row hb).1
      omega
    · have hright := (mem_row hb).1
      omega
  · rcases List.mem_append.mp ha with ha | ha
    · obtain ⟨hx, hright, hy⟩ := mem_row ha
      exact ⟨hx, by omega, hy⟩
    · rcases List.mem_append.mp ha with ha | ha
      · obtain ⟨hx, hright, hy⟩ := mem_row ha
        exact ⟨by omega, by omega, hy⟩
      · obtain ⟨hx, hright, hy⟩ := mem_row ha
        exact ⟨by omega, by omega, hy⟩

theorem drawLine_lines (hv : 60 < v.toNat) (hv' : v.toNat < 2 ^ 16) (h : LinesOk hres v s shown)
    (name : List (BitVec 16)) (hname : name.length < 2 ^ 8) {len : ℕ} (hlen : len < 2 ^ 8)
    (hfits : ∀ a ∈ (drawLine v name len s).1.flatMap Draw.cells, a.2.1 + 8 ≤ hres) :
    LinesOk hres v (drawLine v name len s).2 ((if v - 40 ≤ s.yoff.setWidth 32 then [] else shown) ++
      (drawLine v name len s).1.flatMap Draw.cells) := by
  obtain ⟨hroom, hok⟩ := clearScreen_lines hv h
  obtain ⟨hyoff, hwider, hwidth⟩ := drawLine_grows hv' name hlen hroom
  obtain ⟨hrow, hplace⟩ := drawLine_row (v := v) (s := s) name hname len
  have hfirst := hok.first
  refine ⟨by omega, by omega, fun a ha => ?_, fun a ha => ?_,
    List.pairwise_append.mpr ⟨hok.apart, hrow, fun a ha b hb => ?_⟩⟩
  · rcases List.mem_append.mp ha with hold | hnew
    · obtain ⟨hx, hright, hy, hbottom⟩ := hok.covered a hold
      exact ⟨hx, by omega, hy, by omega⟩
    · obtain ⟨hx, hright, hy⟩ := hplace a hnew
      exact ⟨hx, by omega, by omega, by omega⟩
  · rcases List.mem_append.mp ha with hold | hnew
    · exact hok.inside a hold
    · exact hfits a hnew
  · obtain ⟨-, -, -, hbottom⟩ := hok.covered a ha
    exact .inr (hbottom.trans (hplace b hb).2.2.ge)

theorem print_lines (hv : 60 < v.toNat) (hv' : v.toNat < 2 ^ 16)
    {s t : DebugScreen × List (BitVec 8 × ℕ × ℕ)} (h : LinesOk hres v s.1 s.2) {c : PrintCall}
    (hc : LineFits hres v s.1 c) (hstep : watched (printStep v) (noteCells v) s c = some t) :
    LinesOk hres v t.1 t.2 := by
  obtain ⟨hprint, hnote⟩ := watched_eq_some.mp hstep
  obtain ⟨r, hr, hs⟩ := Option.map_eq_some_iff.mp hprint
  obtain ⟨hname, hfits⟩ := hc
  have hinside := hfits r hr
  obtain ⟨status, draws, s'⟩ := r
  rw [noteCells, hr] at hnote
  rcases result_cases hr with ⟨rfl, hsame⟩ | ⟨rfl, formatted, formatNumber, len, hlen, hline⟩
  · rw [hnote, ← hs]
    dsimp only
    rwa [hsame]
  · have hok : LinesOk hres v { s.1 with
      formatted := formatted, formatNumber := formatNumber } s.2 :=
      ⟨h.first, h.last, h.covered, h.inside, h.apart⟩
    have hdraws : draws = _ := congrArg Prod.fst hline
    rw [hdraws] at hinside
    rw [hnote, ← hs, hdraws, show s' = _ from congrArg Prod.snd hline]
    exact drawLine_lines hv hv' hok c.name hname hlen hinside

end Lines

def twoPrints : List PrintCall :=
  [⟨[0x6B], fun _ => 0, 9, some ⟨[0x61, 0x62], by decide⟩, fun _ => 0⟩,
    ⟨[0x6B], fun _ => 0, 9, some ⟨[0x63], by decide⟩, fun _ => 0⟩]

instance (hres : ℕ) (v : BitVec 32) (s : DebugScreen) (c : PrintCall) :
    Decidable (LineFits hres v s c) :=
  inferInstanceAs (Decidable (_ ∧ ∀ r ∈ c.result v s, ∀ a ∈ r.2.1.flatMap Draw.cells, _))

end DevOs.Management
