import DevOs.Lib.Words
import Mathlib.Data.List.Perm.Basic
import Mathlib.Data.List.Nodup
import Mathlib.Data.List.Range

/-!
# Bitmaps of several words

A bitmap is a sequence of words of `w` bits. `places groups stride b` lists what a scan of the first
`groups` words visits: the set bits of each word in ascending order, where the bit `i` of the word
`x` counts as the place `i + x * stride`. With the stride `w` these are the bits of the bitmap.
Setting and clearing a bit adds and takes away its place.
-/

namespace DevOs.Bitmaps

open Words

variable {w : ℕ}

abbrev Bitmap (w : ℕ) := ℕ → BitVec w

def ones (b : BitVec w) : List ℕ := (List.range w).filter b.getLsbD

def places (groups stride : ℕ) (b : Bitmap w) : List ℕ :=
  (List.range groups).flatMap fun x => (ones (b x)).map fun i => i + x * stride

def bit (b : Bitmap w) (i : ℕ) : Bool := (b (i / w)).getLsbD (i % w)

def set (b : Bitmap w) (i : ℕ) : Bitmap w :=
  Function.update b (i / w) (bitTestAndSet (b (i / w)) (i % w))

def clear (b : Bitmap w) (i : ℕ) : Bitmap w :=
  Function.update b (i / w) (b (i / w) &&& ~~~BitVec.twoPow w (i % w))

variable {b c : Bitmap w} {groups i j : ℕ}

theorem mem_ones {b : BitVec w} : i ∈ ones b ↔ i < w ∧ b.getLsbD i = true := by
  rw [ones, List.mem_filter, List.mem_range]

theorem ones_zero : ones (0#w) = [] := by
  rw [ones, List.filter_eq_nil_iff]
  intro i _
  simp

theorem places_two (stride : ℕ) (b : Bitmap w) :
    places 2 stride b = ones (b 0) ++ (ones (b 1)).map fun i => i + stride := by
  simp [places, List.range_succ]

theorem mem_places : i ∈ places groups w b ↔ i < groups * w ∧ bit b i = true := by
  simp only [places, List.mem_flatMap, List.mem_map, List.mem_range, mem_ones, bit]
  constructor
  · rintro ⟨x, hx, j, ⟨hj, hset⟩, rfl⟩
    have hw : 0 < w := by omega
    have hle : (x + 1) * w ≤ groups * w := Nat.mul_le_mul_right w hx
    rw [Nat.add_mul_div_right j x hw, Nat.add_mul_mod_self_right, Nat.div_eq_of_lt hj,
      Nat.mod_eq_of_lt hj, Nat.zero_add]
    refine ⟨?_, hset⟩
    rw [Nat.add_mul] at hle
    omega
  · rintro ⟨hi, hset⟩
    have hw : 0 < w := Nat.pos_of_ne_zero fun h => by simp [h] at hi
    refine ⟨i / w, Nat.div_lt_of_lt_mul (by rwa [Nat.mul_comm]), i % w, ⟨Nat.mod_lt i hw, hset⟩, ?_⟩
    rw [Nat.add_comm, Nat.mul_comm]
    exact Nat.div_add_mod i w

theorem places_nodup (groups : ℕ) (b : Bitmap w) : (places groups w b).Nodup := by
  rw [places, List.nodup_flatMap]
  refine ⟨fun x _ => ?_, ?_⟩
  · exact (List.nodup_range.filter _).map fun i j h => Nat.add_right_cancel h
  · refine List.nodup_range.imp fun {x y} hne => ?_
    intro k hx hy
    rw [List.mem_map] at hx hy
    obtain ⟨i, hi, hk⟩ := hx
    obtain ⟨j, hj, hk'⟩ := hy
    have hiw := (mem_ones.mp hi).1
    have hjw := (mem_ones.mp hj).1
    have hw : 0 < w := by omega
    have hxk : k / w = x := by
      rw [← hk, Nat.add_mul_div_right i x hw, Nat.div_eq_of_lt hiw, Nat.zero_add]
    have hyk : k / w = y := by
      rw [← hk', Nat.add_mul_div_right j y hw, Nat.div_eq_of_lt hjw, Nat.zero_add]
    exact hne (hxk.symm.trans hyk)

theorem places_length_le (groups : ℕ) (b : Bitmap w) : (places groups w b).length ≤ groups * w := by
  have hsub : places groups w b ⊆ List.range (groups * w) :=
    fun i hi => List.mem_range.mpr (mem_places.mp hi).1
  have hle := (List.subperm_of_subset (places_nodup groups b) hsub).length_le
  rwa [List.length_range] at hle

theorem bit_not (hw : 0 < w) : bit (fun x => ~~~b x) i = !bit b i := by
  rw [bit, bit, BitVec.getLsbD_not, decide_eq_true (Nat.mod_lt i hw), Bool.true_and]

theorem places_not_ne_nil (h : (places groups w b).length < groups * w) :
    places groups w (fun x => ~~~b x) ≠ [] := by
  intro hnil
  have hsub : List.range (groups * w) ⊆ places groups w b := by
    intro i hi
    have hlt := List.mem_range.mp hi
    have hw : 0 < w := Nat.pos_of_ne_zero fun h => by simp [h] at hlt
    rw [mem_places]
    refine ⟨hlt, ?_⟩
    by_contra hclear
    have hmem : i ∈ places groups w (fun x => ~~~b x) := by
      rw [mem_places, bit_not hw, Bool.eq_false_iff.mpr hclear]
      exact ⟨hlt, rfl⟩
    rw [hnil] at hmem
    cases hmem
  have hle := (List.subperm_of_subset List.nodup_range hsub).length_le
  rw [List.length_range] at hle
  omega

theorem bit_set (hw : 0 < w) : bit (set b i) j = (bit b j || decide (j = i)) := by
  rw [bit, bit, set]
  by_cases hword : j / w = i / w
  · rw [hword, Function.update_self, getLsbD_bitTestAndSet, decide_eq_true (Nat.mod_lt j hw),
      Bool.true_and]
    have hiff : j % w = i % w ↔ j = i := by
      refine ⟨fun h => ?_, fun h => by rw [h]⟩
      rw [← Nat.div_add_mod j w, ← Nat.div_add_mod i w, hword, h]
    rw [decide_eq_decide.mpr hiff]
  · rw [Function.update_of_ne hword, decide_eq_false fun h => hword (by rw [h]), Bool.or_false]

theorem bit_clear (hw : 0 < w) : bit (clear b i) j = (bit b j && !decide (j = i)) := by
  rw [bit, bit, clear]
  by_cases hword : j / w = i / w
  · rw [hword, Function.update_self, BitVec.getLsbD_and, BitVec.getLsbD_not, BitVec.getLsbD_twoPow,
      decide_eq_true (Nat.mod_lt j hw), decide_eq_true (Nat.mod_lt i hw), Bool.true_and,
      Bool.true_and]
    have hiff : i % w = j % w ↔ j = i := by
      refine ⟨fun h => ?_, fun h => by rw [h]⟩
      rw [← Nat.div_add_mod j w, ← Nat.div_add_mod i w, hword, h]
    rw [decide_eq_decide.mpr hiff]
  · rw [Function.update_of_ne hword, decide_eq_false fun h => hword (by rw [h]), Bool.not_false,
      Bool.and_true]

theorem places_set (hi : i < groups * w) (hclear : bit b i = false) :
    (places groups w (set b i)).Perm (i :: places groups w b) := by
  have hw : 0 < w := Nat.pos_of_ne_zero fun h => by simp [h] at hi
  have hnot : i ∉ places groups w b := by
    rw [mem_places, hclear]
    simp
  rw [List.perm_ext_iff_of_nodup (places_nodup _ _) (List.nodup_cons.mpr ⟨hnot, places_nodup _ _⟩)]
  intro j
  rw [List.mem_cons, mem_places, mem_places, bit_set hw, Bool.or_eq_true, decide_eq_true_iff]
  constructor
  · rintro ⟨hj, hset | rfl⟩
    · exact Or.inr ⟨hj, hset⟩
    · exact Or.inl rfl
  · rintro (rfl | ⟨hj, hset⟩)
    · exact ⟨hi, Or.inr rfl⟩
    · exact ⟨hj, Or.inl hset⟩

theorem places_clear (hmem : i ∈ places groups w b) :
    (places groups w b).Perm (i :: places groups w (clear b i)) := by
  obtain ⟨hi, hset⟩ := mem_places.mp hmem
  have hw : 0 < w := Nat.pos_of_ne_zero fun h => by simp [h] at hi
  have hnot : i ∉ places groups w (clear b i) := by
    rw [mem_places, bit_clear hw]
    simp
  rw [List.perm_ext_iff_of_nodup (places_nodup _ _) (List.nodup_cons.mpr ⟨hnot, places_nodup _ _⟩)]
  intro j
  rw [List.mem_cons, mem_places, mem_places, bit_clear hw]
  by_cases hji : j = i
  · subst hji
    simp [hi, hset]
  · simp [hji]

theorem bit_place {x : ℕ} (hi : i < w) : bit b (i + x * w) = (b x).getLsbD i := by
  have hw : 0 < w := by omega
  rw [bit, Nat.add_mul_div_right i x hw, Nat.add_mul_mod_self_right, Nat.div_eq_of_lt hi,
    Nat.mod_eq_of_lt hi, Nat.zero_add]

theorem places_and_not (groups : ℕ) (b c : Bitmap w) : places groups w (fun x => ~~~c x &&& b x) =
    (places groups w b).filter fun i => !bit c i := by
  rw [places, places, List.filter_flatMap]
  refine congrArg (fun f => (List.range groups).flatMap f) (funext fun x => ?_)
  rw [List.filter_map, ones, ones, List.filter_filter]
  refine congrArg (List.map _) (List.filter_congr fun i hi => ?_)
  have hlt := List.mem_range.mp hi
  rw [Function.comp_apply, bit_place hlt, BitVec.getLsbD_and, BitVec.getLsbD_not,
    decide_eq_true hlt, Bool.true_and]

theorem clear_of_not (h : bit b i = false) : clear b i = b := by
  rw [clear]
  refine Function.update_eq_self_iff.mpr (BitVec.eq_of_getLsbD_eq fun j hj => ?_)
  rw [BitVec.getLsbD_and, BitVec.getLsbD_not, BitVec.getLsbD_twoPow, decide_eq_true hj,
    Bool.true_and]
  by_cases hji : i % w = j
  · rw [← hji, show (b (i / w)).getLsbD (i % w) = false from h, Bool.false_and]
  · rw [decide_eq_false hji, Bool.and_false, Bool.not_false, Bool.and_true]

end DevOs.Bitmaps
