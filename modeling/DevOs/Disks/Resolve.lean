import DevOs.Disks.Partition
import Mathlib.Algebra.BigOperators.Group.Finset.Basic
import Mathlib.Data.List.GetD

/-!
# The partition of a path

`ResolvePartition` looks for `//` before it looks for `///`, so that a path to the system partition
leads to the main one. Of an index behind the letter it adds the place of the last digit, one for
the digit before it, and powers of ten times the codes of the characters for the others. So the id
is right for a letter alone, for the indices `0` and `02`, and for the long indices whose sum
happens to agree. What stands in front of `:/` is not looked at otherwise.
-/

namespace DevOs.Disks

open Chained

/-- The character `k`. Behind the last one is the zero that ends the path. -/
def charAt (path : List ℕ) (k : ℕ) : Option ℕ := (path ++ [0])[k]?

/-- `memcmp`, which compares up to the first difference. -/
def memcmp (path : List ℕ) : ℕ → List ℕ → Option Bool
  | _, [] => some true
  | k, c :: cs => (charAt path k).bind fun x => if x = c then memcmp path (k + 1) cs else some false

def mainPrefix : List ℕ := [0x2F, 0x2F]
def systemPrefix : List ℕ := [0x2F, 0x2F, 0x2F]
def colonSlash : List ℕ := [0x3A, 0x2F]

/-- The loop that counts the characters in front of `:/`. -/
def indexerLength (path : List ℕ) : ℕ → ℕ → Option (Option ℕ)
  | 0, _ => none
  | fuel + 1, k =>
    (charAt path k).bind fun x =>
      if x = 0 then some none
      else (memcmp path k colonSlash).bind fun equal =>
        if equal then some (some k) else indexerLength path fuel (k + 1)

def powi (num count : ℕ) : ℕ :=
  let count := (count + (2 ^ 16 - 1)) % 2 ^ 16
  if count = 0 then 1 else (fun n => n * n % 2 ^ 64)^[count] num

def addIndex (path : List ℕ) (start : ℕ) : ℕ → ℕ → ℕ → Option ℕ
  | 0, _, id => some id
  | i + 1, c, id =>
    (if c ≠ 0 then (charAt path (start + i)).map fun x => (id + powi (10 * x) c) % 2 ^ 64
      else some ((id + i) % 2 ^ 64)).bind fun id => addIndex path start i ((c + 1) % 2 ^ 16) id

def letterIndex (c : ℕ) : Option ℕ :=
  if 0x61 ≤ c ∧ c ≤ 0x7A then some (c - 0x61) else if 0x41 ≤ c ∧
    c ≤ 0x5A then some (c - 0x41) else none

/-- `ResolvePartition`: the partition, and the place in the path to which `InPartitionPath` is set.
Nothing is returned when a character outside the path is read. -/
def PartitionTable.resolvePartition (t : PartitionTable) (path : Option (List ℕ))
    (inPartitionPath : Bool) :
    Option (Pointer × Option ℕ) :=
  match path, inPartitionPath with
  | some path, true =>
    (memcmp path 0 mainPrefix).bind fun main =>
      if main then some (t.mainPartition, some 2)
      else (memcmp path 0 systemPrefix).bind fun system =>
        if system then some (t.systemPartition, some 3)
        else (indexerLength path (path.length + 1) 0).bind fun length =>
          match length with
          | none => some (.null, none)
          | some 0 => some (.null, some 2)
          | some (n + 1) =>
            (charAt path 0).bind fun c =>
              -- the path is not verified again after the letter
              (match letterIndex c with
                | some letter => addIndex path 1 n 0 letter
                | none => addIndex path 0 (n + 1) 0 0).map fun id =>
                    (t.getPartition id, some (n + 3))
  | _, _ => some (.null, none)

def IsDigit (c : ℕ) : Prop := 0x30 ≤ c ∧ c ≤ 0x39

def decimal (digits : List ℕ) : ℕ := digits.foldl (fun v c => 10 * v + (c - 0x30)) 0

/-- A letter, digits, `:/` and the rest. -/
def Indexed (path : List ℕ) (letter : ℕ) (digits rest : List ℕ) : Prop :=
  ∃ c, letterIndex c = some letter ∧ (∀ d ∈ digits, IsDigit d) ∧
    path = c :: (digits ++ (colonSlash ++ rest))

/-- The partition that a path is in, and the place of the path within it. -/
structure RightPartition (t : PartitionTable) (path : List ℕ) (p : Pointer) (inPath : Option ℕ) :
    Prop where
  system : systemPrefix <+: path → p = t.systemPartition ∧ inPath = some 3
  main : mainPrefix <+: path → ¬ systemPrefix <+: path → p = t.mainPartition ∧ inPath = some 2
  indexed : ∀ letter digits rest, Indexed path letter digits rest →
    p = t.getPartition (letter + decimal digits) ∧ inPath = some (digits.length + 3)
  other : ¬ mainPrefix <+: path → (∀ letter digits rest, ¬ Indexed path letter digits rest) →
    p = .null

/-- What is added for the character `c` at the place `i` of an index of `n` characters. -/
def indexTerm (n i c : ℕ) : ℕ :=
  let k := (n - 1 - i) % 2 ^ 16
  if k = 0 then i else if k = 1 then 1 else (10 * c) ^ 2 ^ (k - 1)

def indexSum (digits : List ℕ) : ℕ :=
  ∑ i ∈ Finset.range digits.length, indexTerm digits.length i (digits.getD i 0)

def IndexFits (letter : ℕ) (digits : List ℕ) : Prop :=
  digits = [] ∨ digits = [0x30] ∨ digits = [0x30, 0x32] ∨
    5 ≤ digits.length ∧ (letter + indexSum digits) % 2 ^ 64 = letter + decimal digits

/-- The place of the first `:/`. -/
def FirstColon (path : List ℕ) (n : ℕ) : Prop :=
  colonSlash <+: path.drop n ∧ ∀ j < n, ¬ colonSlash <+: path.drop j

/-- The paths whose partitions are found: with two slashes, with an index that fits, and those of no
partition in which the first `:/`, if there is one, is at the beginning. -/
structure Resolvable (path : List ℕ) : Prop where
  system : ¬ systemPrefix <+: path
  indexed : ∀ letter digits rest, Indexed path letter digits rest → IndexFits letter digits
  other : ¬ mainPrefix <+: path → (∀ letter digits rest, ¬ Indexed path letter digits rest) →
    ∀ n, FirstColon path n → n = 0

variable {t : PartitionTable} {path digits rest : List ℕ} {k n letter : ℕ}

theorem charAt_of_lt (hk : k < path.length) : charAt path k = some path[k] := by
  rw [charAt, List.getElem?_append_left hk, List.getElem?_eq_getElem hk]

theorem charAt_end : charAt path path.length = some 0 := by
  rw [charAt, List.getElem?_append_right (Nat.le_refl _), Nat.sub_self]
  rfl

theorem memcmp_eq {cs : List ℕ} (hcs : 0 ∉ cs) (hk : k ≤ path.length) :
    memcmp path k cs = some (decide (cs <+: path.drop k)) := by
  induction cs generalizing k with
  | nil => rw [memcmp, decide_eq_true List.nil_prefix]
  | cons c cs ih =>
    have hc : (0 : ℕ) ≠ c := fun h => hcs (h ▸ List.mem_cons_self)
    have hcs : 0 ∉ cs := fun h => hcs (List.mem_cons_of_mem c h)
    rw [memcmp]
    rcases Nat.lt_or_eq_of_le hk with hlt | rfl
    · rw [charAt_of_lt hlt, Option.bind_some, List.drop_eq_getElem_cons hlt]
      simp only [List.cons_prefix_cons]
      split_ifs with hx
      · rw [ih hcs hlt]
        simp only [hx, true_and]
      · rw [decide_eq_false fun h => hx h.1.symm]
    · rw [charAt_end, Option.bind_some, if_neg hc, List.drop_length,
        decide_eq_false fun h => List.cons_ne_nil c cs (List.prefix_nil.mp h)]

theorem indexerLength_eq (h0 : 0 ∉ path) (fuel : ℕ) (hfuel : k + fuel = path.length + 1)
    (hk : k ≤ path.length) (hbefore : ∀ j < k, ¬ colonSlash <+: path.drop j) :
    (∃ n, indexerLength path fuel k = some (some n) ∧ FirstColon path n) ∨
      indexerLength path fuel k = some none ∧ ∀ j, ¬ colonSlash <+: path.drop j := by
  induction fuel generalizing k with
  | zero => omega
  | succ fuel ih =>
    rw [indexerLength]
    rcases Nat.lt_or_eq_of_le hk with hlt | rfl
    · have hx : path[k] ≠ 0 := fun hx => h0 (hx ▸ List.getElem_mem hlt)
      rw [charAt_of_lt hlt, Option.bind_some, if_neg hx, memcmp_eq (by decide) hk, Option.bind_some]
      by_cases hcolon : colonSlash <+: path.drop k
      · rw [decide_eq_true hcolon, if_pos rfl]
        exact Or.inl ⟨k, rfl, hcolon, hbefore⟩
      · rw [decide_eq_false hcolon, if_neg Bool.false_ne_true]
        refine ih (by omega) hlt fun j hj => ?_
        rcases Nat.lt_succ_iff_lt_or_eq.mp hj with hj | rfl
        · exact hbefore j hj
        · exact hcolon
    · rw [charAt_end, Option.bind_some, if_pos rfl]
      refine Or.inr ⟨rfl, fun j => ?_⟩
      rcases Nat.lt_or_ge j path.length with hj | hj
      · exact hbefore j hj
      · rw [List.drop_eq_nil_of_le hj]
        exact fun h => List.cons_ne_nil _ _ (List.prefix_nil.mp h)

theorem FirstColon.lt_length (hn : FirstColon path n) : n < path.length := by
  by_contra hle
  have hcolon := hn.1
  rw [List.drop_eq_nil_of_le (Nat.not_lt.mp hle)] at hcolon
  exact List.cons_ne_nil _ _ (List.prefix_nil.mp hcolon)

theorem FirstColon.unique {n' : ℕ} (hn : FirstColon path n) (hn' : FirstColon path n') :
    n = n' := by
  rcases Nat.lt_trichotomy n n' with hlt | heq | hlt
  · exact absurd hn.1 (hn'.2 n hlt)
  · exact heq
  · exact absurd hn'.1 (hn.2 n' hlt)

theorem iterate_square (x k : ℕ) :
    (fun n => n * n % 2 ^ 64)^[k] x % 2 ^ 64 = x ^ 2 ^ k % 2 ^ 64 := by
  induction k with
  | zero => rw [Function.iterate_zero_apply, Nat.pow_zero, Nat.pow_one]
  | succ k ih =>
    rw [Function.iterate_succ_apply', Nat.mod_mod, Nat.mul_mod, ih, ← Nat.mul_mod, ← Nat.pow_add,
      ← Nat.mul_two]
    rfl

theorem powi_mod {c : ℕ} (hc : c ≠ 0) (hlt : c < 2 ^ 16) (x : ℕ) :
    powi x c % 2 ^ 64 = (if c = 1 then 1 else x ^ 2 ^ (c - 1)) % 2 ^ 64 := by
  have hcount : (c + (2 ^ 16 - 1)) % 2 ^ 16 = c - 1 := by omega
  rw [powi, hcount]
  by_cases h1 : c = 1
  · rw [if_pos h1, if_pos (by omega)]
  · rw [if_neg h1, if_neg (by omega)]
    exact iterate_square x (c - 1)

theorem addIndex_eq {start c id : ℕ} (hk : k ≤ n) (hpath : start + n ≤ path.length)
    (hc : c = (n - k) % 2 ^ 16) (hid : id < 2 ^ 64) : addIndex path start k c id =
      some ((id + ∑ i ∈ Finset.range k, indexTerm n i (path.getD (start + i) 0)) % 2 ^ 64) := by
  induction k generalizing c id with
  | zero => rw [addIndex, Finset.sum_range_zero, Nat.add_zero, Nat.mod_eq_of_lt hid]
  | succ k ih =>
    have hlt : start + k < path.length := by omega
    have hterm : (n - 1 - k) % 2 ^ 16 = c := by
      rw [hc, Nat.sub_sub, Nat.add_comm 1 k]
    have hstep : (if c ≠ 0 then (charAt path (start + k)).map fun x =>
      (id + powi (10 * x) c) % 2 ^ 64
        else some ((id + k) % 2 ^ 64)) =
        some ((id + indexTerm n k (path.getD (start + k) 0)) % 2 ^ 64) := by
      rw [indexTerm, hterm]
      by_cases h0 : c = 0
      · rw [if_neg (not_not.mpr h0), if_pos h0]
      · rw [if_pos h0, if_neg h0, charAt_of_lt hlt, Option.map_some,
          List.getD_eq_getElem path 0 hlt, Nat.add_mod, powi_mod h0 (by omega), ← Nat.add_mod]
    rw [addIndex, hstep, Option.bind_some, ih (by omega) (by omega) (Nat.mod_lt _ (by decide)),
      Nat.mod_add_mod, Finset.sum_range_succ, Nat.add_assoc, Nat.add_comm (indexTerm n k _)]

theorem main_of_system (h : systemPrefix <+: path) : mainPrefix <+: path :=
  List.IsPrefix.trans ⟨[0x2F], rfl⟩ h

theorem resolvePartition_main (h : mainPrefix <+: path) :
    t.resolvePartition (some path) true = some (t.mainPartition, some 2) := by
  rw [PartitionTable.resolvePartition, memcmp_eq (by decide) (Nat.zero_le _), List.drop_zero,
    Option.bind_some, decide_eq_true h, if_pos rfl]

theorem resolvePartition_of_not_main (h : ¬ mainPrefix <+: path) :
    t.resolvePartition (some path) true =
      (indexerLength path (path.length + 1) 0).bind fun length =>
        match length with
        | none => some (.null, none)
        | some 0 => some (.null, some 2)
        | some (n + 1) => (charAt path 0).bind fun c =>
          (match letterIndex c with
            | some letter => addIndex path 1 n 0 letter
            | none => addIndex path 0 (n + 1) 0 0).map fun id =>
                (t.getPartition id, some (n + 3)) := by
  rw [PartitionTable.resolvePartition, memcmp_eq (by decide) (Nat.zero_le _),
    memcmp_eq (by decide) (Nat.zero_le _), List.drop_zero, Option.bind_some, decide_eq_false h,
    if_neg Bool.false_ne_true, Option.bind_some,
    decide_eq_false fun hs => h (main_of_system hs), if_neg Bool.false_ne_true]

theorem resolvePartition_none (h0 : 0 ∉ path) (h : ¬ mainPrefix <+: path)
    (hnone : ∀ n, ¬ FirstColon path n) :
    t.resolvePartition (some path) true = some (.null, none) := by
  rw [resolvePartition_of_not_main h]
  rcases indexerLength_eq h0 (path.length + 1) (Nat.zero_add _)
    (Nat.zero_le _) nofun with ⟨n, -, hn⟩ | ⟨hrun, -⟩
  · exact absurd hn (hnone n)
  · rw [hrun]
    rfl

theorem indexerLength_first (h0 : 0 ∉ path) (hn : FirstColon path n) :
    indexerLength path (path.length + 1) 0 = some (some n) := by
  rcases indexerLength_eq h0 (path.length + 1) (Nat.zero_add _)
    (Nat.zero_le _) nofun with ⟨n', hrun, hn'⟩ | ⟨-, hno⟩
  · rw [hrun, hn.unique hn']
  · exact absurd hn.1 (hno n)

theorem resolvePartition_zero (h0 : 0 ∉ path) (h : ¬ mainPrefix <+: path) (hn : FirstColon path 0) :
    t.resolvePartition (some path) true = some (.null, some 2) := by
  rw [resolvePartition_of_not_main h, indexerLength_first h0 hn]
  rfl

theorem letterIndex_lt {c : ℕ} (h : letterIndex c = some letter) : letter < 26 ∧ 0x41 ≤ c := by
  rw [letterIndex] at h
  split_ifs at h with hsmall hcapital
  · obtain rfl := Option.some.inj h
    omega
  · obtain rfl := Option.some.inj h
    omega

theorem resolvePartition_succ (h0 : 0 ∉ path) (h : ¬ mainPrefix <+: path)
    (hn : FirstColon path (n + 1)) :
    ∃ id, ∀ t : PartitionTable,
    t.resolvePartition (some path) true = some (t.getPartition id, some (n + 3)) := by
  have hlt := hn.lt_length
  have hfirst : charAt path 0 = some path[0] := charAt_of_lt (by omega)
  obtain ⟨id, hid⟩ : ∃ id, (match letterIndex path[0] with
      | some letter => addIndex path 1 n 0 letter
      | none => addIndex path 0 (n + 1) 0 0) = some id := by
    cases hletter : letterIndex path[0] with
    | some letter =>
      have hsmall := (letterIndex_lt hletter).1
      exact ⟨_, addIndex_eq (Nat.le_refl n) (by omega) (by rw [Nat.sub_self]; rfl) (by omega)⟩
    | none =>
        exact ⟨_, addIndex_eq (Nat.le_refl (n + 1)) (by omega) (by rw [Nat.sub_self]; rfl) (by
          decide)⟩
  refine ⟨id, fun t => ?_⟩
  rw [resolvePartition_of_not_main h, indexerLength_first h0 hn, Option.bind_some]
  dsimp only
  rw [hfirst, Option.bind_some, hid]
  rfl

theorem head_of_colonSlash {j : ℕ} (h : colonSlash <+: path.drop j) : path[j]? = some 0x3A := by
  obtain ⟨rest, hrest⟩ := h
  have hget : (path.drop j)[0]? = path[j + 0]? := List.getElem?_drop
  rw [← hrest] at hget
  exact hget.symm

theorem Indexed.firstColon (h : Indexed path letter digits rest) :
    FirstColon path (digits.length + 1) := by
  obtain ⟨c, hletter, hdigits, rfl⟩ := h
  constructor
  · rw [List.drop_succ_cons, List.drop_left]
    exact List.prefix_append colonSlash rest
  · intro j hj hcolon
    have hget := head_of_colonSlash hcolon
    cases j with
    | zero =>
      rw [List.getElem?_cons_zero] at hget
      have hc := (letterIndex_lt hletter).2
      have := Option.some.inj hget
      omega
    | succ j =>
      have hlt : j < digits.length := Nat.lt_of_succ_lt_succ hj
      rw [List.getElem?_cons_succ, List.getElem?_append_left hlt,
        List.getElem?_eq_getElem hlt] at hget
      have hdigit := hdigits _ (List.getElem_mem hlt)
      rw [Option.some.inj hget] at hdigit
      exact absurd hdigit.2 (by decide)

theorem Indexed.not_main (h : Indexed path letter digits rest) : ¬ mainPrefix <+: path := by
  obtain ⟨c, hletter, -, rfl⟩ := h
  intro hmain
  have hc := (List.cons_prefix_cons.mp hmain).1
  have := (letterIndex_lt hletter).2
  omega

theorem resolvePartition_indexed (h0 : 0 ∉ path) (h : Indexed path letter digits rest) :
    t.resolvePartition (some path) true =
      some (t.getPartition ((letter + indexSum digits) % 2 ^ 64), some (digits.length + 3)) := by
  have hfirst := h.firstColon
  have hmain := h.not_main
  have hlt := hfirst.lt_length
  obtain ⟨c, hletter, -, hpath⟩ := h
  have hhead : charAt path 0 = some c := by
    rw [charAt_of_lt (by omega)]
    simp only [hpath, List.getElem_cons_zero]
  have hsum : ∑ i ∈ Finset.range digits.length,
      indexTerm digits.length i (path.getD (1 + i) 0) = indexSum digits := by
    refine Finset.sum_congr rfl fun i hi => ?_
    have hi := Finset.mem_range.mp hi
    rw [hpath, Nat.add_comm 1 i, List.getD_cons_succ, List.getD_append _ _ _ _ hi]
  have hsmall := (letterIndex_lt hletter).1
  rw [resolvePartition_of_not_main hmain, indexerLength_first h0 hfirst, Option.bind_some]
  dsimp only
  rw [hhead, Option.bind_some, hletter]
  dsimp only
  rw [addIndex_eq (Nat.le_refl digits.length) (by omega) (by rw [Nat.sub_self]; rfl) (by
    omega), hsum]
  rfl

theorem indexFits_short (hlen : digits.length < 5) :
    IndexFits letter digits ↔ digits = [] ∨ digits = [0x30] ∨ digits = [0x30, 0x32] := by
  constructor
  · rintro (h | h | h | h)
    · exact Or.inl h
    · exact Or.inr (Or.inl h)
    · exact Or.inr (Or.inr h)
    · exact absurd h.1 (Nat.not_le.mpr hlen)
  · rintro (h | h | h)
    · exact Or.inl h
    · exact Or.inr (Or.inl h)
    · exact Or.inr (Or.inr (Or.inl h))

theorem not_fits (low high : ℕ) (hletter : letter < 26) (hlow : decimal digits < low)
    (hhigh : high + 26 < 2 ^ 64) (hsum : low ≤ indexSum digits ∧ indexSum digits ≤ high) :
    (letter + indexSum digits) % 2 ^ 64 ≠ letter + decimal digits := by
  rw [Nat.mod_eq_of_lt (by omega)]
  omega

theorem indexFits_iff (hdigits : ∀ d ∈ digits, IsDigit d) (hletter : letter < 26) :
    (letter + indexSum digits) % 2 ^ 64 = letter + decimal digits ↔ IndexFits letter digits := by
  match digits, hdigits with
  | [], _ =>
    have hlt : letter < 2 ^ 64 := Nat.lt_trans hletter (by decide)
    exact iff_of_true (Nat.mod_eq_of_lt hlt) (Or.inl rfl)
  | [a], hdigits =>
    have ha := (hdigits a (by simp)).1
    have hsum : indexSum [a] = 0 := rfl
    have hvalue : decimal [a] = a - 0x30 := Nat.zero_add _
    rw [indexFits_short (by simp), hsum, hvalue, Nat.add_zero, Nat.mod_eq_of_lt (by omega)]
    simp only [List.cons_ne_nil, List.cons.injEq, and_true, reduceCtorEq, and_false, false_or,
      or_false]
    omega
  | [a, b], hdigits =>
    have ha := (hdigits a (by simp)).1
    have hb := hdigits b (by simp)
    have hlow := hb.1
    have hhigh := hb.2
    have hsum : indexSum [a, b] = 2 := rfl
    have hvalue : decimal [a, b] = 10 * (10 * 0 + (a - 0x30)) + (b - 0x30) := rfl
    rw [indexFits_short (by simp), hsum, hvalue, Nat.mod_eq_of_lt (by omega)]
    simp only [List.cons.injEq, and_true, reduceCtorEq, and_false, false_or]
    omega
  | [a, b, c], hdigits =>
    have ha := hdigits a (by simp)
    have hb := (hdigits b (by simp)).2
    have hc := (hdigits c (by simp)).2
    have hvalue : decimal [a, b, c] = 10 * (10 * (10 * 0 + (a - 0x30)) + (b - 0x30)) + (c - 0x30) :=
      rfl
    have hsum : indexSum [a, b, c] = (10 * a) ^ 2 + 1 + 2 := by
      rw [indexSum, List.length_cons, List.length_cons, List.length_singleton,
        Finset.sum_range_succ, Finset.sum_range_succ, Finset.sum_range_one]
      simp [indexTerm]
    have hlow : 480 ^ 2 ≤ (10 * a) ^ 2 := Nat.pow_le_pow_left (Nat.mul_le_mul_left 10 ha.1) 2
    have hhigh : (10 * a) ^ 2 ≤ 570 ^ 2 := Nat.pow_le_pow_left (Nat.mul_le_mul_left 10 ha.2) 2
    have ha := ha.2
    refine iff_of_false ?_ (by rw [indexFits_short (by simp)]; simp)
    refine not_fits 1000 400000 hletter (by rw [hvalue]; omega) (by decide) ?_
    rw [hsum]
    exact ⟨by omega, by omega⟩
  | [a, b, c, d], hdigits =>
    have ha := hdigits a (by simp)
    have hb := (hdigits b (by simp)).2
    have hc := (hdigits c (by simp)).2
    have hd := (hdigits d (by simp)).2
    have hvalue : decimal [a, b, c, d] =
        10 * (10 * (10 * (10 * 0 + (a - 0x30)) + (b - 0x30)) + (c - 0x30)) + (d - 0x30) := rfl
    have hsum : indexSum [a, b, c, d] = (10 * a) ^ 4 + (10 * b) ^ 2 + 1 + 3 := by
      rw [indexSum, List.length_cons, List.length_cons, List.length_cons, List.length_singleton,
        Finset.sum_range_succ, Finset.sum_range_succ, Finset.sum_range_succ, Finset.sum_range_one]
      simp [indexTerm]
    have hlow : 480 ^ 4 ≤ (10 * a) ^ 4 := Nat.pow_le_pow_left (Nat.mul_le_mul_left 10 ha.1) 4
    have hhigh : (10 * a) ^ 4 ≤ 570 ^ 4 := Nat.pow_le_pow_left (Nat.mul_le_mul_left 10 ha.2) 4
    have hhigh' : (10 * b) ^ 2 ≤ 570 ^ 2 := Nat.pow_le_pow_left (Nat.mul_le_mul_left 10 hb) 2
    have ha := ha.2
    refine iff_of_false ?_ (by rw [indexFits_short (by simp)]; simp)
    refine not_fits 10000 200000000000 hletter (by rw [hvalue]; omega) (by decide) ?_
    rw [hsum]
    exact ⟨by omega, by omega⟩
  | a :: b :: c :: d :: e :: more, _ =>
    rw [IndexFits]
    simp only [List.cons.injEq, reduceCtorEq, and_false, List.length_cons, false_or]
    exact ⟨fun h => ⟨by omega, h⟩, fun h => h.2⟩

/-- A table in which the partitions up to the number `n` are there. -/
def fullTable (n : ℕ) : PartitionTable where
  partitions := ⟨n + 1, fun _ => { zeroPartition with present := true }⟩
  others := fun _ => zeroPartition
  mainPartition := .null
  systemPartition := .null

theorem getPartition_fullTable {n id : ℕ} (hid : id ≤ n) :
    (fullTable n).getPartition id = .entry id := by
  refine PartitionTable.getPartition_eq_entry.mpr
    ⟨rfl, PartitionTable.partition_ne_none.mpr ⟨?_, rfl⟩⟩
  exact Nat.lt_of_lt_of_le (Nat.lt_succ_of_le hid) (Nat.le_mul_of_pos_right _ (by decide))

theorem resolvePartition_returns (h0 : 0 ∉ path) :
    ∃ r, t.resolvePartition (some path) true = some r := by
  by_cases hmain : mainPrefix <+: path
  · exact ⟨_, resolvePartition_main hmain⟩
  · by_cases hcolon : ∃ n, FirstColon path n
    · obtain ⟨n, hn⟩ := hcolon
      cases n with
      | zero => exact ⟨_, resolvePartition_zero h0 hmain hn⟩
      | succ n =>
        obtain ⟨id, hid⟩ := resolvePartition_succ h0 hmain hn
        exact ⟨_, hid t⟩
    · exact ⟨_, resolvePartition_none h0 hmain fun n hn => hcolon ⟨n, hn⟩⟩

/-- A call finds the partition of a path in every table exactly for the paths that are described
above. It reads no character outside a path. -/
theorem resolvePartition_right_iff (path : List ℕ) (h0 : 0 ∉ path) :
    (∀ t : PartitionTable, ∃ r, t.resolvePartition (some path) true = some r) ∧
      ((∀ t : PartitionTable, ∃ p inPath, t.resolvePartition (some path) true = some (p, inPath) ∧
        RightPartition t path p inPath) ↔ Resolvable path) := by
  refine ⟨fun t => resolvePartition_returns h0,
    fun hall => ⟨fun hsystem => ?_, fun letter digits rest h => ?_, fun hmain hno n hn => ?_⟩,
    fun hok t => ?_⟩
  · obtain ⟨p, inPath, hrun, hright⟩ := hall (fullTable 0)
    rw [resolvePartition_main (main_of_system hsystem)] at hrun
    obtain ⟨-, rfl⟩ := Prod.mk.inj (Option.some.inj hrun)
    cases (hright.system hsystem).2
  · -- a table in which both ids lead to a partition
    obtain ⟨p, inPath, hrun, hright⟩ :=
      hall (fullTable (max ((letter + indexSum digits) % 2 ^ 64) (letter + decimal digits)))
    rw [resolvePartition_indexed h0 h] at hrun
    obtain ⟨rfl, rfl⟩ := Prod.mk.inj (Option.some.inj hrun)
    have hsame := (hright.indexed letter digits rest h).1
    rw [getPartition_fullTable (Nat.le_max_left _ _), getPartition_fullTable (Nat.le_max_right _ _),
      Pointer.entry.injEq] at hsame
    obtain ⟨c, hletter, hdigits, -⟩ := h
    exact (indexFits_iff hdigits (letterIndex_lt hletter).1).mp hsame
  · cases n with
    | zero => rfl
    | succ n =>
      obtain ⟨id, hid⟩ := resolvePartition_succ h0 hmain hn
      obtain ⟨p, inPath, hrun, hright⟩ := hall (fullTable id)
      rw [hid, getPartition_fullTable (Nat.le_refl id)] at hrun
      obtain ⟨rfl, rfl⟩ := Prod.mk.inj (Option.some.inj hrun)
      cases hright.other hmain hno
  · by_cases hmain : mainPrefix <+: path
    · exact ⟨_, _, resolvePartition_main hmain, fun h => absurd h hok.system, fun _ _ => ⟨rfl, rfl⟩,
        fun _ _ _ h => absurd hmain h.not_main, fun h => absurd hmain h⟩
    · have hsystem : ¬ systemPrefix <+: path := fun h => hmain (main_of_system h)
      by_cases hindexed : ∃ letter digits rest, Indexed path letter digits rest
      · obtain ⟨letter, digits, rest, h⟩ := hindexed
        refine ⟨_, _, resolvePartition_indexed h0 h, fun h => absurd h hsystem,
          fun h => absurd h hmain, fun letter' digits' rest' h' => ?_,
          fun _ hno => absurd h (hno letter digits rest)⟩
        have hfits := hok.indexed letter' digits' rest' h'
        have hrun := resolvePartition_indexed (t := t) h0 h
        rw [resolvePartition_indexed h0 h'] at hrun
        obtain ⟨hp, hin⟩ := Prod.mk.inj (Option.some.inj hrun)
        obtain ⟨c, hletter, hdigits, -⟩ := h'
        rw [(indexFits_iff hdigits (letterIndex_lt hletter).1).mpr hfits] at hp
        exact ⟨hp.symm, hin.symm⟩
      · have hno (letter : ℕ) (digits rest : List ℕ) : ¬ Indexed path letter digits rest :=
          fun h => hindexed ⟨letter, digits, rest, h⟩
        obtain ⟨inPath, hrun⟩ : ∃ inPath,
            t.resolvePartition (some path) true = some (.null, inPath) := by
          by_cases hcolon : ∃ n, FirstColon path n
          · obtain ⟨n, hn⟩ := hcolon
            obtain rfl := hok.other hmain hno n hn
            exact ⟨some 2, resolvePartition_zero h0 hmain hn⟩
          · exact ⟨none, resolvePartition_none h0 hmain fun n hn => hcolon ⟨n, hn⟩⟩
        exact ⟨.null, inPath, hrun, fun h => absurd h hsystem, fun h => absurd h hmain,
          fun letter digits rest h => absurd h (hno letter digits rest), fun _ _ => rfl⟩

/-- `a02:/x` -/
def indexPath : List ℕ := [0x61, 0x30, 0x32, 0x3A, 0x2F, 0x78]

theorem digits_indexPath {c : ℕ} (hdigits : ∀ d ∈ digits, IsDigit d)
    (h : indexPath = c :: (digits ++ (colonSlash ++ rest))) : digits = [0x30, 0x32] := by
  simp only [indexPath, colonSlash, List.cons.injEq] at h
  rcases digits with - | ⟨d, - | ⟨e, - | ⟨f, ds⟩⟩⟩
  · simp at h
  · simp at h
  · simp only [List.cons_append, List.nil_append, List.cons.injEq] at h
    rw [h.2.1, h.2.2.1]
  · -- a third digit would be the colon
    simp only [List.cons_append, List.nil_append, List.cons.injEq] at h
    have hcolon := hdigits f (by simp)
    rw [← h.2.2.2.1] at hcolon
    exact absurd hcolon.2 (by decide)

theorem resolvable_indexPath : Resolvable indexPath where
  system := by decide
  indexed := by
    rintro letter digits rest ⟨c, -, hdigits, hpath⟩
    exact Or.inr (Or.inr (Or.inl (digits_indexPath hdigits hpath)))
  other := fun _ hno => absurd ⟨0x61, rfl, by simp [IsDigit], rfl⟩ (hno 0 [0x30, 0x32] [0x78])

/-- The paths `//x` and `a02:/x`. -/
theorem resolvePartition_right_main :
    (∃ p inPath, (fullTable 2).resolvePartition (some [0x2F, 0x2F, 0x78]) true = some (p, inPath) ∧
      RightPartition (fullTable 2) [0x2F, 0x2F, 0x78] p inPath) ∧
    ∃ p inPath, (fullTable 2).resolvePartition (some indexPath) true = some (p, inPath) ∧
      RightPartition (fullTable 2) indexPath p inPath := by
  have hmain : mainPrefix <+: [0x2F, 0x2F, 0x78] := by decide
  refine ⟨(resolvePartition_right_iff [0x2F, 0x2F, 0x78] (by decide)).2.mpr ?_ (fullTable 2),
    (resolvePartition_right_iff indexPath (by decide)).2.mpr resolvable_indexPath (fullTable 2)⟩
  exact ⟨by decide, fun _ _ _ h => absurd hmain h.not_main, fun h => absurd hmain h⟩

/-- Four partitions, the first two of which are the main one and the system one. -/
def fourTable : PartitionTable :=
  { fullTable 3 with mainPartition := .entry 0, systemPartition := .entry 1 }

/-- The path `///x` leads to the main partition, and `c1:/x` to the partition 2. -/
theorem resolvePartition_wrong :
    fourTable.resolvePartition (some [0x2F, 0x2F, 0x2F, 0x78]) true = some (.entry 0, some 2) ∧
      fourTable.resolvePartition (some [0x63, 0x31, 0x3A, 0x2F, 0x78]) true =
        some (.entry 2, some 4) ∧
      ¬ (∀ (t : PartitionTable) (path : List ℕ), 0 ∉ path → ∃ p inPath,
        t.resolvePartition (some path) true = some (p, inPath) ∧
        RightPartition t path p inPath) := by
  have hrun : fourTable.resolvePartition (some [0x2F, 0x2F, 0x2F, 0x78]) true =
      some (.entry 0, some 2) := by
    decide
  refine ⟨hrun, by decide, fun hall => ?_⟩
  obtain ⟨p, inPath, hrun', hright⟩ := hall fourTable [0x2F, 0x2F, 0x2F, 0x78] (by decide)
  rw [hrun] at hrun'
  obtain ⟨-, rfl⟩ := Prod.mk.inj (Option.some.inj hrun')
  cases (hright.system (by decide)).2

end DevOs.Disks
