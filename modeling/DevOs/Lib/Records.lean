import DevOs.Lib.Bytes

/-!
# Records one behind the other

A table is a list of byte strings that are stored one behind the other. A loop goes over it with a
cursor: the body sees the record at the cursor, and the length of the record moves the cursor.
`Visits` says which places such a loop comes to, and the loop is then a fold over them.
-/

namespace DevOs.Records

open DevOs.Bytes

variable {b : Buffer} {p : ℕ} {l m : List Byte}

/-- The bytes of the list are in memory from `p` on. -/
def At (b : Buffer) (p : ℕ) : List Byte → Prop
  | [] => True
  | x :: l => b p = x ∧ At b (p + 1) l

theorem at_append : At b p (l ++ m) ↔ At b p l ∧ At b (p + l.length) m := by
  induction l generalizing p with
  | nil => simp [At]
  | cons x l ih =>
    rw [List.cons_append, At, At, ih, List.length_cons, Nat.add_right_comm, Nat.add_assoc,
      and_assoc]

/-- A memory that has the bytes from `p` on, and zeros elsewhere. -/
def store (p : ℕ) (l : List Byte) : Buffer := fun i => if p ≤ i then l.getD (i - p) 0 else 0

theorem at_of_byte (h : ∀ i (hi : i < l.length), b (p + i) = l[i]) : At b p l := by
  induction l generalizing p with
  | nil => exact trivial
  | cons x l ih =>
    refine ⟨h 0 (Nat.succ_pos l.length), ih fun i hi => ?_⟩
    have hnext := h (i + 1) (Nat.succ_lt_succ hi)
    rw [List.getElem_cons_succ] at hnext
    rw [← hnext, Nat.add_right_comm, Nat.add_assoc]

theorem at_store (p : ℕ) (l : List Byte) : At (store p l) p l := by
  apply at_of_byte
  intro i hi
  unfold store
  rw [if_pos (Nat.le_add_right p i), Nat.add_sub_cancel_left, List.getD_eq_getElem?_getD,
    List.getElem?_eq_getElem hi, Option.getD_some]

/-- The `n` bytes of a number, the lowest first. -/
def bytesLE : ℕ → ℕ → List Byte
  | 0, _ => []
  | n + 1, v => BitVec.ofNat 8 v :: bytesLE n (v / 256)

@[simp]
theorem length_bytesLE (n v : ℕ) : (bytesLE n v).length = n := by
  induction n generalizing v with
  | zero => rfl
  | succ n ih => rw [bytesLE, List.length_cons, ih]

theorem At.getLE {n v : ℕ} (h : At b p (bytesLE n v)) : getLE b p n = v % 256 ^ n := by
  induction n generalizing p v with
  | zero => rw [Bytes.getLE, Nat.pow_zero, Nat.mod_one]
  | succ n ih =>
    have hsplit := Nat.mod_mul (x := v) (a := 256) (b := 256 ^ n)
    rw [← Nat.pow_succ'] at hsplit
    rw [Bytes.getLE, h.1, ih h.2, BitVec.toNat_ofNat, hsplit]

variable {π σ ρ : Type*} {more : π → Bool} {next : π → π} {body : π → σ → ρ ⊕ σ} {c : π}
    {cs : List π} {s t : σ}
  {fuel : ℕ}

def walk (more : π → Bool) (next : π → π) (body : π → σ → ρ ⊕ σ) : ℕ → π → σ → Option (ρ ⊕ σ)
  | 0, _, _ => none
  | fuel + 1, c, s =>
    if more c then
      match body c s with
      | .inl r => some (.inl r)
      | .inr t => walk more next body fuel (next c) t
    else some (.inr s)

def visit (body : π → σ → ρ ⊕ σ) : List π → σ → ρ ⊕ σ
  | [], s => .inr s
  | c :: cs, s =>
    match body c s with
    | .inl r => .inl r
    | .inr t => visit body cs t

/-- The loop comes to the places of the list, in this order, and there are no more. -/
inductive Visits (more : π → Bool) (next : π → π) : π → List π → Prop where
  | stop {c : π} (h : more c = false) : Visits more next c []
  | record {c : π} {cs : List π} (h : more c = true) (hv : Visits more next (next c) cs) :
    Visits more next c (c :: cs)

theorem Visits.walk (h : Visits more next c cs) (hf : cs.length < fuel) :
    walk more next body fuel c s = some (visit body cs s) := by
  induction h generalizing fuel s with
  | stop h =>
    obtain ⟨fuel, rfl⟩ : ∃ n, fuel = n + 1 := ⟨fuel - 1, by omega⟩
    rw [Records.walk, if_neg (by rw [h]; exact Bool.false_ne_true)]
    rfl
  | record h hv ih =>
    rename_i c cs
    obtain ⟨fuel, rfl⟩ : ∃ n, fuel = n + 1 := ⟨fuel - 1, by omega⟩
    rw [Records.walk, if_pos h, visit]
    cases body c s with
    | inl r => rfl
    | inr t => exact ih (Nat.lt_of_succ_lt_succ hf)

theorem Visits.of_walk (hb : ∀ c s, ∃ t, body c s = .inr t)
    (h : Records.walk more next body fuel c s ≠ none) :
    ∃ cs, Visits more next c cs ∧ cs.length < fuel := by
  induction fuel generalizing c s with
  | zero => exact absurd rfl h
  | succ fuel ih =>
    rw [Records.walk] at h
    cases hm : more c with
    | false => exact ⟨[], .stop hm, Nat.succ_pos fuel⟩
    | true =>
      obtain ⟨t, ht⟩ := hb c s
      rw [if_pos hm, ht] at h
      obtain ⟨cs, hv, hlen⟩ := ih h
      exact ⟨c :: cs, .record hm hv, Nat.succ_lt_succ hlen⟩

theorem exists_visits_iff : (∃ cs, Visits more next c cs) ↔ ∃ n, more (next^[n] c) = false := by
  constructor
  · rintro ⟨cs, h⟩
    induction h with
    | stop h => exact ⟨0, h⟩
    | record h hv ih =>
      obtain ⟨n, hn⟩ := ih
      exact ⟨n + 1, hn⟩
  · rintro ⟨n, hn⟩
    induction n generalizing c with
    | zero => exact ⟨[], .stop hn⟩
    | succ n ih =>
      cases hm : more c with
      | false => exact ⟨[], .stop hm⟩
      | true =>
        obtain ⟨cs, hv⟩ := ih hn
        exact ⟨c :: cs, .record hm hv⟩

end DevOs.Records
