import DevOs.Lib.Bytes

/-!
# Words that numbers are added to

A number is added to words of a buffer, one after the other and modulo the size of a word. Words
that do not overlap without being the same can be taken in any order, so two rounds of additions are
one round with the sum.
-/

namespace DevOs.Bytes

variable {b c : Buffer} {k t u i : ℕ} {ts : List ℕ}

/-- Adds `d` to the word of `k` bytes at `t`. -/
def addAt (k d : ℕ) (b : Buffer) (t : ℕ) : Buffer := setLE b t k ((getLE b t k + d) % 256 ^ k)

def Clear (k t u : ℕ) : Prop := t = u ∨ t + k ≤ u ∨ u + k ≤ t

instance (k t u : ℕ) : Decidable (Clear k t u) := inferInstanceAs (Decidable (_ ∨ _))

def InWords (k : ℕ) (ts : List ℕ) (i : ℕ) : Prop := ∃ t ∈ ts, t ≤ i ∧ i < t + k

instance (k : ℕ) (ts : List ℕ) (i : ℕ) : Decidable (InWords k ts i) := List.decidableBEx _ ts

theorem addAt_of_not_mem (d : ℕ) (h : i < t ∨ t + k ≤ i) : addAt k d b t i = b i :=
  setLE_of_not_mem _ h

theorem getLE_addAt (d : ℕ) : getLE (addAt k d b t) t k = (getLE b t k + d) % 256 ^ k := by
  rw [addAt, getLE_setLE_self, Nat.mod_mod]

theorem addAt_congr (d : ℕ) (h : ∀ i, t ≤ i → i < t + k → b i = c i) (hi : b i = c i) :
    addAt k d b t i = addAt k d c t i := by
  have hword : getLE b t k = getLE c t k := getLE_congr fun j hj => h (t + j) (by omega) (by omega)
  rw [addAt, addAt, setLE, setLE, hword, hi]

theorem addAt_addAt (d e : ℕ) : addAt k d (addAt k e b t) t = addAt k (e + d) b t := by
  funext j
  by_cases hj : t ≤ j ∧ j < t + k
  · rw [addAt, getLE_addAt, setLE, if_pos hj, addAt, setLE, if_pos hj, Nat.mod_add_mod,
      Nat.add_assoc]
  · have hout : j < t ∨ t + k ≤ j := by omega
    rw [addAt_of_not_mem _ hout, addAt_of_not_mem _ hout, addAt_of_not_mem _ hout]

theorem addAt_comm (d e : ℕ) (h : Clear k t u) :
    addAt k d (addAt k e b t) u = addAt k e (addAt k d b u) t := by
  rcases h with rfl | h
  · rw [addAt_addAt, addAt_addAt, Nat.add_comm]
  · funext j
    by_cases hj : t ≤ j ∧ j < t + k
    · have hout : j < u ∨ u + k ≤ j := by omega
      rw [addAt_of_not_mem _ hout]
      symm
      apply addAt_congr
      · intro i hl hu
        rw [addAt_of_not_mem _ (by omega)]
      · rw [addAt_of_not_mem _ hout]
    · have hout : j < t ∨ t + k ≤ j := by omega
      rw [addAt_of_not_mem (t := t) _ hout]
      apply addAt_congr
      · intro i hl hu
        rw [addAt_of_not_mem _ (by omega)]
      · rw [addAt_of_not_mem _ hout]

theorem foldl_addAt_comm (d e : ℕ) (h : ∀ u ∈ ts, Clear k t u) :
    ts.foldl (addAt k e) (addAt k d b t) = addAt k d (ts.foldl (addAt k e) b) t := by
  induction ts generalizing b with
  | nil => rfl
  | cons u ts ih =>
    rw [List.foldl_cons, List.foldl_cons, addAt_comm e d (h u List.mem_cons_self),
      ih fun v hv => h v (List.mem_cons_of_mem u hv)]

theorem foldl_addAt_foldl_addAt (d e : ℕ) (h : ts.Pairwise (Clear k)) :
    ts.foldl (addAt k d) (ts.foldl (addAt k e) b) = ts.foldl (addAt k (e + d)) b := by
  induction ts generalizing b with
  | nil => rfl
  | cons t ts ih =>
    obtain ⟨ht, hts⟩ := List.pairwise_cons.mp h
    rw [List.foldl_cons, List.foldl_cons, List.foldl_cons, foldl_addAt_comm e e ht, addAt_addAt,
      foldl_addAt_comm (e + d) d ht, ih hts, ← foldl_addAt_comm (e + d) (e + d) ht]

theorem foldl_addAt_of_not_mem (d : ℕ) (h : ¬InWords k ts i) : ts.foldl (addAt k d) b i = b i := by
  induction ts generalizing b with
  | nil => rfl
  | cons t ts ih =>
    have hout : i < t ∨ t + k ≤ i := by
      by_contra hin
      exact h ⟨t, List.mem_cons_self, by omega, by omega⟩
    rw [List.foldl_cons, ih fun ⟨u, hu, hi⟩ => h ⟨u, List.mem_cons_of_mem t hu, hi⟩,
      addAt_of_not_mem _ hout]

/-- The words after a round are those of any buffer that has the same words before it. -/
theorem foldl_addAt_congr (d : ℕ) (h : ∀ i, InWords k ts i → b i = c i) (hi : b i = c i) :
    ts.foldl (addAt k d) b i = ts.foldl (addAt k d) c i := by
  induction ts generalizing b c with
  | nil => exact hi
  | cons t ts ih =>
    have hword : ∀ j, t ≤ j → j < t + k →
      b j = c j := fun j hl hu => h j ⟨t, List.mem_cons_self, hl, hu⟩
    rw [List.foldl_cons, List.foldl_cons]
    apply ih
    · rintro j ⟨u, hu, hj⟩
      exact addAt_congr d hword (h j ⟨u, List.mem_cons_of_mem t hu, hj⟩)
    · exact addAt_congr d hword hi

theorem addAt_mod (d : ℕ) : addAt k (d % 256 ^ k) b t = addAt k d b t := by
  rw [addAt, addAt, Nat.add_mod_mod]

end DevOs.Bytes
