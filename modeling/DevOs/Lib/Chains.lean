import Mathlib.Data.List.Nodup
import Mathlib.Algebra.Order.Ring.Nat
import Mathlib.Tactic.Common

/-!
# Chains in a successor table

A table gives every node a successor, and the successor `stop` ends a chain. `Chain next stop l`
says that `l` is the whole chain of its first node. A chain is determined by its head and has no
repetitions, it is not affected by changes of the table elsewhere, and it is extended by redirecting
its last node.
-/

namespace DevOs.Chains

variable {next next' : ℕ → ℕ} {stop : ℕ}

def Chain (next : ℕ → ℕ) (stop : ℕ) : List ℕ → Prop
  | [] => False
  | [a] => next a = stop
  | a :: b :: l => next a = b ∧ b ≠ stop ∧ Chain next stop (b :: l)

theorem Chain.ne_nil {l : List ℕ} (h : Chain next stop l) : l ≠ [] := by
  rintro rfl
  exact h

theorem Chain.tail {a b : ℕ} {l : List ℕ} (h : Chain next stop (a :: b :: l)) :
    Chain next stop (b :: l) := h.2.2

theorem Chain.congr {l : List ℕ} (h : Chain next stop l) (he : ∀ a ∈ l, next' a = next a) :
    Chain next' stop l := by
  induction l with
  | nil => exact h
  | cons a l ih =>
    cases l with
    | nil => exact (he a (by simp)).trans h
    | cons b l =>
      exact ⟨(he a (by simp)).trans h.1, h.2.1, ih h.tail (fun c hc => he c (by simp [hc]))⟩

theorem Chain.unique {a : ℕ} {l m : List ℕ} (hl : Chain next stop (a :: l))
    (hm : Chain next stop (a :: m)) : l = m := by
  induction l generalizing a m with
  | nil =>
    cases m with
    | nil => rfl
    | cons c m => exact absurd (hm.1.symm.trans hl) hm.2.1
  | cons b l ih =>
    cases m with
    | nil => exact absurd (hl.1.symm.trans hm) hl.2.1
    | cons c m =>
      have hbc : b = c := hl.1.symm.trans hm.1
      subst hbc
      rw [ih hl.tail hm.tail]

theorem Chain.suffix {a : ℕ} {l m : List ℕ} (h : Chain next stop (l ++ a :: m)) :
    Chain next stop (a :: m) := by
  induction l with
  | nil => exact h
  | cons b l ih =>
    cases l with
    | nil => exact h.tail
    | cons c l => exact ih h.tail

theorem Chain.nodup {l : List ℕ} (h : Chain next stop l) : l.Nodup := by
  induction l with
  | nil => exact List.nodup_nil
  | cons a l ih =>
    cases l with
    | nil => simp
    | cons b l =>
      rw [List.nodup_cons]
      refine ⟨?_, ih h.tail⟩
      intro hmem
      obtain ⟨p, q, hpq⟩ := List.append_of_mem hmem
      have hs : Chain next stop (a :: q) := by
        apply Chain.suffix (l := a :: p)
        rw [List.cons_append, ← hpq]
        exact h
      have hlen := congrArg List.length (h.unique hs)
      rw [hpq, List.length_append, List.length_cons] at hlen
      omega

theorem Chain.next_mem {l : List ℕ} (h : Chain next stop l) {a : ℕ} (ha : a ∈ l) :
    next a = stop ∨ next a ∈ l := by
  induction l with
  | nil => cases ha
  | cons b l ih =>
    cases l with
    | nil =>
      rw [List.mem_singleton.mp ha]
      exact Or.inl h
    | cons c l =>
      rcases List.mem_cons.mp ha with rfl | ha
      · exact Or.inr (by rw [h.1]; simp)
      · exact (ih h.tail ha).imp id (List.mem_cons_of_mem b)

theorem Chain.getLast {l : List ℕ} (h : Chain next stop l) : next (l.getLast h.ne_nil) = stop := by
  induction l with
  | nil => exact absurd rfl h.ne_nil
  | cons a l ih =>
    cases l with
    | nil => exact h
    | cons b l =>
      rw [List.getLast_cons (by simp)]
      exact ih h.tail

/-- Redirecting the last node of a chain to the head of another one appends the latter. -/
theorem Chain.append {l m : List ℕ} (hl : Chain next stop l) (hm : Chain next' stop m)
    (hne : m.head hm.ne_nil ≠ stop)
    (hlast : next' (l.getLast hl.ne_nil) = m.head hm.ne_nil)
    (hother : ∀ a ∈ l, a ≠ l.getLast hl.ne_nil → next' a = next a) :
    Chain next' stop (l ++ m) := by
  induction l with
  | nil => exact absurd rfl hl.ne_nil
  | cons a l ih =>
    cases l with
    | nil =>
      cases m with
      | nil => exact absurd rfl hm.ne_nil
      | cons c m => exact ⟨hlast, hne, hm⟩
    | cons b l =>
      have hg : (a :: b :: l).getLast hl.ne_nil = (b :: l).getLast (by simp) :=
        List.getLast_cons (by simp)
      have ha : a ≠ (a :: b :: l).getLast hl.ne_nil := by
        rw [hg]
        have hn := hl.nodup
        rw [List.nodup_cons] at hn
        intro he
        exact hn.1 (he ▸ List.getLast_mem (by simp))
      refine ⟨(hother a (by simp) ha).trans hl.1, hl.2.1, ?_⟩
      apply ih hl.tail
      · rw [← hg]
        exact hlast
      · intro c hc hcl
        exact hother c (by simp [hc]) (by rw [hg]; exact hcl)

def Path (next : ℕ → ℕ) : List ℕ → Prop
  | a :: b :: l => next a = b ∧ Path next (b :: l)
  | _ => True

theorem Path.next_eq {l m : List ℕ} {a b : ℕ} (h : Path next (l ++ a :: b :: m)) : next a = b := by
  induction l with
  | nil => exact h.1
  | cons c l ih =>
    cases l with
    | nil => exact ih h.2
    | cons d l => exact ih h.2

theorem Path.congr {l : List ℕ} (h : Path next l) (hl : ∀ a ∈ l.dropLast, next' a = next a) :
    Path next' l := by
  induction l with
  | nil => trivial
  | cons a l ih =>
    cases l with
    | nil => trivial
    | cons b l =>
      rw [List.dropLast_cons_cons] at hl
      exact ⟨(hl a (by simp)).trans h.1, ih h.2 (fun c hc => hl c (by simp [hc]))⟩

theorem Path.snoc {l : List ℕ} {z e : ℕ} (h : Path next (l ++ [z]))
    (hl : ∀ a ∈ l, next' a = next a) (hz : next' z = e) : Path next' (l ++ [z] ++ [e]) := by
  induction l with
  | nil => exact ⟨hz, trivial⟩
  | cons a l ih =>
    have hrest := ih (by cases l <;> exact h.2) (fun b hb => hl b (by simp [hb]))
    cases l with
    | nil => exact ⟨(hl a (by simp)).trans h.1, hrest⟩
    | cons b l => exact ⟨(hl a (by simp)).trans h.1, hrest⟩

theorem Path.chain {l : List ℕ} {z : ℕ} (h : Path next (l ++ [z])) (hz : next z = stop)
    (hstop : ∀ a ∈ (l ++ [z]).tail, a ≠ stop) : Chain next stop (l ++ [z]) := by
  induction l with
  | nil => exact hz
  | cons a l ih =>
    have hrest := ih (by cases l <;> exact h.2) (fun b hb => hstop b (List.mem_of_mem_tail hb))
    cases l with
    | nil => exact ⟨h.1, hstop z (by simp), hrest⟩
    | cons b l => exact ⟨h.1, hstop b (by simp), hrest⟩

variable {pass pass' goal goal' : ℕ → Prop} {o : ℕ}

/-- From the node, over nodes that may be passed, the successors lead to a goal. -/
inductive Leads (pass : ℕ → Prop) (next : ℕ → ℕ) (goal : ℕ → Prop) : ℕ → Prop where
  | here {o : ℕ} (h : goal o) : Leads pass next goal o
  | step {o : ℕ} (h : pass o) (hl : Leads pass next goal (next o)) : Leads pass next goal o

theorem Leads.mono (h : Leads pass next goal o) (hp : ∀ o, pass o → pass' o)
    (hg : ∀ o, goal o → goal' o) :
    Leads pass' next goal' o := by
  induction h with
  | here h => exact .here (hg _ h)
  | step h _ ih => exact .step (hp _ h) ih

/-- The first goal decides: behind a node that may not be passed there is none. -/
theorem Leads.disjoint (h : Leads pass next goal o) (hg : ∀ o, goal o → ¬goal' o ∧ ¬pass' o)
    (hp : ∀ o, pass o → ¬goal' o) : ¬Leads pass' next goal' o := by
  induction h with
  | here h =>
    intro h'
    cases h' with
    | here hh => exact (hg _ h).1 hh
    | step hh _ => exact (hg _ h).2 hh
  | step h _ ih =>
    intro h'
    cases h' with
    | here hh => exact hp _ h hh
    | step _ hl => exact ih hl

theorem not_leads_of_fixed (hn : next o = o) (hg : ¬goal o) : ¬Leads pass next goal o := by
  intro h
  have hfixed : ∀ a, Leads pass next goal a → a ≠ o := by
    intro a ha
    induction ha with
    | here hh =>
      rintro rfl
      exact hg hh
    | step _ _ ih =>
      rintro rfl
      exact ih hn
  exact hfixed o h rfl

end DevOs.Chains
