import Mathlib.Algebra.Order.Ring.Nat
import Mathlib.Logic.Relation

/-!
# Guarded runs of a partial step function

A system is a partial function `step s a` of a state and an action. A guard says which actions are
allowed in which states. `Reaches step guard s t` holds when `t` is reached from `s` by steps that
all meet the guard, and `guardedRun` computes such a run from a list of actions. Every invariant
that allowed steps keep holds in every state reached. A `watched` run carries a record that every
step writes and none reads.
-/

namespace DevOs.Runs

variable {σ α : Type*} {step : σ → α → Option σ} {guard : σ → α → Prop}

/-- One transition by an action that the guard allows in the state before it. -/
def GuardedStep (step : σ → α → Option σ) (guard : σ → α → Prop) (s t : σ) : Prop :=
  ∃ a, guard s a ∧ step s a = some t

def Reaches (step : σ → α → Option σ) (guard : σ → α → Prop) : σ → σ → Prop :=
  Relation.ReflTransGen (GuardedStep step guard)

def anyStep : σ → α → Prop := fun _ _ => True

instance (s : σ) (a : α) : Decidable (anyStep s a) := inferInstanceAs (Decidable True)

theorem Reaches.refl (s : σ) : Reaches step guard s s := Relation.ReflTransGen.refl

theorem Reaches.head {s s' t : σ} {a : α} (hg : guard s a) (hs : step s a = some s')
    (h : Reaches step guard s' t) : Reaches step guard s t :=
  Relation.ReflTransGen.head ⟨a, hg, hs⟩ h

theorem Reaches.invariant {I : σ → Prop}
    (hstep : ∀ s a t, I s → guard s a → step s a = some t → I t) {s t : σ}
    (h : Reaches step guard s t) (hs : I s) : I t := by
  induction h with
  | refl => exact hs
  | tail _ hst ih =>
    obtain ⟨a, hg, ha⟩ := hst
    exact hstep _ a _ ih hg ha

theorem Reaches.mono {guard' : σ → α → Prop} (hg : ∀ s a, guard s a → guard' s a) {s t : σ}
    (h : Reaches step guard s t) : Reaches step guard' s t := by
  induction h with
  | refl => exact Reaches.refl s
  | tail _ hst ih =>
    obtain ⟨a, ha, hab⟩ := hst
    exact Relation.ReflTransGen.tail ih ⟨a, hg _ a ha, hab⟩

/-- The state after a list of actions, when every one of them is allowed and defined. -/
def guardedRun (step : σ → α → Option σ) (guard : σ → α → Prop) [∀ s a, Decidable (guard s a)] :
    σ → List α → Option σ
  | s, [] => some s
  | s, a :: as => if guard s a then (step s a).bind (fun t => guardedRun step guard t as) else none

theorem reaches_of_guardedRun [∀ s a, Decidable (guard s a)] (as : List α) {s t : σ}
    (h : guardedRun step guard s as = some t) : Reaches step guard s t := by
  induction as generalizing s with
  | nil =>
    cases h
    exact Reaches.refl _
  | cons a as ih =>
    by_cases hg : guard s a
    · rw [guardedRun, if_pos hg, Option.bind_eq_some_iff] at h
      obtain ⟨s', hs, hr⟩ := h
      exact Reaches.head hg hs (ih hr)
    · rw [guardedRun, if_neg hg] at h
      cases h

/-- The step function with a record beside the state, to which each step adds what `note` says. -/
def watched {μ : Type*} (step : σ → α → Option σ) (note : σ → α → μ → μ) (s : σ × μ) (a : α) :
    Option (σ × μ) :=
  (step s.1 a).map fun t => (t, note s.1 a s.2)

theorem watched_eq_some {μ : Type*} {note : σ → α → μ → μ} {s t : σ × μ} {a : α} :
    watched step note s a = some t ↔ step s.1 a = some t.1 ∧ t.2 = note s.1 a s.2 := by
  rw [watched, Option.map_eq_some_iff]
  constructor
  · rintro ⟨u, hu, rfl⟩
    exact ⟨hu, rfl⟩
  · rintro ⟨hu, hn⟩
    exact ⟨t.1, hu, by rw [← hn]⟩

theorem eq_of_map {β : Type*} {run : Option σ} {t : σ} (f : σ → β) (ht : run = some t) {x : β}
    (hx : run.map f = some x) : f t = x := by
  rw [ht] at hx
  exact Option.some.inj hx

end DevOs.Runs
