import DevOs.Files.Model
import DevOs.Lib.Pieces

/-!
# Spellings of a path

The components of a path are its pieces between separators. `FixFilePath` joins them by one `/`
each, and leaves a separator out at the end when there is one: with two or more there the first of
them is kept, so that the result is another path than that of the same components without them.
-/

namespace DevOs.Files

open Pieces

variable {path other run : List ℕ}

def components (path : List ℕ) : List (List ℕ) := pieces isSeparator path

def normalPath (path : List ℕ) : List ℕ := [0x2F].intercalate (components path)

def trailing (path : List ℕ) : ℕ := (path.reverse.takeWhile isSeparator).length

def EndsOnce (path : List ℕ) : Prop := components path ≠ [] → trailing path ≤ 1

instance (path : List ℕ) : Decidable (EndsOnce path) := inferInstanceAs (Decidable (_ → _))

def kept (path : List ℕ) : List ℕ := if EndsOnce path then [] else [0x2F]

theorem isSeparator_slash : isSeparator 0x2F = true := rfl

theorem normalPath_run_cons {c : ℕ} {cs : List ℕ} (hrun : run ≠ [])
    (h : ∀ x ∈ run, isSeparator x = false) (hc : isSeparator c = true) :
    normalPath (run ++ c :: cs) = if components cs = [] then run
      else run ++ 0x2F :: normalPath cs := by
  have hcomponents : components (run ++ c :: cs) = run :: components cs :=
    pieces_run_cons hrun h hc cs
  rw [normalPath, hcomponents, normalPath]
  cases hcs : components cs with
  | nil => rw [List.intercalate_singleton, if_pos rfl]
  | cons b bs =>
    rw [List.intercalate_cons_cons, if_neg (List.cons_ne_nil b bs), List.append_assoc,
      List.singleton_append]

theorem trailing_of_components_nil {c : ℕ} {cs : List ℕ} (h : ∀ x ∈ run, isSeparator x = false)
    (hrun : run ≠ []) (hc : isSeparator c = true) (hcs : components cs = []) :
    trailing (run ++ c :: cs) = cs.length + 1 := by
  have hall : ∀ x ∈ (c :: cs).reverse, isSeparator x = true := by
    intro x hx
    rcases List.mem_cons.mp (List.mem_reverse.mp hx) with rfl | hx
    · exact hc
    · by_contra hsep
      exact pieces_ne_nil_iff.mpr ⟨x, hx, by simpa using hsep⟩ hcs
  obtain ⟨front, last, hlast⟩ := List.eq_nil_or_concat' run |>.resolve_left hrun
  have hstop : isSeparator last = false := h last (by rw [hlast]; simp)
  rw [trailing, List.reverse_append, List.takeWhile_append, List.takeWhile_eq_self_iff.mpr hall,
    if_pos rfl, hlast, List.reverse_append, List.reverse_singleton, List.singleton_append,
    List.takeWhile_cons_of_neg (by rw [hstop]; exact Bool.false_ne_true), List.append_nil,
      List.length_reverse,
    List.length_cons]

theorem trailing_append {cs : List ℕ} (h : components cs ≠ []) (front : List ℕ) :
    trailing (front ++ cs) = trailing cs := by
  have hstop : (cs.reverse.takeWhile isSeparator).length ≠ cs.reverse.length := by
    intro hlen
    have hself := (List.takeWhile_prefix isSeparator (l := cs.reverse)).eq_of_length hlen
    obtain ⟨x, hx, hsep⟩ := pieces_ne_nil_iff.mp h
    have htrue := List.takeWhile_eq_self_iff.mp hself x (List.mem_reverse.mpr hx)
    rw [hsep] at htrue
    cases htrue
  rw [trailing, List.reverse_append, List.takeWhile_append, if_neg hstop, trailing]

theorem kept_run_cons {c : ℕ} {cs : List ℕ} (hrun : run ≠ []) (h : ∀ x ∈ run, isSeparator x = false)
    (hc : isSeparator c = true) :
    kept (run ++ c :: cs) = if components cs = [] then (if cs = [] then [] else [0x2F])
      else kept cs := by
  have hcomponents : components (run ++ c :: cs) = run :: components cs :=
    pieces_run_cons hrun h hc cs
  by_cases hcs : components cs = []
  · have htrailing := trailing_of_components_nil h hrun hc hcs
    have hiff : EndsOnce (run ++ c :: cs) ↔ cs = [] := by
      rw [EndsOnce, hcomponents, htrailing, ← List.length_eq_zero_iff]
      constructor
      · intro hends
        have := hends (List.cons_ne_nil _ _)
        omega
      · intro hlen _
        omega
    rw [kept, if_pos hcs]
    simp only [hiff]
  · have htrailing : trailing (run ++ c :: cs) = trailing cs := by
      rw [List.append_cons, trailing_append hcs]
    have hiff : EndsOnce (run ++ c :: cs) ↔ EndsOnce cs := by
      rw [EndsOnce, EndsOnce, hcomponents, htrailing]
      simp [hcs]
    rw [kept, if_neg hcs, kept]
    simp only [hiff]

theorem kept_of_components_nil (h : components path = []) : kept path = [] :=
  if_pos fun hne => absurd h hne

theorem kept_cons {c : ℕ} {cs : List ℕ} (hc : isSeparator c = true) : kept (c :: cs) = kept cs := by
  have hcomponents : components (c :: cs) = components cs := pieces_cons hc cs
  by_cases hcs : components cs = []
  · rw [kept_of_components_nil hcs, kept_of_components_nil (hcomponents.trans hcs)]
  · have htrailing : trailing (c :: cs) = trailing cs := trailing_append hcs [c]
    have hiff : EndsOnce (c :: cs) ↔ EndsOnce cs := by
      rw [EndsOnce, hcomponents, htrailing, EndsOnce]
    rw [kept, kept]
    simp only [hiff]

/-- The two states of the scan: before a component, and behind the part `run` of one. -/
theorem fixLoop_eq (cs : List ℕ) : fixLoop true cs = normalPath cs ++ kept cs ∧
    ∀ run, run ≠ [] → (∀ x ∈ run, isSeparator x = false) →
      run ++ fixLoop false cs = normalPath (run ++ cs) ++ kept (run ++ cs) := by
  induction cs with
  | nil =>
    refine ⟨by rw [kept_of_components_nil rfl]; rfl, fun run hrun h => ?_⟩
    have hcomponents : components run = [run] := pieces_run hrun h
    have hends : EndsOnce run := by
      intro _
      obtain ⟨front, last, hlast⟩ := List.eq_nil_or_concat' run |>.resolve_left hrun
      have hstop : isSeparator last = false := h last (by rw [hlast]; simp)
      rw [trailing, hlast, List.reverse_append, List.reverse_singleton, List.singleton_append,
        List.takeWhile_cons_of_neg (by rw [hstop]; exact Bool.false_ne_true)]
      exact Nat.zero_le 1
    rw [List.append_nil, normalPath, hcomponents, List.intercalate_singleton, kept, if_pos hends,
      fixLoop]
  | cons c cs ih =>
    obtain ⟨ihtrue, ihfalse⟩ := ih
    cases hc : isSeparator c with
    | true =>
      constructor
      · have hnormal : normalPath (c :: cs) = normalPath cs := by
          rw [normalPath, components, pieces_cons hc, normalPath, components]
        rw [fixLoop, if_pos hc, ihtrue, hnormal, kept_cons hc]
      · intro run hrun h
        rw [normalPath_run_cons hrun h hc, kept_run_cons hrun h hc, fixLoop, if_pos hc]
        by_cases hnil : cs = []
        · have hcs : components cs = [] := by rw [hnil]; rfl
          rw [if_pos hnil, if_pos hcs, if_pos hcs, if_pos hnil]
        · rw [if_neg hnil, ihtrue]
          by_cases hcs : components cs = []
          · have hnormal : normalPath cs = [] := by rw [normalPath, hcs, List.intercalate_nil]
            rw [if_pos hcs, if_pos hcs, if_neg hnil, hnormal, kept_of_components_nil hcs]
            rfl
          · rw [if_neg hcs, if_neg hcs, List.append_assoc, List.cons_append]
    | false =>
      have hone : ∀ x ∈ [c], isSeparator x = false := by
        intro x hx
        rw [List.mem_singleton.mp hx]
        exact hc
      have hstep (b : Bool) : fixLoop b (c :: cs) = c :: fixLoop false cs := by
        cases b <;> rw [fixLoop, hc] <;> rfl
      constructor
      · rw [hstep]
        exact ihfalse [c] (List.cons_ne_nil c []) hone
      · intro run hrun h
        rw [hstep, List.append_cons, List.append_cons run c cs]
        apply ihfalse
        · simp
        · intro x hx
          rcases List.mem_append.mp hx with hx | hx
          · exact h x hx
          · exact hone x hx

theorem length_fixLoop_le (b : Bool) (cs : List ℕ) : (fixLoop b cs).length ≤ cs.length := by
  induction cs generalizing b with
  | nil => cases b <;> exact Nat.le_refl 0
  | cons c cs ih =>
    have ihtrue := ih true
    have ihfalse := ih false
    cases b with
    | true =>
      rw [fixLoop]
      split_ifs
      · exact Nat.le_succ_of_le ihtrue
      · exact Nat.succ_le_succ ihfalse
    | false =>
      rw [fixLoop]
      split_ifs
      · exact Nat.zero_le _
      · exact Nat.succ_le_succ ihtrue
      · exact Nat.succ_le_succ ihfalse

theorem fixFilePath_eq (path : List ℕ) : fixFilePath path = normalPath path ++ kept path :=
  (fixLoop_eq path).1

theorem components_normalPath (path : List ℕ) : components (normalPath path) = components path :=
  pieces_intercalate isSeparator_slash fun _ h => mem_pieces h

theorem fixFilePath_of_endsOnce (h : EndsOnce path) : fixFilePath path = normalPath path := by
  rw [fixFilePath_eq, kept, if_pos h, List.append_nil]

theorem fixFilePath_ne (h : ¬ EndsOnce path) : fixFilePath path ≠ normalPath path := by
  rw [fixFilePath_eq, kept, if_neg h]
  intro heq
  have hlen := congrArg List.length heq
  rw [List.length_append, List.length_singleton] at hlen
  omega

theorem trailing_normalPath (path : List ℕ) : trailing (normalPath path) = 0 := by
  suffices h : ∀ as : List (List ℕ), (∀ a ∈ as, a ≠ [] ∧ ∀ x ∈ a, isSeparator x = false) →
      trailing ([0x2F].intercalate as) = 0 from h _ fun _ h => mem_pieces h
  intro as h
  induction as with
  | nil => rfl
  | cons a as ih =>
    obtain ⟨ha, hrun⟩ := h a List.mem_cons_self
    have hrest := fun b hb => h b (List.mem_cons_of_mem a hb)
    cases as with
    | nil =>
      obtain ⟨front, last, hlast⟩ := List.eq_nil_or_concat' a |>.resolve_left ha
      have hstop : isSeparator last = false := hrun last (by rw [hlast]; simp)
      rw [List.intercalate_singleton, trailing, hlast, List.reverse_append, List.reverse_singleton,
        List.singleton_append, List.takeWhile_cons_of_neg (by rw [hstop]; exact Bool.false_ne_true)]
      rfl
    | cons b bs =>
      have hne : components ([0x2F].intercalate (b :: bs)) ≠ [] := by
        rw [components, pieces_intercalate isSeparator_slash hrest]
        exact List.cons_ne_nil b bs
      rw [List.intercalate_cons_cons, trailing_append hne, ih hrest]

theorem endsOnce_normalPath (path : List ℕ) : EndsOnce (normalPath path) := by
  intro _
  rw [trailing_normalPath]
  exact Nat.zero_le 1

/-- The path gets its normal form, which stays as it is, and another path with the same components
becomes equal to it and is looked up as the same open file. -/
structure SpelledAlike (path other : List ℕ) : Prop where
  inPlace : (fixFilePath path).length ≤ path.length
  normal : fixFilePath path = normalPath path
  idempotent : fixFilePath (fixFilePath path) = fixFilePath path
  equal : components path = components other → fixFilePath path = fixFilePath other
  found : components path = components other → ∀ list,
    findOpenFilePath list (fixFilePath path) = findOpenFilePath list (fixFilePath other)

/-- This is so exactly when the path has one separator at the end or none, and the other one with
the same components, too. -/
theorem spelledAlike_iff (path other : List ℕ) :
    SpelledAlike path other ↔ EndsOnce path ∧
    (components path = components other → EndsOnce other) := by
  constructor
  · intro h
    have hpath : EndsOnce path := by
      by_contra hends
      exact fixFilePath_ne hends h.normal
    refine ⟨hpath, fun hsame => ?_⟩
    by_contra hends
    have hnormal : normalPath other = normalPath path := by rw [normalPath, normalPath, hsame]
    exact fixFilePath_ne hends (by rw [← h.equal hsame, h.normal, hnormal])
  · rintro ⟨hpath, hother⟩
    have hequal : components path = components other → fixFilePath path = fixFilePath other := by
      intro hsame
      rw [fixFilePath_of_endsOnce hpath, fixFilePath_of_endsOnce (hother hsame), normalPath, hsame,
        normalPath]
    refine ⟨length_fixLoop_le true path, fixFilePath_of_endsOnce hpath, ?_, hequal,
      fun hsame list => by rw [hequal hsame]⟩
    have hagain : normalPath (normalPath path) = normalPath path := by
      rw [normalPath, components_normalPath, ← normalPath]
    rw [fixFilePath_of_endsOnce hpath, fixFilePath_of_endsOnce (endsOnce_normalPath path), hagain]

/-- `a//`: one of the two separators stays, and is taken away by a second call. -/
theorem two_separators_kept :
    fixFilePath [0x61, 0x2F, 0x2F] = [0x61, 0x2F] ∧ normalPath [0x61, 0x2F, 0x2F] = [0x61] ∧
      fixFilePath [0x61, 0x2F] = [0x61] ∧ fixFilePath [0x61] = [0x61] ∧
      ¬ SpelledAlike [0x61, 0x2F, 0x2F] [0x61] := by
  refine ⟨by decide, by decide, by decide, by decide, fun h => ?_⟩
  exact absurd h.normal (by decide)

end DevOs.Files
