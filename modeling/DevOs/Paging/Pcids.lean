import DevOs.Paging.Model
import Mathlib.Data.Finset.Card

/-!
# Owners of process context identifiers

`ProcessContextIdAllocate` sets a token and puts its number into the low bits of the page map, next
to what is there already, and `ProcessContextIdFree` reads the number back and leaves it there. So a
second allocation mixes two numbers, and a second call of `ProcessContextIdFree` takes the token of
another process. Apart from this the tokens are those of the processes that hold them.
-/

namespace DevOs.Paging

/-- The list of tokens, whether the processor has identifiers, the page map of each process, and
which processes hold an identifier: those whose last call that succeeded was
`ProcessContextIdAllocate`. No call reads this. -/
structure Pcids where
  list : PcidList
  processContextIdSupported : Bool
  pageMap : ℕ → ℕ
  holds : ℕ → Bool

def Pcids.tag (s : Pcids) (p : ℕ) : ℕ := s.pageMap p &&& 0xFFF

/-- `ProcessContextIdFree`: the list and the result. -/
def processContextIdFree (supported : Bool) (l : PcidList) (pageMap : ℕ) : PcidList × Bool :=
  if !supported || pageMap &&& 0xFFF == 0 then (l, false)
  else
    let pcId := (pageMap &&& 0xFFF) - 1
    ({ l with
        tokens := Function.update l.tokens pcId false
        numProcessContextIdentifiers := (l.numProcessContextIdentifiers + (2 ^ 32 - 1)) % 2 ^ 32
        processContextIdEnabled := l.processContextIdEnabled || supported }, true)

/-- A call for a process, or for `NULL`. -/
inductive PcidCall where
  | allocate (process : Option ℕ)
  | free (process : Option ℕ)
deriving DecidableEq, Repr

def Pcids.call (s : Pcids) : PcidCall → Pcids
  | .allocate none | .free none => s
  | .allocate (some p) =>
    let (list, pageMap, result) := processContextIdAllocate s.list (s.pageMap p)
    { s with
      list
      pageMap := Function.update s.pageMap p pageMap
      holds := if result then Function.update s.holds p true else s.holds }
  | .free (some p) =>
    let (list, result) := processContextIdFree s.processContextIdSupported s.list (s.pageMap p)
    { s with
      list
      holds := if result then Function.update s.holds p false else s.holds }

def Pcids.states (s : Pcids) : List PcidCall → List Pcids
  | [] => [s]
  | c :: cs => s :: (s.call c).states cs

/-- No process holds an identifier, and the page maps are aligned. -/
structure Pcids.Initial (s : Pcids) : Prop where
  tokens : ∀ i, s.list.tokens i = false
  count : s.list.numProcessContextIdentifiers = 0
  aligned : ∀ p, s.pageMap p % 0x1000 = 0
  holds : ∀ p, s.holds p = false

def Pcids.set (s : Pcids) : Finset ℕ :=
  (Finset.range maxPcid).filter fun i => s.list.tokens i = true

/-- The tags of the holders are distinct, the set tokens are theirs and are counted, and the page
maps have their addresses. -/
structure Pcids.Sound (maps : ℕ → ℕ) (s : Pcids) : Prop where
  range : ∀ p, s.holds p = true → 1 ≤ s.tag p ∧ s.tag p ≤ 0xFFF
  distinct : ∀ p q, s.holds p = true → s.holds q = true → s.tag p = s.tag q → p = q
  tokens : ∀ i < maxPcid, s.list.tokens i = true ↔ ∃ p, s.holds p = true ∧ s.tag p = i + 1
  count : s.list.numProcessContextIdentifiers = s.set.card
  address : ∀ p, s.pageMap p / 0x1000 = maps p / 0x1000

/-- The first token that is not set, when `ProcessContextIdAllocate` looks for one. -/
def Pcids.offered (s : Pcids) : Option ℕ :=
  if s.list.processContextIdEnabled && s.list.numProcessContextIdentifiers != maxPcid then
    (List.range maxPcid).find? fun i => !s.list.tokens i
  else none

/-- An identifier goes to a process that holds none and whose page map has no bits outside its
number, and is given back by a process that holds it. -/
def Pcids.Allowed (s : Pcids) : PcidCall → Prop
  | .allocate none | .free none => True
  | .allocate (some p) => ∀ i, s.offered = some i → s.holds p = false ∧ s.tag p ||| (i + 1) = i + 1
  | .free (some p) => s.processContextIdSupported = true → s.tag p ≠ 0 → s.holds p = true

def Pcids.AllowedRun (s : Pcids) : List PcidCall → Prop
  | [] => True
  | c :: cs => s.Allowed c ∧ (s.call c).AllowedRun cs

namespace Pcids

variable {s : Pcids} {maps : ℕ → ℕ} {p i : ℕ} {c : PcidCall}

theorem tag_lt (s : Pcids) (p : ℕ) : s.tag p < 2 ^ 12 := by
  rw [tag, show 0xFFF = 2 ^ 12 - 1 from rfl, Nat.and_two_pow_sub_one_eq_mod]
  exact Nat.mod_lt _ (by decide)

theorem offered_some (h : s.offered = some i) : i < maxPcid ∧ s.list.tokens i = false := by
  rw [offered] at h
  split_ifs at h
  exact ⟨List.mem_range.mp (List.mem_of_find?_eq_some h), by simpa using List.find?_some h⟩

/-- `ProcessContextIdAllocate` gives out the token that is offered, and otherwise can only switch
the identifiers off. -/
theorem call_allocate (s : Pcids) (p : ℕ) :
    (∃ i, s.offered = some i ∧ s.call (.allocate (some p)) =
      { s with
        list := { s.list with
          tokens := Function.update s.list.tokens i true
          numProcessContextIdentifiers := (s.list.numProcessContextIdentifiers + 1) % 2 ^ 32 }
        pageMap := Function.update s.pageMap p (s.pageMap p ||| (i + 1))
        holds := Function.update s.holds p true }) ∨
    (s.offered = none ∧ ∃ enabled, s.call (.allocate (some p)) =
      { s with list := { s.list with processContextIdEnabled := enabled } }) := by
  obtain ⟨⟨tokens, count, enabled⟩, supported, maps, holds⟩ := s
  cases enabled with
  | false =>
    right
    refine ⟨by simp [offered], false, ?_⟩
    simp [call, processContextIdAllocate, Function.update_eq_self]
  | true =>
    by_cases hfull : count = maxPcid
    · right
      refine ⟨by simp [offered, hfull], false, ?_⟩
      simp [call, processContextIdAllocate, hfull, Function.update_eq_self]
    · cases hfind : (List.range maxPcid).find? fun i => !tokens i with
      | none =>
        right
        refine ⟨by simp [offered, hfull, hfind], true, ?_⟩
        simp [call, processContextIdAllocate, hfull, hfind, Function.update_eq_self]
      | some i =>
        left
        refine ⟨i, by simp [offered, hfull, hfind], ?_⟩
        simp [call, processContextIdAllocate, hfull, hfind]

theorem call_free (s : Pcids) (p : ℕ) :
    (s.processContextIdSupported = true ∧ s.tag p ≠ 0 ∧ ∃ enabled, s.call (.free (some p)) =
      { s with
        list := { s.list with
          tokens := Function.update s.list.tokens (s.tag p - 1) false
          numProcessContextIdentifiers :=
  (s.list.numProcessContextIdentifiers + (2 ^ 32 - 1)) % 2 ^ 32
          processContextIdEnabled := enabled }
        holds := Function.update s.holds p false }) ∨
    ((s.processContextIdSupported = true → s.tag p = 0) ∧ s.call (.free (some p)) = s) := by
  obtain ⟨⟨tokens, count, enabled⟩, supported, maps, holds⟩ := s
  cases supported with
  | false =>
      exact Or.inr ⟨fun h => absurd h Bool.false_ne_true, by simp [call, processContextIdFree]⟩
  | true =>
    by_cases htag : maps p &&& 0xFFF = 0
    · exact Or.inr ⟨fun _ => htag, by simp [call, processContextIdFree, htag]⟩
    · exact Or.inl ⟨rfl, htag, enabled || true, by simp [call, processContextIdFree, htag, tag]⟩

theorem tag_or (m : ℕ) {k : ℕ} (hk : k < 2 ^ 12) : (m ||| k) &&& 0xFFF = m &&& 0xFFF ||| k := by
  have hlow : k &&& 0xFFF = k := by
    rw [show 0xFFF = 2 ^ 12 - 1 from rfl, Nat.and_two_pow_sub_one_eq_mod, Nat.mod_eq_of_lt hk]
  rw [Nat.and_or_distrib_right, hlow]

theorem address_or (m : ℕ) {k : ℕ} (hk : k < 2 ^ 12) : (m ||| k) / 0x1000 = m / 0x1000 := by
  have hzero : k >>> 12 = 0 := Nat.shiftRight_eq_zero k 12 hk
  rw [show 0x1000 = 2 ^ 12 from rfl, ← Nat.shiftRight_eq_div_pow, ← Nat.shiftRight_eq_div_pow,
    Nat.shiftRight_or_distrib, hzero, Nat.or_zero]

theorem mem_set : i ∈ s.set ↔ i < maxPcid ∧ s.list.tokens i = true := by
  rw [set, Finset.mem_filter, Finset.mem_range]

theorem card_set_le (s : Pcids) : s.set.card ≤ maxPcid := by
  have h := Finset.card_filter_le (Finset.range maxPcid) fun i => s.list.tokens i = true
  rwa [Finset.card_range] at h

/-- The state in which the process `p` got the token `i`. -/
def given (s : Pcids) (p i : ℕ) : Pcids :=
  { s with
    list := { s.list with
      tokens := Function.update s.list.tokens i true
      numProcessContextIdentifiers := (s.list.numProcessContextIdentifiers + 1) % 2 ^ 32 }
    pageMap := Function.update s.pageMap p (s.pageMap p ||| (i + 1))
    holds := Function.update s.holds p true }

/-- The state in which the process `p` gave back the token of its number. -/
def taken (s : Pcids) (p : ℕ) (enabled : Bool) : Pcids :=
  { s with
    list := { s.list with
      tokens := Function.update s.list.tokens (s.tag p - 1) false
      numProcessContextIdentifiers := (s.list.numProcessContextIdentifiers + (2 ^ 32 - 1)) % 2 ^ 32
      processContextIdEnabled := enabled }
    holds := Function.update s.holds p false }

theorem tag_given (s : Pcids) {q : ℕ} (hi : i < maxPcid) :
    (s.given p i).tag q = if q = p then s.tag p ||| (i + 1) else s.tag q := by
  rw [tag, given]
  dsimp only
  rw [Function.update_apply]
  split_ifs
  · exact tag_or _ (Nat.lt_succ_of_le (Nat.succ_le_of_lt hi))
  · rfl

theorem holds_given (s : Pcids) (q : ℕ) :
    (s.given p i).holds q = if q = p then true else s.holds q :=
  Function.update_apply _ _ _ _

theorem tokens_given (s : Pcids) (j : ℕ) :
    (s.given p i).list.tokens j = if j = i then true else s.list.tokens j :=
  Function.update_apply _ _ _ _

theorem holds_taken (s : Pcids) (enabled : Bool) (q : ℕ) :
    (s.taken p enabled).holds q = if q = p then false else s.holds q :=
  Function.update_apply _ _ _ _

theorem tokens_taken (s : Pcids) (enabled : Bool) (j : ℕ) :
    (s.taken p enabled).list.tokens j = if j = s.tag p - 1 then false else s.list.tokens j :=
  Function.update_apply _ _ _ _

theorem set_given (s : Pcids) (hi : i < maxPcid) : (s.given p i).set = insert i s.set := by
  ext j
  rw [mem_set, Finset.mem_insert, mem_set, tokens_given]
  split_ifs with hj
  · simp [hj, hi]
  · simp [hj]

theorem set_taken (s : Pcids) (enabled : Bool) :
    (s.taken p enabled).set = s.set.erase (s.tag p - 1) := by
  ext j
  rw [mem_set, Finset.mem_erase, mem_set, tokens_taken]
  split_ifs with hj
  · simp [hj]
  · simp [hj]

theorem Sound.token (h : Sound maps s) (hp : s.holds p = true) :
    s.tag p - 1 < maxPcid ∧ s.list.tokens (s.tag p - 1) = true := by
  obtain ⟨hone, hmax⟩ := h.range p hp
  have hlt : s.tag p - 1 < maxPcid := by
    rw [maxPcid]
    omega
  exact ⟨hlt, (h.tokens _ hlt).mpr ⟨p, hp, by omega⟩⟩

theorem Sound.tag_ne (h : Sound maps s) (hi : i < maxPcid) (hclear : s.list.tokens i = false)
    (hp : s.holds p = true) : s.tag p ≠ i + 1 := by
  intro htag
  have hset := (h.tokens i hi).mpr ⟨p, hp, htag⟩
  rw [hclear] at hset
  cases hset

/-- A token that leaves the state sound goes to a process that holds none, and its number is all
that is in the page map afterwards. -/
theorem of_sound_given (h : Sound maps s) (hi : i < maxPcid) (hclear : s.list.tokens i = false)
    (ht : Sound maps (s.given p i)) : s.holds p = false ∧ s.tag p ||| (i + 1) = i + 1 := by
  have htag : s.tag p ||| (i + 1) = i + 1 := by
    obtain ⟨q, hq, htag⟩ := (ht.tokens i hi).mp (by rw [tokens_given, if_pos rfl])
    rw [holds_given] at hq
    rw [tag_given s hi] at htag
    split_ifs at hq htag with hqp
    · exact htag
    · exact absurd htag (h.tag_ne hi hclear hq)
  refine ⟨?_, htag⟩
  by_contra hholds
  have hp : s.holds p = true := by simpa using hholds
  obtain ⟨hlt, hset⟩ := h.token hp
  have hne : s.tag p - 1 ≠ i := by
    intro heq
    rw [heq, hclear] at hset
    cases hset
  obtain ⟨q, hq, hqtag⟩ := (ht.tokens _ hlt).mp (by rw [tokens_given, if_neg hne, hset])
  have hone := (h.range p hp).1
  rw [holds_given] at hq
  rw [tag_given s hi] at hqtag
  split_ifs at hq hqtag with hqp
  · omega
  · exact hqp (h.distinct q p hq hp (by omega))

theorem sound_given (h : Sound maps s) (hi : i < maxPcid) (hclear : s.list.tokens i = false)
    (hp : s.holds p = false) (htag : s.tag p ||| (i + 1) = i + 1) : Sound maps (s.given p i) := by
  have hnew (q : ℕ) (hq : (s.given p i).holds q = true) :
      q = p ∧ (s.given p i).tag q = i + 1 ∨ q ≠ p ∧ s.holds q = true ∧
      (s.given p i).tag q = s.tag q := by
    rw [holds_given] at hq
    rw [tag_given s hi]
    split_ifs at hq ⊢ with hqp
    · exact Or.inl ⟨hqp, htag⟩
    · exact Or.inr ⟨hqp, hq, rfl⟩
  refine ⟨fun q hq => ?_, fun q r hq hr heq => ?_, fun j hj => ?_, ?_, fun q => ?_⟩
  · rcases hnew q hq with ⟨-, hqt⟩ | ⟨-, hqs, hqt⟩
    · rw [hqt]
      exact ⟨Nat.succ_pos i, hi⟩
    · rw [hqt]
      exact h.range q hqs
  · rcases hnew q hq with ⟨hqp, hqt⟩ | ⟨hqp, hqs, hqt⟩ <;>
      rcases hnew r hr with ⟨hrp, hrt⟩ | ⟨hrp, hrs, hrt⟩
    · rw [hqp, hrp]
    · exact absurd (by rw [← hrt, ← heq, hqt]) (h.tag_ne hi hclear hrs)
    · exact absurd (by rw [← hqt, heq, hrt]) (h.tag_ne hi hclear hqs)
    · exact h.distinct q r hqs hrs (by rw [← hqt, heq, hrt])
  · rw [tokens_given]
    split_ifs with hji
    · refine ⟨fun _ => ⟨p, by rw [holds_given, if_pos rfl], ?_⟩, fun _ => rfl⟩
      rw [tag_given s hi, if_pos rfl, htag, hji]
    · rw [h.tokens j hj]
      constructor
      · rintro ⟨q, hq, hqt⟩
        have hqp : q ≠ p := by
          rintro rfl
          rw [hp] at hq
          cases hq
        exact ⟨q, by rw [holds_given, if_neg hqp, hq], by rw [tag_given s hi, if_neg hqp, hqt]⟩
      · rintro ⟨q, hq, hqt⟩
        rcases hnew q hq with ⟨-, hqi⟩ | ⟨-, hqs, hqi⟩
        · omega
        · exact ⟨q, hqs, by rw [← hqi, hqt]⟩
  · have hcard := s.card_set_le
    have hnot : i ∉ s.set := fun hmem => by
      rw [mem_set, hclear] at hmem
      cases hmem.2
    rw [set_given s hi, Finset.card_insert_of_notMem hnot, given, h.count]
    rw [maxPcid] at hcard
    exact Nat.mod_eq_of_lt (by omega)
  · change Function.update s.pageMap p (s.pageMap p ||| (i + 1)) q / 0x1000 = maps q / 0x1000
    rw [Function.update_apply]
    split_ifs with hqp
    · rw [address_or _ (Nat.lt_succ_of_le (Nat.succ_le_of_lt hi)), hqp, h.address]
    · exact h.address q

theorem sound_given_iff (h : Sound maps s) (hi : i < maxPcid) (hclear : s.list.tokens i = false) :
    Sound maps (s.given p i) ↔ s.holds p = false ∧ s.tag p ||| (i + 1) = i + 1 :=
  ⟨of_sound_given h hi hclear, fun hp => sound_given h hi hclear hp.1 hp.2⟩

theorem sound_taken_iff (h : Sound maps s) (htag : s.tag p ≠ 0) (enabled : Bool) :
    Sound maps (s.taken p enabled) ↔ s.holds p = true := by
  have hlt : s.tag p - 1 < maxPcid := by
    have := s.tag_lt p
    rw [maxPcid]
    omega
  have hcard := s.card_set_le
  constructor
  · intro ht
    by_contra hp
    cases hset : s.list.tokens (s.tag p - 1) with
    | true =>
      obtain ⟨q, hq, hqt⟩ := (h.tokens _ hlt).mp hset
      have hqp : q ≠ p := by
        rintro rfl
        exact hp hq
      have hcleared := (ht.tokens _ hlt).mpr ⟨q, by rw [holds_taken, if_neg hqp, hq], hqt⟩
      rw [tokens_taken, if_pos rfl] at hcleared
      cases hcleared
    | false =>
      have hcount := ht.count
      have hnot : s.tag p - 1 ∉ s.set := fun hmem => by
        rw [mem_set, hset] at hmem
        cases hmem.2
      rw [set_taken, Finset.erase_eq_of_notMem hnot, taken, h.count] at hcount
      dsimp only at hcount
      rw [maxPcid] at hcard
      omega
  · intro hp
    have hmem : s.tag p - 1 ∈ s.set := mem_set.mpr (h.token hp)
    have hold (q : ℕ) (hq : (s.taken p enabled).holds q = true) : q ≠ p ∧ s.holds q = true := by
      rw [holds_taken] at hq
      split_ifs at hq with hqp
      exact ⟨hqp, hq⟩
    refine ⟨fun q hq => h.range q (hold q hq).2,
      fun q r hq hr => h.distinct q r (hold q hq).2 (hold r hr).2, fun j hj => ?_, ?_, h.address⟩
    · rw [tokens_taken]
      split_ifs with hji
      · refine ⟨fun hfalse => hfalse.elim, ?_⟩
        rintro ⟨q, hq, hqt⟩
        obtain ⟨hqp, hqs⟩ := hold q hq
        have hqtag : s.tag q = j + 1 := hqt
        exact absurd (h.distinct q p hqs hp (by omega)) hqp
      · rw [h.tokens j hj]
        constructor
        · rintro ⟨q, hq, hqt⟩
          have hqp : q ≠ p := by
            rintro rfl
            omega
          exact ⟨q, by rw [holds_taken, if_neg hqp, hq], hqt⟩
        · rintro ⟨q, hq, hqt⟩
          exact ⟨q, (hold q hq).2, hqt⟩
    · have hpos := Finset.card_pos.mpr ⟨_, hmem⟩
      rw [set_taken, Finset.card_erase_of_mem hmem, taken, h.count]
      dsimp only
      rw [maxPcid] at hcard
      omega

theorem Sound.enable (h : Sound maps s) (enabled : Bool) :
    Sound maps { s with list := { s.list with processContextIdEnabled := enabled } } :=
  ⟨h.range, h.distinct, h.tokens, h.count, h.address⟩

theorem sound_call_iff (h : Sound maps s) (c : PcidCall) : Sound maps (s.call c) ↔ s.Allowed c := by
  cases c with
  | allocate process =>
    cases process with
    | none => exact ⟨fun _ => trivial, fun _ => h⟩
    | some p =>
      rcases s.call_allocate p with ⟨i, hoffered, hcall⟩ | ⟨hoffered, enabled, hcall⟩
      · obtain ⟨hi, hclear⟩ := offered_some hoffered
        rw [hcall, ← given, sound_given_iff h hi hclear, Allowed]
        constructor
        · intro hallowed j hj
          obtain rfl := Option.some.inj (hoffered.symm.trans hj)
          exact hallowed
        · intro hallowed
          exact hallowed i hoffered
      · rw [hcall, Allowed]
        refine ⟨fun _ i hi => ?_, fun _ => h.enable enabled⟩
        rw [hoffered] at hi
        cases hi
  | free process =>
    cases process with
    | none => exact ⟨fun _ => trivial, fun _ => h⟩
    | some p =>
      rcases s.call_free p with ⟨hsupported, htag, enabled, hcall⟩ | ⟨htag, hcall⟩
      · rw [hcall, ← taken, sound_taken_iff h htag, Allowed]
        exact ⟨fun hp _ _ => hp, fun hp => hp hsupported htag⟩
      · rw [hcall, Allowed]
        exact ⟨fun _ hsupported hne => absurd (htag hsupported) hne, fun _ => h⟩

theorem Initial.sound (h : s.Initial) : Sound s.pageMap s := by
  have hset : s.set = ∅ := by
    rw [set, Finset.filter_eq_empty_iff]
    intro i _
    rw [h.tokens i]
    exact Bool.false_ne_true
  have hnobody (p : ℕ) : s.holds p ≠ true := by
    rw [h.holds p]
    exact Bool.false_ne_true
  refine ⟨fun p hp => absurd hp (hnobody p), fun p _ hp => absurd hp (hnobody p), fun i _ => ?_, ?_,
    fun _ => rfl⟩
  · rw [h.tokens i]
    exact ⟨fun hfalse => absurd hfalse Bool.false_ne_true, fun ⟨p, hp, _⟩ => absurd hp (hnobody p)⟩
  · rw [hset, h.count]
    rfl

theorem sound_states_iff (h : Sound maps s) (calls : List PcidCall) :
    (∀ t ∈ s.states calls, Sound maps t) ↔ s.AllowedRun calls := by
  induction calls generalizing s with
  | nil =>
    refine ⟨fun _ => trivial, fun _ t ht => ?_⟩
    rw [List.mem_singleton.mp ht]
    exact h
  | cons c calls ih =>
    rw [states, AllowedRun, List.forall_mem_cons, ← sound_call_iff h c]
    constructor
    · rintro ⟨-, hall⟩
      have hnext : Sound maps (s.call c) := by
        apply hall
        cases calls with
        | nil => exact List.mem_singleton_self _
        | cons => exact List.mem_cons_self
      exact ⟨hnext, (ih hnext).mp hall⟩
    · rintro ⟨hnext, hrun⟩
      exact ⟨h, (ih hnext).mpr hrun⟩

end Pcids

/-- In the run of any calls every state is sound exactly when every call is allowed. -/
theorem pcids_sound_iff (s : Pcids) (h : s.Initial) (calls : List PcidCall) :
    (∀ t ∈ s.states calls, t.Sound s.pageMap) ↔ s.AllowedRun calls :=
  Pcids.sound_states_iff h.sound calls

/-- Identifiers that are switched on, and page maps at multiples of a page. -/
def newPcids : Pcids := ⟨⟨fun _ => false, 0, true⟩, true, fun p => 0x1000 * p, fun _ => false⟩

theorem newPcids_initial : newPcids.Initial := by
  refine ⟨fun _ => rfl, rfl, fun p => Nat.mul_mod_right 0x1000 p, fun _ => rfl⟩

theorem two_processes_sound :
    newPcids.AllowedRun [.allocate (some 1), .allocate (some 2), .free (some 1)] ∧
    ∀ t ∈ newPcids.states [.allocate (some 1), .allocate (some 2), .free (some 1)],
    t.Sound newPcids.pageMap := by
  have hfirst : newPcids.offered = some 0 := by decide +kernel
  have hsecond : (newPcids.call (.allocate (some 1))).offered = some 1 := by decide +kernel
  have hallowed : newPcids.AllowedRun [.allocate (some 1), .allocate (some 2), .free (some 1)] := by
    refine ⟨fun i hi => ?_, fun i hi => ?_, fun _ _ => ?_, trivial⟩
    · obtain rfl := Option.some.inj (hfirst.symm.trans hi)
      exact ⟨rfl, by decide⟩
    · obtain rfl := Option.some.inj (hsecond.symm.trans hi)
      exact ⟨by decide +kernel, by decide +kernel⟩
    · decide +kernel
  exact ⟨hallowed, (pcids_sound_iff newPcids newPcids_initial _).mpr hallowed⟩

/-- Two calls for one process: it gets the tokens 1 and 2 and has the number 3, which the next
process gets, too. -/
theorem second_allocation_mixes :
    let s := ((newPcids.call (.allocate (some 1))).call (.allocate (some 1))).call
      (.allocate (some 2))
    s.tag 1 = 3 ∧ s.tag 2 = 3 ∧ s.holds 1 = true ∧ s.holds 2 = true ∧
      ¬ ∀ t ∈ newPcids.states [.allocate (some 1), .allocate (some 1), .allocate (some 2)],
        t.Sound newPcids.pageMap := by
  have h1 : (((newPcids.call (.allocate (some 1))).call (.allocate (some 1))).call
    (.allocate (some 2))).tag 1 =
      3 := by decide +kernel
  have h2 : (((newPcids.call (.allocate (some 1))).call (.allocate (some 1))).call
    (.allocate (some 2))).tag 2 =
      3 := by decide +kernel
  have hold1 : (((newPcids.call (.allocate (some 1))).call (.allocate (some 1))).call
      (.allocate (some 2))).holds 1 = true := by decide +kernel
  have hold2 : (((newPcids.call (.allocate (some 1))).call (.allocate (some 1))).call
      (.allocate (some 2))).holds 2 = true := by decide +kernel
  refine ⟨h1, h2, hold1, hold2, fun hall => ?_⟩
  have hlast :=
    hall (((newPcids.call (.allocate (some 1))).call (.allocate (some 1))).call
      (.allocate (some 2)))
    (by simp [Pcids.states])
  exact absurd (hlast.distinct 1 2 hold1 hold2 (h1.trans h2.symm)) (by decide)

end DevOs.Paging
