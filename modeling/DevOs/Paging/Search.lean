import DevOs.Lib.Holes
import DevOs.Paging.Blocks
import DevOs.Paging.Readback

/-!
# Searching block by block

`VirtualFindAvailableMemory` is a search for a hole that advances by the blocks of the tables. A
block is counted as a whole, so the search comes to the end of the block of the last page. The
address of a hole that begins at page `0` is `NULL`, which the search takes for no address: it
remembers the second block instead.
-/

namespace DevOs.Paging

open Bytes Fields Radix Loops Holes

variable {memory : Buffer} {pageTable first last n p q d x f v t : ℕ} {s : Search} {e : Ends}

def addressOf (p : ℕ) : ℕ := if p < 2 ^ 35 then p * 2 ^ 12 else p * 2 ^ 12 + 0xFFFF000000000000

theorem addressOf_zero : addressOf 0 = 0 := rfl

theorem addressOf_pos (hp : 0 < p) : 0 < addressOf p := by
  rw [addressOf]
  split_ifs <;> omega

theorem toVirtAddress48_eq (a b c d : ℕ) :
    toVirtAddress48 a b c d = addressOf (512 * (512 * (512 * a + b) + c) + d) := by
  rw [toVirtAddress48, addressOf]
  split_ifs <;> omega

section Scan

variable (memory pageTable first n)

/-- The page whose address is returned for a hole at `v`. -/
def shown (v : ℕ) : ℕ :=
  if v = 0 then if n ≤ blockEnd memory pageTable 0 then 0 else blockEnd memory pageTable 0 else v

/-- What is known when the search has come to page `p`. -/
structure Scan (p found address : ℕ) : Prop where
  hole : Hole (Free memory pageTable) first n p found
  short : found < n
  none : found = 0 → address = 0
  some : 0 < found → found < p → address = addressOf (p - found)
  zero : 0 < found → found = p → blockEnd memory pageTable 0 ≤ p ∧
    address = if p = blockEnd memory pageTable 0 then 0 else addressOf (blockEnd memory pageTable 0)

variable (last)

/-- An address that the search returns. -/
structure Answer (address v : ℕ) : Prop where
  first : First (Free memory pageTable) first n v
  le_last : v ≤ last
  le_end : v + n ≤ blockEnd memory pageTable last
  eq : address = addressOf (shown memory pageTable n v)

def Returned (address : ℕ) : Prop := ∃ v, Answer memory pageTable first last n address v

/-- The search has come to the page `q`, or to the end of the last block when `q` is behind it. -/
structure Reached (q : ℕ) (s : Search) : Prop where
  scan : Scan memory pageTable
    first n (min q (blockEnd memory pageTable last)) s.foundPages s.virtualAddress
  pdp : s.pdpIndex < 512
  pd : s.pdIndex < 512
  pt : s.ptIndex < 512

end Scan

theorem Scan.init (hn : 0 < n) : Scan memory pageTable first n first 0 0 :=
  ⟨Hole.init _ _ hn, hn, fun _ => rfl, fun h => absurd h (Nat.lt_irrefl 0),
    fun h => absurd h (Nat.lt_irrefl 0)⟩

theorem Scan.reset (h : Scan memory pageTable first n p s.foundPages s.virtualAddress)
    (hp : ¬ Free memory pageTable p) :
    Scan memory pageTable first n (blockEnd memory pageTable p) 0 0 := by
  have hlt := lt_blockEnd memory pageTable p
  have hn := Nat.zero_lt_of_lt h.short
  have hskip := h.hole.skip (b := blockEnd memory pageTable p - p) hn (by
    omega) fun q hq hlt hfree =>
    hp ((free_congr hq (by omega)).mp hfree)
  rw [Nat.add_sub_of_le (Nat.le_of_lt hlt)] at hskip
  exact ⟨hskip, hn, fun _ => rfl, fun h => absurd h (Nat.lt_irrefl 0),
    fun h => absurd h (Nat.lt_irrefl 0)⟩

theorem Scan.address (h : Scan memory pageTable first n p s.foundPages s.virtualAddress) :
    (s.foundPages < p →
      (if s.virtualAddress = 0 then addressOf p else s.virtualAddress) =
        addressOf (p - s.foundPages)) ∧
    (s.foundPages = p → (if s.virtualAddress = 0 then addressOf p else s.virtualAddress) =
      if p = 0 then 0 else addressOf (blockEnd memory pageTable 0)) := by
  rcases Nat.eq_zero_or_pos s.foundPages with hzero | hpos
  · rw [if_pos (h.none hzero), hzero]
    refine ⟨fun _ => rfl, ?_⟩
    rintro rfl
    rfl
  · constructor
    · intro hlt
      have hne := addressOf_pos (Nat.sub_pos_of_lt hlt)
      rw [h.some hpos hlt, if_neg (by omega)]
    · intro heq
      have hb := addressOf_pos (lt_blockEnd memory pageTable 0)
      rw [(h.zero hpos heq).2, if_neg (show p ≠ 0 by omega)]
      by_cases hp : p = blockEnd memory pageTable 0
      · rw [if_pos hp, if_pos rfl, hp]
      · rw [if_neg hp, if_neg (by omega)]

theorem Scan.credit (h : Scan memory pageTable first n p s.foundPages s.virtualAddress)
    (hp : Free memory pageTable p) (hle : p ≤ last) :
    Sum.elim (Returned memory pageTable first last n)
      (fun t => Scan memory pageTable
        first n (blockEnd memory pageTable p) t.foundPages t.virtualAddress ∧
        t.pdpIndex = s.pdpIndex ∧ t.pdIndex = s.pdIndex ∧ t.ptIndex = s.ptIndex)
      (s.credit n (blockEnd memory pageTable p - p) (addressOf p)) := by
  have hlt := lt_blockEnd memory pageTable p
  have hmono := blockEnd_mono memory pageTable hle
  have hsum := Nat.add_sub_of_le (Nat.le_of_lt hlt)
  have hfree : ∀ q, p ≤ q → q < p + (blockEnd memory pageTable p - p) → Free memory pageTable q :=
    fun q hq hlt => (free_congr hq (by omega)).mpr hp
  have hfound := h.hole.le
  have hshort := h.short
  obtain ⟨hlow, hzero⟩ := h.address
  rw [Search.credit]
  dsimp only
  generalize (if s.virtualAddress = 0 then addressOf p else s.virtualAddress) = address at *
  by_cases hge : n ≤ s.foundPages + (blockEnd memory pageTable p - p)
  · rw [if_pos hge, Sum.elim_inl]
    refine ⟨p - s.foundPages, h.hole.fit hfree hge, by omega, by omega, ?_⟩
    rw [shown]
    by_cases hstart : s.foundPages < p
    · rw [if_neg (by omega), hlow hstart]
    · have heq : s.foundPages = p := by omega
      rw [if_pos (by omega), hzero heq]
      rcases Nat.eq_zero_or_pos p with rfl | hpos
      · rw [if_pos rfl, if_pos (by omega), addressOf_zero]
      · have hb := (h.zero (by omega) heq).1
        rw [if_neg (by omega), if_neg (by omega)]
  · have hhole := h.hole.extend hfree (Nat.lt_of_not_le hge)
    rw [if_neg hge, Sum.elim_inr]
    rw [hsum] at hhole
    refine ⟨⟨hhole, Nat.lt_of_not_le hge, fun h => ?_, fun _ hnext => ?_, fun _ hnext => ?_⟩, rfl,
      rfl, rfl⟩
    · dsimp only at h
      omega
    · dsimp only at hnext ⊢
      rw [hlow (by omega)]
      congr 1
      omega
    · dsimp only at hnext ⊢
      have heq : s.foundPages = p := by omega
      rw [hzero heq]
      rcases Nat.eq_zero_or_pos p with rfl | hpos
      · exact ⟨Nat.le_refl _, by rw [if_pos rfl, if_pos rfl]⟩
      · have hb := (h.zero (by omega) heq).1
        exact ⟨by omega, by rw [if_neg (by omega), if_neg (by omega)]⟩

section Levels

variable {k i table : ℕ}

theorem Reached.scan_of_le (h : Reached memory pageTable first last n p s) (hle : p ≤ last) :
    Scan memory pageTable first n p s.foundPages s.virtualAddress := by
  have hscan := h.scan
  rwa [Nat.min_eq_left
    (Nat.le_trans hle (Nat.le_of_lt (lt_blockEnd memory pageTable last)))] at hscan

theorem Reached.credit (h : Reached memory pageTable first last n p s) (hle : p ≤ last)
    (hp : Free memory pageTable p) (hq : blockEnd memory pageTable p = q) :
    Sum.elim (Returned memory pageTable first last n)
      (Reached memory pageTable first last n q) (s.credit n (q - p) (addressOf p)) := by
  subst hq
  refine elim_mono ((h.scan_of_le hle).credit hp hle) fun t ht => ?_
  obtain ⟨hscan, hpdp, hpd, hpt⟩ := ht
  refine ⟨?_, hpdp ▸ h.pdp, hpd ▸ h.pd, hpt ▸ h.pt⟩
  rwa [Nat.min_eq_left (blockEnd_mono memory pageTable hle)]

theorem Reached.reset (h : Reached memory pageTable first last n p s) (hle : p ≤ last)
    (hp : ¬ Free memory pageTable p) (hq : blockEnd memory pageTable p = q) :
    Reached memory pageTable first last n q s.reset := by
  subst hq
  refine ⟨?_, h.pdp, h.pd, h.pt⟩
  rw [Nat.min_eq_left (blockEnd_mono memory pageTable hle)]
  exact (h.scan_of_le hle).reset hp

/-- The table at an address has the entries of the pages whose number begins with `q`. -/
def Leads (memory : Buffer) (pageTable d q table : ℕ) : Prop :=
  ∀ p, p / 2 ^ (9 * (4 - d)) = q →
    Open memory pageTable d p ∧ entryFrom memory pageTable d p = entry memory table (tableIndex d p)

theorem entry_number (hd : d ≤ 3) (hx : x < 512) (hp : p / 2 ^ (9 * (3 - d)) = 512 * q + x) :
    p / 2 ^ (9 * (4 - d)) = q ∧ (tableIndex d p : ℕ) = x := by
  have hsplit : 2 ^ (9 * (4 - d)) = 2 ^ (9 * (3 - d)) * 2 ^ 9 := by
    rw [← Nat.pow_add]
    congr 1
    omega
  constructor
  · rw [hsplit, ← Nat.div_div_eq_div_mul, hp]
    omega
  · change p / 2 ^ (9 * (3 - d)) % 512 = x
    omega

theorem Leads.entry_eq (h : Leads memory pageTable d q table) (hd : d ≤ 3) (hx : x < 512)
    (hp : p / 2 ^ (9 * (3 - d)) = 512 * q + x) :
    Open memory pageTable d p ∧ entryFrom memory pageTable d p = entry memory table x := by
  obtain ⟨hq, hi⟩ := entry_number hd hx hp
  rw [← hi]
  exact h p hq

theorem Leads.next (h : Leads memory pageTable d q table) (hd : d < 3) (hx : x < 512)
    (hnext : nextTable d (entry memory table x) = some f) :
    Leads memory pageTable (d + 1) (512 * q + x) (f * 2 ^ 12) := by
  intro p hp
  rw [show 4 - (d + 1) = 3 - d by omega] at hp
  obtain ⟨hopen, hentry⟩ := h.entry_eq (Nat.le_of_lt hd) hx hp
  constructor
  · intro j hj
    rcases Nat.lt_succ_iff_lt_or_eq.mp hj with hj | rfl
    · exact hopen j hj
    · rw [hentry, hnext]
      exact Option.some_ne_none f
  · rw [entryFrom, hentry, hnext, Option.elim_some]

/-- The loop over the entries of a table. The first entry may be entered in its middle. -/
theorem forRange_reached (size : ℕ) (off : Search → ℕ) {body : ℕ → Search → ℕ ⊕ Search}
    (hbody : ∀ x t, i ≤ x → x ≤ k → size * (512 * q + x) + off t ≤ last →
      Reached memory pageTable first last n (size * (512 * q + x) + off t) t →
      Sum.elim (Returned memory pageTable first last n)
        (fun t' => Reached memory pageTable first last n (size * (512 * q + x + 1)) t' ∧ off t' = 0)
          (body x t))
    (hk : size * (512 * q + k) ≤ last) (hik : i ≤ k) (hpos : size * (512 * q + i) + off s ≤ last)
    (h : Reached memory pageTable first last n (size * (512 * q + i) + off s) s) :
    Sum.elim (Returned memory pageTable first last n)
      (fun t => Reached memory pageTable first last n (size * (512 * q + k + 1)) t ∧ off t = 0)
      (forRange body (k + 1 - i) i s) := by
  have hrun := forRange_rule body (n := k + 1 - i) (i := i) (s := s)
    (Q := Returned memory pageTable first last n)
    (I := fun x t => Reached memory pageTable first last n (size * (512 * q + x) + off t) t ∧
      (off t = 0 ∨ x = i ∧ size * (512 * q + x) + off t ≤ last)) ?_ ⟨h, Or.inr ⟨rfl, hpos⟩⟩
  · refine elim_mono hrun fun t ht => ?_
    obtain ⟨hreached, hoff⟩ := ht
    rw [Nat.add_sub_of_le (by omega)] at hreached hoff
    have hzero : off t = 0 := hoff.resolve_right fun hx => by omega
    rw [hzero, Nat.add_zero, ← Nat.add_assoc] at hreached
    exact ⟨hreached, hzero⟩
  · intro x t hx hlt ht
    obtain ⟨hreached, hoff⟩ := ht
    have hle : size * (512 * q + x) ≤ size * (512 * q + k) := Nat.mul_le_mul_left size (by omega)
    refine elim_mono (hbody x t hx (by omega) (by omega) hreached) fun t' ht' => ?_
    obtain ⟨hreached', hzero⟩ := ht'
    rw [hzero, Nat.add_zero, ← Nat.add_assoc]
    exact ⟨hreached', Or.inl rfl⟩

theorem Reached.close (hd : d ≤ 3)
    (h : Reached memory pageTable first last n (2 ^ (9 * (3 - d)) * (512 * q + k + 1)) s)
    (hk : k = 511 ∨ k < 512 ∧ last / 2 ^ (9 * (3 - d)) = 512 * q + k)
    (hlead : Leads memory pageTable d q table) :
    Reached memory pageTable first last n (2 ^ (9 * (4 - d)) * (q + 1)) s := by
  have hsplit : 2 ^ (9 * (4 - d)) = 2 ^ (9 * (3 - d)) * 512 := by
    rw [show 512 = 2 ^ 9 from rfl, ← Nat.pow_add]
    congr 1
    omega
  rw [hsplit, Nat.mul_assoc, Nat.mul_add 512 q 1]
  rcases hk with rfl | ⟨hk, hlast⟩
  · exact h
  · obtain ⟨hopen, -⟩ := hlead.entry_eq hd hk hlast
    have hend := hopen.blockEnd_le
    rw [hlast, Nat.mul_comm (512 * q + k + 1)] at hend
    have hle : 2 ^ (9 * (3 - d)) * (512 * q + k + 1) ≤ 2 ^ (9 * (3 - d)) * (512 * q + 512 * 1) :=
      Nat.mul_le_mul_left _ (by omega)
    have hscan := h.scan
    rw [Nat.min_eq_right hend] at hscan
    refine ⟨?_, h.pdp, h.pd, h.pt⟩
    rwa [Nat.min_eq_right (Nat.le_trans hend hle)]

def endsOf (last : ℕ) : Ends :=
  ⟨last / 2 ^ 27 % 512, last / 2 ^ 18 % 512, last / 2 ^ 9 % 512, last % 512⟩

variable {a b c : ℕ}

theorem pdpEnd_endsOf (hlast : last < 2 ^ 36) (ha : 512 * a ≤ last / 2 ^ 18) :
    512 * a + (endsOf last).pdpEnd a ≤ last / 2 ^ 18 ∧
      ((endsOf last).pdpEnd a = 511 ∨
        (endsOf last).pdpEnd a < 512 ∧ last / 2 ^ 18 = 512 * a + (endsOf last).pdpEnd a) := by
  rw [Ends.pdpEnd, endsOf]
  dsimp only
  split_ifs <;> omega

theorem pdEnd_endsOf (hlast : last < 2 ^ 36) (hb : b < 512)
    (hab : 512 * (512 * a + b) ≤ last / 2 ^ 9) :
    512 * (512 * a + b) + (endsOf last).pdEnd a b ≤ last / 2 ^ 9 ∧
      ((endsOf last).pdEnd a b = 511 ∨ (endsOf last).pdEnd a b < 512 ∧
        last / 2 ^ 9 = 512 * (512 * a + b) + (endsOf last).pdEnd a b) := by
  have ha : 512 * a ≤ last / 2 ^ 18 := by omega
  obtain ⟨hle, hend⟩ := pdpEnd_endsOf hlast ha
  rw [Ends.pdEnd]
  generalize (endsOf last).pdpEnd a = k at *
  rw [endsOf]
  dsimp only
  split_ifs <;> omega

theorem ptEnd_endsOf (hlast : last < 2 ^ 36) (hb : b < 512) (hc : c < 512)
    (habc : 512 * (512 * (512 * a + b) + c) ≤ last) :
    512 * (512 * (512 * a + b) + c) + (endsOf last).ptEnd a b c ≤ last ∧
      ((endsOf last).ptEnd a b c = 511 ∨ (endsOf last).ptEnd a b c < 512 ∧
        last = 512 * (512 * (512 * a + b) + c) + (endsOf last).ptEnd a b c) := by
  have ha : 512 * a ≤ last / 2 ^ 18 := by omega
  have hab : 512 * (512 * a + b) ≤ last / 2 ^ 9 := by omega
  obtain ⟨hle, hend⟩ := pdpEnd_endsOf hlast ha
  obtain ⟨hle', hend'⟩ := pdEnd_endsOf hlast hb hab
  rw [Ends.ptEnd]
  generalize (endsOf last).pdpEnd a = k at *
  generalize (endsOf last).pdEnd a b = k' at *
  rw [endsOf]
  dsimp only
  split_ifs <;> omega

theorem searchPt_spec (hlead : Leads memory pageTable 3 (512 * (512 * a + b) + c) table)
    (hx : x < 512) (hle : 512 * (512 * (512 * a + b) + c) + x ≤ last)
    (h : Reached memory pageTable first last n (512 * (512 * (512 * a + b) + c) + x) s) :
    Sum.elim (Returned memory pageTable first last n)
      (Reached memory pageTable first last n (512 * (512 * (512 * a + b) + c) + x + 1))
      (searchPt memory n table a b c x s) := by
  rw [searchPt, toVirtAddress48_eq]
  generalize hq : 512 * (512 * a + b) + c = q at *
  obtain ⟨hopen, hentry⟩ := hlead.entry_eq (p := 512 * q + x) (Nat.le_refl 3) hx (Nat.div_one _)
  have hend : blockEnd memory pageTable (512 * q + x) = 512 * q + x + 1 := by
    rw [hopen.blockEnd_eq (nextTable_leaf _)]
    omega
  have hfree := free_iff_of_table hopen
  rw [hentry] at hfree
  cases hp : present (entry memory table x) with
  | true =>
    rw [if_pos rfl, Sum.elim_inr]
    exact h.reset hle (by simp [hfree, hp]) hend
  | false =>
    rw [if_neg (by decide)]
    have hcredit := h.credit hle (hfree.mpr hp) hend
    rwa [Nat.add_sub_cancel_left] at hcredit

theorem Reached.of_eq (h : Reached memory pageTable first last n p s) {t : Search}
    (hfound : t.foundPages = s.foundPages) (haddress : t.virtualAddress = s.virtualAddress)
    (hpdp : t.pdpIndex < 512) (hpd : t.pdIndex < 512) (hpt : t.ptIndex < 512) :
    Reached memory pageTable first last n p t :=
  ⟨hfound ▸ haddress ▸ h.scan, hpdp, hpd, hpt⟩

theorem searchPd_spec (hlast : last < 2 ^ 36) (hb : b < 512)
    (hlead : Leads memory pageTable 2 (512 * a + b) table) (hx : x < 512)
    (hle : 512 * (512 * (512 * a + b) + x) + s.ptIndex ≤ last)
    (h : Reached memory pageTable first last n (512 * (512 * (512 * a + b) + x) + s.ptIndex) s) :
    Sum.elim (Returned memory pageTable first last n)
      (fun t => Reached memory pageTable
        first last n (512 * (512 * (512 * a + b) + x + 1)) t ∧ t.ptIndex = 0)
      (searchPd memory n (endsOf last) table a b x s) := by
  have hpt := h.pt
  have hdiv : (512 * (512 * (512 * a + b) + x) + s.ptIndex) / 2 ^ 9 = 512 * (512 * a + b) + x := by
    omega
  obtain ⟨hopen, hentry⟩ := hlead.entry_eq (d := 2) (by decide) hx hdiv
  rw [searchPd, toVirtAddress48_eq]
  dsimp only
  cases hnext : nextTable 2 (entry memory table x) with
  | none =>
    rw [← hentry] at hnext
    have hend : blockEnd memory pageTable (512 * (512 * (512 * a + b) + x) + s.ptIndex) =
        512 * (512 * (512 * a + b) + x + 1) := by
      rw [hopen.blockEnd_eq hnext]
      change ((512 * (512 * (512 * a + b) + x) + s.ptIndex) / 2 ^ 9 + 1) * 2 ^ 9 = _
      rw [hdiv]
      exact Nat.mul_comm _ _
    have hfree := free_iff_of_directory hnext
    rw [hentry] at hfree
    cases hp : present (entry memory table x) with
    | false =>
      have hcredit := h.credit hle (hfree.mpr hp) hend
      have hcount : 512 * (512 * (512 * a + b) + x + 1) - (512 * (512 * (512 * a + b) + x) +
        s.ptIndex) =
          0x200 - s.ptIndex := by omega
      rw [hcount] at hcredit
      rw [if_pos (by rfl)]
      exact elim_map hcredit fun t ht => ⟨ht.of_eq rfl rfl ht.pdp ht.pd (Nat.zero_lt_succ 511), rfl⟩
    | true =>
      have hsize : sizePat (entry memory table x) = true := by
        rw [nextTable, hentry, hp] at hnext
        simpa using hnext
      have hreset := h.reset hle (by simp [hfree, hp]) hend
      rw [if_neg (by decide), if_pos hsize, Sum.elim_inr]
      exact ⟨hreset.of_eq rfl rfl hreset.pdp hreset.pd (Nat.zero_lt_succ 511), rfl⟩
  | some f =>
    obtain ⟨hp, hsize, rfl⟩ := nextTable_some hnext
    have hbase : 512 * (512 * (512 * a + b) + x) ≤ last := by omega
    obtain ⟨hlast', hend⟩ := ptEnd_endsOf hlast hb hx hbase
    have htable := hlead.next (by decide) hx hnext
    rw [hp, hsize rfl, if_neg (by decide), if_neg (by decide)]
    refine elim_map (forRange_reached 1 (fun _ => 0) (q := 512 * (512 * a + b) + x)
      (fun y t hy hyk hley hreached => ?_) (by omega) (by omega) (by omega) (by
        simpa using h)) fun t ht => ?_
    · simp only [Nat.one_mul, Nat.add_zero] at hley hreached ⊢
      exact elim_mono (searchPt_spec htable (by omega) hley hreached) fun t' ht' => ⟨ht', trivial⟩
    · have hclosed := ht.1.close (d := 3) (Nat.le_refl 3) (by simpa using hend) htable
      exact ⟨hclosed.of_eq rfl rfl hclosed.pdp hclosed.pd (Nat.zero_lt_succ 511), rfl⟩

theorem searchPdp_spec (hlast : last < 2 ^ 36)
    (hlead : Leads memory pageTable 1 a table) (hx : x < 512)
    (hle : 2 ^ 18 * (512 * a + x) + (512 * s.pdIndex + s.ptIndex) ≤ last)
    (h : Reached memory pageTable
      first last n (2 ^ 18 * (512 * a + x) + (512 * s.pdIndex + s.ptIndex)) s) :
    Sum.elim (Returned memory pageTable first last n)
      (fun t => Reached memory pageTable first last n (2 ^ 18 * (512 * a + x + 1)) t ∧
        512 * t.pdIndex + t.ptIndex = 0)
      (searchPdp memory n (endsOf last) table a x s) := by
  have hpt := h.pt
  have hpd := h.pd
  have hdiv : (2 ^ 18 * (512 * a + x) + (512 * s.pdIndex + s.ptIndex)) / 2 ^ 18 = 512 * a + x := by
    omega
  have hsum : 512 * (512 * (512 * a + x) + s.pdIndex) + s.ptIndex =
      2 ^ 18 * (512 * a + x) + (512 * s.pdIndex + s.ptIndex) := by omega
  obtain ⟨hopen, hentry⟩ := hlead.entry_eq (d := 1) (by decide) hx hdiv
  rw [searchPdp, toVirtAddress48_eq, hsum]
  cases hnext : nextTable 1 (entry memory table x) with
  | none =>
    have hp : present (entry memory table x) = false := by
      rw [nextTable] at hnext
      simpa using hnext
    rw [← hentry] at hnext
    have hend : blockEnd memory pageTable (2 ^ 18 * (512 * a + x) + (512 * s.pdIndex + s.ptIndex)) =
        2 ^ 18 * (512 * a + x + 1) := by
      rw [hopen.blockEnd_eq hnext]
      change ((2 ^ 18 * (512 * a + x) + (512 * s.pdIndex + s.ptIndex)) / 2 ^ 18 + 1) * 2 ^ 18 = _
      rw [hdiv, Nat.mul_comm]
    have hcredit := h.credit hle (free_of_none (by decide) hnext) hend
    have hcount : 2 ^ 18 * (512 * a + x + 1) - (2 ^ 18 * (512 * a + x) +
      (512 * s.pdIndex + s.ptIndex)) =
        0x40000 - s.ptIndex - s.pdIndex * 2 ^ 9 := by omega
    rw [hcount] at hcredit
    rw [hp, if_pos (by rfl)]
    exact elim_map hcredit fun t ht =>
      ⟨ht.of_eq rfl rfl ht.pdp (Nat.zero_lt_succ 511) (Nat.zero_lt_succ 511), rfl⟩
  | some f =>
    obtain ⟨hp, -, rfl⟩ := nextTable_some hnext
    have hbase : 512 * (512 * a + x) ≤ last / 2 ^ 9 := by omega
    obtain ⟨hlast', hend⟩ := pdEnd_endsOf hlast hx hbase
    have htable := hlead.next (by decide) hx hnext
    rw [hp, if_neg (by decide)]
    refine elim_map (forRange_reached 512 Search.ptIndex (q := 512 * a + x)
      (fun y t hy hyk hley hreached => ?_) (by omega) (by omega) (by omega) (by
        rwa [hsum])) fun t ht => ?_
    · exact searchPd_spec hlast hx htable (by omega) hley hreached
    · have hclosed := ht.1.close (d := 2) (by decide) hend htable
      exact ⟨hclosed.of_eq rfl rfl hclosed.pdp (Nat.zero_lt_succ 511) hclosed.pt, by
        simpa using ht.2⟩

theorem searchPml4_spec (hlast : last < 2 ^ 36) (hx : x < 512)
    (hle : 2 ^ 27 * x + (2 ^ 18 * s.pdpIndex + (512 * s.pdIndex + s.ptIndex)) ≤ last)
    (h : Reached memory pageTable first last n
      (2 ^ 27 * x + (2 ^ 18 * s.pdpIndex + (512 * s.pdIndex + s.ptIndex))) s) :
    Sum.elim (Returned memory pageTable first last n)
      (fun t => Reached memory pageTable first last n (2 ^ 27 * (x + 1)) t ∧
        2 ^ 18 * t.pdpIndex + (512 * t.pdIndex + t.ptIndex) = 0)
      (searchPml4 memory n (endsOf last) pageTable x s) := by
  have hpt := h.pt
  have hpd := h.pd
  have hpdp := h.pdp
  have hdiv : (2 ^ 27 * x + (2 ^ 18 * s.pdpIndex + (512 * s.pdIndex + s.ptIndex))) / 2 ^ 27 =
      512 * 0 + x := by
    omega
  have hsum : 512 * (512 * (512 * x + s.pdpIndex) + s.pdIndex) + s.ptIndex =
      2 ^ 27 * x + (2 ^ 18 * s.pdpIndex + (512 * s.pdIndex + s.ptIndex)) := by omega
  have hlead : Leads memory pageTable 0 0 pageTable :=
    fun p _ => ⟨fun j hj => absurd hj (Nat.not_lt_zero j), rfl⟩
  obtain ⟨hopen, hentry⟩ := hlead.entry_eq (by decide) hx hdiv
  rw [searchPml4, toVirtAddress48_eq, hsum]
  cases hnext : nextTable 0 (entry memory pageTable x) with
  | none =>
    have hp : present (entry memory pageTable x) = false := by
      rw [nextTable] at hnext
      simpa using hnext
    rw [← hentry] at hnext
    have hend : blockEnd memory pageTable
        (2 ^ 27 * x + (2 ^ 18 * s.pdpIndex + (512 * s.pdIndex + s.ptIndex))) =
        2 ^ 27 * (x + 1) := by
      rw [hopen.blockEnd_eq hnext]
      change ((2 ^ 27 * x + (2 ^ 18 * s.pdpIndex + (512 * s.pdIndex + s.ptIndex))) / 2 ^ 27 + 1) *
        2 ^ 27 = _
      rw [hdiv, Nat.mul_comm, Nat.mul_zero, Nat.zero_add]
    have hcredit := h.credit hle (free_of_none (by decide) hnext) hend
    have hcount : 2 ^ 27 * (x + 1) - (2 ^ 27 * x +
      (2 ^ 18 * s.pdpIndex + (512 * s.pdIndex + s.ptIndex))) =
        0x8000000 - s.ptIndex - s.pdIndex * 2 ^ 9 - s.pdpIndex * 2 ^ 18 := by omega
    rw [hcount] at hcredit
    rw [hp, if_pos (by rfl)]
    exact elim_map hcredit fun t ht =>
      ⟨ht.of_eq rfl rfl (Nat.zero_lt_succ 511) (Nat.zero_lt_succ 511) (Nat.zero_lt_succ 511), rfl⟩
  | some f =>
    obtain ⟨hp, -, rfl⟩ := nextTable_some hnext
    have hbase : 512 * x ≤ last / 2 ^ 18 := by omega
    obtain ⟨hlast', hend⟩ := pdpEnd_endsOf hlast hbase
    have htable := hlead.next (by decide) hx hnext
    rw [Nat.mul_zero, Nat.zero_add x] at htable
    rw [hp, if_neg (by decide)]
    refine elim_map (forRange_reached (2 ^ 18) (fun t => 512 * t.pdIndex + t.ptIndex) (q := x)
      (fun y t hy hyk hley hreached => ?_) (by omega) (by omega) (by omega) ?_) fun t ht => ?_
    · exact searchPdp_spec hlast htable (by omega) hley hreached
    · have hbegin : 2 ^ 18 * (512 * x + s.pdpIndex) + (512 * s.pdIndex + s.ptIndex) =
          2 ^ 27 * x + (2 ^ 18 * s.pdpIndex + (512 * s.pdIndex + s.ptIndex)) := by omega
      rwa [hbegin]
    · have hclosed := ht.1.close (d := 1) (by decide) hend htable
      exact ⟨hclosed.of_eq rfl rfl (Nat.zero_lt_succ 511) hclosed.pd hclosed.pt, by
        simpa using ht.2⟩

end Levels

def pageOf (v : ℕ) : ℕ := v / 2 ^ 12 % 2 ^ 36

theorem pageOf_lt (v : ℕ) : pageOf v < 2 ^ 36 := Nat.mod_lt _ (by decide)

theorem pageOf_mono {v w : ℕ} (hv : Canonical v) (hw : Canonical w) (hle : v ≤ w) :
    pageOf v ≤ pageOf w := by
  rw [Canonical] at hv hw
  rw [pageOf, pageOf]
  omega

theorem search_spec (memory : Buffer) (pageTable : ℕ) (hn : 0 < n) (hle : first ≤ last)
    (hlast : last < 2 ^ 36) :
    Sum.elim (Returned memory pageTable first last n)
      (fun _ => ∀ v,
        first ≤ v → v + n ≤ blockEnd memory pageTable last → ¬ FreeRun (Free memory pageTable) v n)
      (forRange (searchPml4 memory n (endsOf last) pageTable) (last / 2 ^ 27 + 1 - first / 2 ^ 27)
        (first / 2 ^ 27) ⟨0, 0, first / 2 ^ 18 % 512, first / 2 ^ 9 % 512, first % 512⟩) := by
  have hsum : 2 ^ 27 * (512 * 0 + first / 2 ^ 27) +
      (2 ^ 18 * (first / 2 ^ 18 % 512) + (512 * (first / 2 ^ 9 % 512) + first % 512)) = first := by
        omega
  have hstart : Reached memory pageTable first last n first
      ⟨0, 0, first / 2 ^ 18 % 512, first / 2 ^ 9 % 512, first % 512⟩ := by
    refine ⟨?_, Nat.mod_lt _ (by decide), Nat.mod_lt _ (by decide), Nat.mod_lt _ (by decide)⟩
    rw [Nat.min_eq_left (Nat.le_trans hle (Nat.le_of_lt (lt_blockEnd memory pageTable last)))]
    exact Scan.init hn
  refine elim_mono (forRange_reached (2 ^ 27)
    (fun t => 2 ^ 18 * t.pdpIndex + (512 * t.pdIndex + t.ptIndex)) (q := 0)
    (fun y t hy hyk hley hreached => ?_) (by omega) (by omega) ?_ ?_) fun t ht v hv hvn => ?_
  · simp only [Nat.mul_zero, Nat.zero_add] at hley hreached ⊢
    exact searchPml4_spec hlast (by omega) hley hreached
  · dsimp only
    rwa [hsum]
  · dsimp only
    rwa [hsum]
  · have hopen : Open memory pageTable 0 last := fun j hj => absurd hj (Nat.not_lt_zero j)
    have hend := hopen.blockEnd_le
    have hscan := ht.1.scan
    rw [Nat.min_eq_right (by omega)] at hscan
    exact hscan.hole.none v hv hvn

theorem virtualFindAvailableMemory_spec (memory : Buffer) (pageTable : ℕ)
    {virtualStart virtualEnd : ℕ} (hn : 0 < n) (hs : Canonical virtualStart)
    (he : Canonical virtualEnd) (hle : virtualStart ≤ virtualEnd) :
    Returned memory pageTable (pageOf virtualStart) (pageOf virtualEnd) n
      (virtualFindAvailableMemory memory pageTable virtualStart virtualEnd n) ∨
    virtualFindAvailableMemory memory pageTable virtualStart virtualEnd n = 0 ∧
      ∀ v, pageOf virtualStart ≤ v → v + n ≤ blockEnd memory pageTable (pageOf virtualEnd) →
        ¬ FreeRun (Free memory pageTable) v n := by
  have hspec := search_spec memory pageTable hn (pageOf_mono hs he hle)
    (pageOf_lt virtualEnd)
  have hfirst : marked virtualStart / 2 ^ 12 % 2 ^ 36 = pageOf virtualStart :=
    firstPage_mod virtualStart
  have hlast : marked virtualEnd / 2 ^ 12 % 2 ^ 36 = pageOf virtualEnd := firstPage_mod virtualEnd
  have hends : (⟨marked virtualEnd / 2 ^ 12 / 2 ^ 27 % 512,
    marked virtualEnd / 2 ^ 12 / 2 ^ 18 % 512, marked virtualEnd / 2 ^ 12 / 2 ^ 9 % 512,
    marked virtualEnd / 2 ^ 12 % 512⟩ : Ends) =
      endsOf (pageOf virtualEnd) := by
    rw [endsOf, ← hlast]
    generalize marked virtualEnd / 2 ^ 12 = w
    rw [Ends.mk.injEq]
    omega
  have hbegin : (⟨0, 0, marked virtualStart / 2 ^ 12 / 2 ^ 18 % 512,
    marked virtualStart / 2 ^ 12 / 2 ^ 9 % 512,
    marked virtualStart / 2 ^ 12 % 512⟩ : Search) = ⟨0, 0, pageOf virtualStart / 2 ^ 18 % 512,
      pageOf virtualStart / 2 ^ 9 % 512, pageOf virtualStart % 512⟩ := by
    rw [← hfirst]
    generalize marked virtualStart / 2 ^ 12 = w
    rw [Search.mk.injEq]
    omega
  have hpml4 : marked virtualStart / 2 ^ 12 / 2 ^ 27 % 512 = pageOf virtualStart / 2 ^ 27 := by
    omega
  have hpml4End : marked virtualEnd / 2 ^ 12 / 2 ^ 27 % 512 = pageOf virtualEnd / 2 ^ 27 := by omega
  rw [virtualFindAvailableMemory, if_neg (by omega)]
  dsimp only
  rw [hends, hbegin, hpml4, hpml4End]
  generalize forRange _ _ _ _ = r at *
  cases r with
  | inl address => exact Or.inl hspec
  | inr s => exact Or.inr ⟨rfl, hspec⟩

end DevOs.Paging
