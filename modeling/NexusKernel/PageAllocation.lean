import NexusKernel.PhysicalMemory
import Mathlib.Order.Interval.Finset.Nat

/-!
What each operation of the page allocator does to the bitmap, the reference counts and the
counter, for pages below `max_page_index`. The pages storing the bitmap have to be in use, so that
the allocator clears none of them.
-/

namespace NexusKernel.PageAllocation

open Bitmap Lib.Loops PhysicalMemory

def InUse (s : Pmm) (q : ℕ) : Prop := q < s.maxPageIndex.toNat ∧ bitmapTest s.bitmap q = true

def IsFree (s : Pmm) (q : ℕ) : Prop := q < s.maxPageIndex.toNat ∧ bitmapTest s.bitmap q = false

variable {s : Pmm} {i c : ℕ}

theorem IsFree.not_inUse {q : ℕ} (h : IsFree s q) : ¬ InUse s q := by
  intro hu
  cases h.2.symm.trans hu.2

theorem IsFree.ne {p q : ℕ} (h : IsFree s p) (hq : InUse s q) : q ≠ p :=
  fun heq => h.not_inUse (heq ▸ hq)

def StoresBitmap (s : Pmm) (q : ℕ) : Prop :=
  pageOf s.bitmapAddr ≤ q ∧ q < pageOf s.bitmapAddr + (bitmapPagesOf s.maxPageIndex).toNat

/-- The bitmap starts on a page boundary and keeps its own pages in use. -/
structure BitmapKept (s : Pmm) : Prop where
  aligned : s.bitmapAddr.toNat % 4096 = 0
  inUse : ∀ q, StoresBitmap s q → InUse s q

section

variable {s' : Pmm} (haddr : s'.bitmapAddr = s.bitmapAddr) (hmax : s'.maxPageIndex = s.maxPageIndex)
include haddr hmax

theorem storesBitmap_congr {q : ℕ} : StoresBitmap s' q ↔ StoresBitmap s q := by
  simp only [StoresBitmap, haddr, hmax]

theorem BitmapKept.congr (h : BitmapKept s) (huse : ∀ q, StoresBitmap s q → InUse s' q) :
    BitmapKept s' := ⟨haddr ▸ h.aligned, fun q hq => huse q ((storesBitmap_congr haddr hmax).mp hq)⟩

end

theorem pageOf_eq (phys : UInt64) : pageOf phys = phys.toNat / 4096 := by
  simp [pageOf, pmmPageSize, UInt64.toNat_div]

theorem pageAddr_toNat (hi : i < 2 ^ 52) : (pageAddr i).toNat = i * 4096 := by
  have hofNat : (UInt64.ofNat i).toNat = i := by
    exact Nat.mod_eq_of_lt (by omega)
  rw [pageAddr, UInt64.toNat_mul, hofNat]
  exact Nat.mod_eq_of_lt (by simp [pmmPageSize]; omega)

theorem pageOf_pageAddr (hi : i < 2 ^ 52) : pageOf (pageAddr i) = i := by
  rw [pageOf_eq, pageAddr_toNat hi]
  omega

theorem pageAddr_ne_zero (hpos : 0 < i) (hi : i < 2 ^ 52) : pageAddr i ≠ 0 := by
  intro h
  have hz := congrArg UInt64.toNat h
  rw [pageAddr_toNat hi] at hz
  simp at hz
  omega

theorem bitmapSizeOf_toNat (s : Pmm) : (bitmapSizeOf s.maxPageIndex).toNat =
    (s.maxPageIndex.toNat + 7) / 8 := by
  have h := s.maxPageIndex_lt
  rw [bitmapSizeOf, UInt64.toNat_div]
  simp
  omega

theorem bitmapPagesOf_toNat (s : Pmm) :
    (bitmapPagesOf s.maxPageIndex).toNat = ((s.maxPageIndex.toNat + 7) / 8 + 4095) / 4096 := by
  have h := s.maxPageIndex_lt
  have hsize := bitmapSizeOf_toNat s
  rw [bitmapPagesOf, UInt64.toNat_div, UInt64.toNat_sub, UInt64.toNat_add]
  simp [pmmPageSize]
  omega

/-- The byte with the bit of a covered page is in a page of the bitmap. -/
theorem storesBitmap_byte (s : Pmm) {n : ℕ} (hn : n < s.maxPageIndex.toNat) :
    StoresBitmap s ((s.bitmapAddr.toNat / 4096) + (n / 8) / 4096) := by
  unfold StoresBitmap
  rw [pageOf_eq, bitmapPagesOf_toNat]
  omega

/-- Clearing pages outside the bitmap leaves every covered bit alone. -/
theorem test_zeroBytes (halign : s.bitmapAddr.toNat % 4096 = 0) {n : ℕ}
    (hi : i < 2 ^ 52) (hpages : ∀ q, i ≤ q → q < i + c → ¬ StoresBitmap s q)
    (hn : n < s.maxPageIndex.toNat) :
    bitmapTest (zeroBytes s (pageAddr i) (c * 4096)).bitmap n = bitmapTest s.bitmap n := by
  apply test_congr
  simp only [zeroBytes, pageAddr_toNat hi]
  rw [if_neg]
  rintro ⟨hlow, hhigh⟩
  refine hpages _ ?_ ?_ (storesBitmap_byte s hn)
  · omega
  · omega

structure TakenBlock (s : Pmm) (i c : ℕ) (s' : Pmm) : Prop where
  bitmapAddr : s'.bitmapAddr = s.bitmapAddr
  maxPageIndex : s'.maxPageIndex = s.maxPageIndex
  usablePages : s'.usablePages = s.usablePages
  usedPages : s'.usedPages = s.usedPages + UInt64.ofNat c
  test : ∀ n, n < s.maxPageIndex.toNat →
    bitmapTest s'.bitmap n = (decide (i ≤ n ∧ n < i + c) || bitmapTest s.bitmap n)
  refcount : ∀ n, s'.pageRefcount n =
    if (i ≤ n ∧ n < i + c) ∧ n < maxPages then 1 else s.pageRefcount n

theorem takePage_block (s : Pmm) (i : ℕ) : TakenBlock s i 1 (takePage s i) where
  bitmapAddr := rfl
  maxPageIndex := rfl
  usablePages := rfl
  usedPages := rfl
  test := by
    intro n _
    have hone : (i ≤ n ∧ n < i + 1) ↔ n = i := by omega
    simp only [takePage, test_set, hone]
  refcount := by
    intro n
    have hone : (i ≤ n ∧ n < i + 1) ↔ n = i := by omega
    simp only [takePage, hone]
    grind

theorem takePages_block (s : Pmm) (i c : ℕ) :
    TakenBlock s i c (forUpTo (fun j s => takePage s (i + j)) c s) := by
  induction c with
  | zero =>
    refine ⟨rfl, rfl, rfl, by simp, ?_, ?_⟩
    · intro n _
      simp
    · intro n
      have hnil : ¬ ((i ≤ n ∧ n < i + 0) ∧ n < maxPages) := by omega
      rw [if_neg hnil]
      rfl
  | succ c ih =>
    have hlast := takePage_block (forUpTo (fun j s => takePage s (i + j)) c s) (i + c)
    rw [forUpTo_succ]
    refine ⟨hlast.bitmapAddr.trans ih.bitmapAddr, hlast.maxPageIndex.trans ih.maxPageIndex,
      hlast.usablePages.trans ih.usablePages, ?_, ?_, ?_⟩
    · rw [hlast.usedPages, ih.usedPages, UInt64.add_assoc, ← UInt64.ofNat_add]
    · intro n hn
      rw [hlast.test n (by rwa [ih.maxPageIndex]), ih.test n hn, ← Bool.or_assoc, ← Bool.decide_or]
      congr 2
      apply propext
      omega
    · intro n
      rw [hlast.refcount, ih.refcount]
      split_ifs <;> first | rfl | omega

theorem TakenBlock.zeroBytes {s' : Pmm} (h : TakenBlock s i c s')
    (halign : s.bitmapAddr.toNat % 4096 = 0) (hi : i < 2 ^ 52)
    (hpages : ∀ q, i ≤ q → q < i + c → ¬ StoresBitmap s q) :
    TakenBlock s i c (zeroBytes s' (pageAddr i) (c * 4096)) where
  bitmapAddr := h.bitmapAddr
  maxPageIndex := h.maxPageIndex
  usablePages := h.usablePages
  usedPages := h.usedPages
  test := by
    intro n hn
    have hstores : ∀ q, StoresBitmap s' q ↔ StoresBitmap s q :=
      fun _ => storesBitmap_congr h.bitmapAddr h.maxPageIndex
    rw [test_zeroBytes (by rwa [h.bitmapAddr]) hi (fun q hlow hhigh hq => hpages q hlow hhigh
      ((hstores q).mp hq)) (by rwa [h.maxPageIndex]), h.test n hn]
  refcount := h.refcount

/-- A block of free pages that is taken leaves the clear bits. -/
theorem card_taken {s' : Pmm} (htaken : TakenBlock s i c s') (hfree : ∀ j < c, IsFree s (i + j)) :
    (clearBits s'.bitmap s'.maxPageIndex.toNat).card + c =
      (clearBits s.bitmap s.maxPageIndex.toNat).card := by
  have hblock : Finset.Ico i (i + c) ⊆ clearBits s.bitmap s.maxPageIndex.toNat := by
    intro n hn
    rw [Finset.mem_Ico] at hn
    have h := hfree (n - i) (by omega)
    rw [show i + (n - i) = n by omega] at h
    exact mem_clearBits.mpr h
  have hrest : clearBits s'.bitmap s'.maxPageIndex.toNat =
      clearBits s.bitmap s.maxPageIndex.toNat \ Finset.Ico i (i + c) := by
    ext n
    rw [htaken.maxPageIndex]
    simp only [mem_clearBits, Finset.mem_sdiff, Finset.mem_Ico]
    constructor
    · intro h
      obtain ⟨hn, hclear⟩ := h
      rw [htaken.test n hn, Bool.or_eq_false_iff, decide_eq_false_iff_not] at hclear
      exact ⟨⟨hn, hclear.2⟩, hclear.1⟩
    · intro h
      obtain ⟨⟨hn, hclear⟩, hout⟩ := h
      refine ⟨hn, ?_⟩
      rw [htaken.test n hn, hclear]
      simpa using hout
  have hcard := Finset.card_sdiff_add_card_eq_card hblock
  rw [hrest]
  simpa only [Nat.card_Ico, Nat.add_sub_cancel_left] using hcard

/-- `pmm_alloc_page` finds every page from 1 on in use and changes nothing, or takes the first
free one. -/
theorem pmmAllocPage_cases (hs : BitmapKept s) :
    (pmmAllocPage s = (s, 0) ∧ ∀ i, 1 ≤ i → i < s.maxPageIndex.toNat → InUse s i) ∨
    ∃ i, 1 ≤ i ∧ IsFree s i ∧ (pmmAllocPage s).2 = pageAddr i ∧
      TakenBlock s i 1 (pmmAllocPage s).1 := by
  have hmax := s.maxPageIndex_lt
  unfold pmmAllocPage
  cases hfind : (List.range' 1 (s.maxPageIndex.toNat - 1)).find? (fun i => !bitmapTest s.bitmap i)
    with
  | none =>
    refine .inl ⟨rfl, fun i hlow hhigh => ⟨hhigh, ?_⟩⟩
    have hused := List.find?_eq_none.mp hfind i (by simp only [List.mem_range'_1]; omega)
    simpa using hused
  | some i =>
    have hmem := List.mem_of_find?_eq_some hfind
    have hclear : bitmapTest s.bitmap i = false := by
      simpa using List.find?_some hfind
    simp only [List.mem_range'_1] at hmem
    have hfree : IsFree s i := ⟨by omega, hclear⟩
    refine .inr ⟨i, hmem.1, hfree, rfl, ?_⟩
    apply (takePage_block s i).zeroBytes hs.aligned (by omega)
    intro q hlow hhigh hq
    have hqi : q = i := by omega
    subst q
    exact hfree.not_inUse (hs.inUse i hq)

variable {count : UInt64}

theorem firstUsed_none (h : firstUsed s count i = none) :
    ∀ j < count.toNat, i + j < s.maxPageIndex.toNat → bitmapTest s.bitmap (i + j) = false := by
  intro j hj hij
  have hnone := List.find?_eq_none.mp h j (by simp; omega)
  simpa using hnone

/-- A block found by the outer loop starts no earlier than it did, lies below `max_page_index` and
is free. -/
theorem findBlock_some (hnum : count.toNat < 2 ^ 52) {b : ℕ}
    (h : findBlock s count i = some b) : i ≤ b ∧ b + count.toNat ≤ s.maxPageIndex.toNat ∧
    ∀ j < count.toNat, IsFree s (b + j) := by
  have hmax := s.maxPageIndex_lt
  fun_induction findBlock s count i with
  | case1 i hi j hused ih =>
    obtain ⟨hlow, hrest⟩ := ih h
    exact ⟨by omega, hrest⟩
  | case2 i hi hnone hfit =>
    obtain rfl : i = b := Option.some.inj h
    have hsum : (UInt64.ofNat i + count).toNat = i + count.toNat := by
      rw [UInt64.toNat_add, UInt64.toNat_ofNat']
      omega
    have hfit' : i + count.toNat ≤ s.maxPageIndex.toNat := by
      rw [← hsum]
      exact hfit
    refine ⟨le_rfl, hfit', fun j hj => ⟨by omega, ?_⟩⟩
    exact firstUsed_none hnone j hj (by omega)
  | case3 i hi hnone hfit ih =>
    obtain ⟨hlow, hrest⟩ := ih h
    exact ⟨by omega, hrest⟩
  | case4 i hi => simp at h

/-- `pmm_alloc_pages` changes nothing or takes a free block of the requested size without page 0. -/
theorem pmmAllocPages_cases (hs : BitmapKept s) (count : UInt64) (hnum : count.toNat < 2 ^ 52) :
    pmmAllocPages s count = (s, 0) ∨ ∃ i, 1 ≤ i ∧ 1 ≤ count.toNat ∧
      (∀ j < count.toNat, IsFree s (i + j)) ∧ (pmmAllocPages s count).2 = pageAddr i ∧
      TakenBlock s i count.toNat (pmmAllocPages s count).1 := by
  have hmax := s.maxPageIndex_lt
  unfold pmmAllocPages
  by_cases hz : count = 0
  · simp [hz]
  by_cases hone : count = 1
  · subst count
    rcases pmmAllocPage_cases hs with ⟨hfail, _⟩ | ⟨i, hlow, hfree, haddr, htaken⟩
    · exact .inl (by simpa using hfail)
    · refine .inr ⟨i, hlow, by simp, ?_, by simpa using haddr, by simpa using htaken⟩
      intro j hj
      obtain rfl : j = 0 := by simpa using hj
      exact hfree
  simp only [hz, hone, if_false]
  cases hfind : findBlock s count 1 with
  | none => exact .inl rfl
  | some i =>
    obtain ⟨hlow, hhigh, hfree⟩ := findBlock_some hnum hfind
    have hpos : 1 ≤ count.toNat := by
      rw [Nat.one_le_iff_ne_zero]
      intro h
      exact hz (UInt64.toNat_inj.mp h)
    have hlen : (count * pmmPageSize).toNat = count.toNat * 4096 := by
      exact Nat.mod_eq_of_lt (by simp [pmmPageSize]; omega)
    refine .inr ⟨i, hlow, hpos, hfree, rfl, ?_⟩
    simp only [hlen]
    apply (takePages_block s i count.toNat).zeroBytes hs.aligned (by omega)
    intro q hq hq' hstores
    have hqfree : IsFree s q := by
      simpa [show i + (q - i) = q by omega] using hfree (q - i) (by omega)
    exact hqfree.not_inUse (hs.inUse q hstores)

structure Returned (s : Pmm) (p : ℕ) (s' : Pmm) : Prop where
  bitmapAddr : s'.bitmapAddr = s.bitmapAddr
  maxPageIndex : s'.maxPageIndex = s.maxPageIndex
  usablePages : s'.usablePages = s.usablePages
  usedPages : s'.usedPages = s.usedPages - 1
  test : ∀ n, bitmapTest s'.bitmap n = (decide (n ≠ p) && bitmapTest s.bitmap n)

/-- `pmm_free_page` ignores page 0, uncovered pages and free pages. -/
theorem pmmFreePage_cases (s : Pmm) (phys : UInt64) :
    (pmmFreePage s phys = s ∧ (pageOf phys = 0 ∨ ¬ InUse s (pageOf phys))) ∨
    (pageOf phys ≠ 0 ∧ InUse s (pageOf phys) ∧ Returned s (pageOf phys) (pmmFreePage s phys) ∧
      ∀ n, (pmmFreePage s phys).pageRefcount n =
        if n = pageOf phys ∧ n < maxPages then 0 else s.pageRefcount n) := by
  unfold pmmFreePage
  by_cases hout : pageOf phys = 0 ∨ pageOf phys ≥ s.maxPageIndex.toNat
  · refine .inl ⟨by simp [hout], ?_⟩
    rcases hout with hz | hbig
    · exact .inl hz
    · exact .inr fun hu => by have := hu.1; omega
  · by_cases hset : bitmapTest s.bitmap (pageOf phys) = true
    · obtain ⟨hz, hbig⟩ := not_or.mp hout
      refine .inr ⟨hz, ⟨Nat.lt_of_not_le hbig, hset⟩, ?_, ?_⟩
      · simp only [hout, hset, if_true, if_false]
        exact ⟨rfl, rfl, rfl, rfl, fun n => test_clear _ _ _⟩
      · intro n
        simp only [hout, hset, if_true, if_false]
        grind
    · refine .inl ⟨by simp [hset], .inr (fun hu => hset hu.2)⟩

/-- `pmm_page_unref` gives back the last reference to a page in use, drops one of several, or does
nothing. -/
theorem pmmPageUnref_cases (s : Pmm) (phys : UInt64) : pmmPageUnref s phys = s ∧
      (maxPages ≤ pageOf phys ∨ pageOf phys = 0 ∨ s.pageRefcount (pageOf phys) = 0) ∨
    (pageOf phys < maxPages ∧ pageOf phys ≠ 0 ∧ s.pageRefcount (pageOf phys) ≠ 0 ∧
      (pmmPageUnref s phys).pageRefcount =
        Function.update s.pageRefcount (pageOf phys) (s.pageRefcount (pageOf phys) - 1) ∧
      ((s.pageRefcount (pageOf phys) = 1 ∧ bitmapTest s.bitmap (pageOf phys) = true ∧
          Returned s (pageOf phys) (pmmPageUnref s phys)) ∨
        ((s.pageRefcount (pageOf phys) ≠ 1 ∨ bitmapTest s.bitmap (pageOf phys) = false) ∧
          (pmmPageUnref s phys).bitmap = s.bitmap ∧
          (pmmPageUnref s phys).bitmapAddr = s.bitmapAddr ∧
          (pmmPageUnref s phys).maxPageIndex = s.maxPageIndex ∧
          (pmmPageUnref s phys).usablePages = s.usablePages ∧
          (pmmPageUnref s phys).usedPages = s.usedPages))) := by
  unfold pmmPageUnref
  by_cases hout : pageOf phys ≥ maxPages ∨ pageOf phys = 0
  · refine .inl ⟨by simp [hout], ?_⟩
    rcases hout with h | h
    · exact .inl h
    · exact .inr (.inl h)
  · by_cases hpos : s.pageRefcount (pageOf phys) > 0
    · have hne : s.pageRefcount (pageOf phys) ≠ 0 := by
        intro h
        simp [h] at hpos
      have hlast : s.pageRefcount (pageOf phys) - 1 = 0 ↔ s.pageRefcount (pageOf phys) = 1 := by
        constructor <;> intro h <;> grind
      refine .inr ⟨by omega, by omega, hne, ?_, ?_⟩
      · simp only [hout, hpos, if_true, if_false]
        split <;> rfl
      · simp only [hout, hpos, if_true, if_false, Function.update_self, hlast]
        by_cases hfree : s.pageRefcount (pageOf phys) = 1 ∧ bitmapTest s.bitmap (pageOf phys) = true
        · refine .inl ⟨hfree.1, hfree.2, ?_⟩
          simp only [hfree.1, hfree.2, and_self, if_true]
          exact ⟨rfl, rfl, rfl, rfl, fun n => test_clear _ _ _⟩
        · refine .inr ⟨?_, ?_⟩
          · by_cases h1 : s.pageRefcount (pageOf phys) = 1
            · exact .inr (by simpa [h1] using hfree)
            · exact .inl h1
          · simp only [hfree, if_false, and_self]
    · have hz : s.pageRefcount (pageOf phys) = 0 := by grind
      refine .inl ⟨by simp [hz], .inr (.inr hz)⟩

def FreeRun (s : Pmm) (n i : ℕ) : Prop := 1 ≤ i ∧ ∀ j < n, IsFree s (i + j)

/-- The search passes over no run: a page in use belongs to every run that starts before it. -/
theorem findBlock_le (hpos : 1 ≤ count.toNat) {k : ℕ} (hrun : ∀ j < count.toNat, IsFree s (k + j))
    (hk : i ≤ k) : ∃ b ≤ k, findBlock s count i = some b := by
  have hend := (hrun (count.toNat - 1) (by omega)).1
  fun_induction findBlock s count i with
  | case1 i hi j hused ih =>
    refine ih (Nat.lt_of_not_le fun hle => ?_)
    have hj := List.mem_range.mp (List.mem_of_find?_eq_some hused)
    have hfree := (hrun (i + j - k) (by omega)).2
    rw [show k + (i + j - k) = i + j by omega] at hfree
    have hset := List.find?_some hused
    cases hfree.symm.trans hset
  | case2 i hi hnone hfit => exact ⟨i, hk, rfl⟩
  | case3 i hi hnone hfit =>
    refine absurd (UInt64.le_iff_toNat_le.mpr ?_) hfit
    rw [UInt64.toNat_add, UInt64.toNat_ofNat']
    omega
  | case4 i hi => omega

theorem pmmAllocPages_le (hpos : 1 ≤ count.toNat) {k : ℕ} (hrun : FreeRun s count.toNat k) :
    ∃ b, 1 ≤ b ∧ b ≤ k ∧ (pmmAllocPages s count).2 = pageAddr b := by
  have hmax := s.maxPageIndex_lt
  have hend := (hrun.2 (count.toNat - 1) (by omega)).1
  have hz : count ≠ 0 := by
    rintro rfl
    simp at hpos
  rw [pmmAllocPages, if_neg hz]
  by_cases hone : count = 1
  · have hlow := hrun.1
    have hfree : bitmapTest s.bitmap k = false := (hrun.2 0 hpos).2
    rw [if_pos hone, pmmAllocPage]
    cases hfind : (List.range' 1 (s.maxPageIndex.toNat - 1)).find? (fun i => !bitmapTest s.bitmap i)
      with
    | none =>
      have hused := List.find?_eq_none.mp hfind k (by simp only [List.mem_range'_1]; omega)
      simp [hfree] at hused
    | some b =>
      obtain ⟨-, hb, hpre⟩ := List.find?_range'_eq_some.mp hfind
      refine ⟨b, (List.mem_range'_1.mp hb).1, Nat.le_of_not_lt fun hlt => ?_, rfl⟩
      simpa [hfree] using hpre k hlow hlt
  · obtain ⟨b, hle, hfind⟩ := findBlock_le hpos hrun.2 hrun.1
    rw [if_neg hone, hfind]
    exact ⟨b, (findBlock_some (by omega) hfind).1, hle, rfl⟩

/-- `pmm_alloc_pages` takes the first run, or changes nothing if there is none. -/
theorem pmm_alloc_pages_first_fit (hs : BitmapKept s) (hpos : 1 ≤ count.toNat)
    (hnum : count.toNat ≤ s.maxPageIndex.toNat) : (∀ i, IsLeast {i | FreeRun s count.toNat i} i →
      (pmmAllocPages s count).2 = pageAddr i ∧
        TakenBlock s i count.toNat (pmmAllocPages s count).1) ∧
    ((pmmAllocPages s count).2 = 0 ↔ ∀ i, ¬ FreeRun s count.toNat i) ∧
    ((pmmAllocPages s count).2 = 0 → (pmmAllocPages s count).1 = s) := by
  have hmax := s.maxPageIndex_lt
  rcases pmmAllocPages_cases hs count (by omega) with hfail | ⟨i, hlow, -, hfree, haddr, htaken⟩
  · have hnone : ∀ i, ¬ FreeRun s count.toNat i := by
      intro k hrun
      obtain ⟨b, hb, hle, haddr⟩ := pmmAllocPages_le hpos hrun
      have hk := (hrun.2 0 hpos).1
      exact pageAddr_ne_zero hb (by omega) (haddr.symm.trans (congrArg Prod.snd hfail))
    exact ⟨fun i hi => absurd hi.1 (hnone i), iff_of_true (congrArg Prod.snd hfail) hnone,
      fun _ => congrArg Prod.fst hfail⟩
  · have hi := (hfree 0 hpos).1
    have hne : (pmmAllocPages s count).2 ≠ 0 := haddr ▸ pageAddr_ne_zero hlow (by omega)
    refine ⟨fun k hk => ?_, iff_of_false hne fun hnone => hnone i ⟨hlow, hfree⟩,
      fun h => absurd h hne⟩
    obtain ⟨b, hb, hle, haddr'⟩ := pmmAllocPages_le hpos hk.1
    have hik := hk.2 ⟨hlow, hfree⟩
    have heq := congrArg pageOf (haddr.symm.trans haddr')
    rw [pageOf_pageAddr (by omega), pageOf_pageAddr (by omega)] at heq
    obtain rfl : i = k := by omega
    exact ⟨haddr, htaken⟩

def tinyPmm (byte : UInt8) : Pmm := ⟨fun _ => byte, 0x1000, 8, 8, 0, fun _ => 0, by decide⟩

theorem tiny_kept : BitmapKept (tinyPmm 3) := by
  refine ⟨by decide, fun q hq => ?_⟩
  have hone : pageOf (tinyPmm 3).bitmapAddr = 1 ∧ (bitmapPagesOf (tinyPmm 3).maxPageIndex).toNat =
    1 := by decide
  rw [StoresBitmap] at hq
  obtain rfl : q = 1 := by omega
  exact ⟨by decide, by decide⟩

theorem pmm_alloc_pages_first_fit_tiny : BitmapKept (tinyPmm 3) ∧
    (pmmAllocPages (tinyPmm 3) 2).2 = pageAddr 2 ∧
    TakenBlock (tinyPmm 3) 2 2 (pmmAllocPages (tinyPmm 3) 2).1 := by
  refine ⟨tiny_kept, (pmm_alloc_pages_first_fit tiny_kept (by decide) (by decide)).1 2 ⟨?_, ?_⟩⟩
  · exact ⟨by decide, by unfold IsFree; decide⟩
  · rintro i ⟨hlow, hfree⟩
    by_contra hless
    obtain rfl : i = 1 := by omega
    exact absurd (hfree 0 (by decide)) (by unfold IsFree; decide)

/-- The page of the bitmap is handed out and cleared, and is free again. -/
theorem bitmap_page_taken : (pmmAllocPages (tinyPmm 0) 1).2 = pageAddr 1 ∧
    bitmapTest (pmmAllocPages (tinyPmm 0) 1).1.bitmap 1 = false := by
  decide

end NexusKernel.PageAllocation
