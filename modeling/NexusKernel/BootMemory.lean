import NexusKernel.PageAllocation

/-!
The state `pmm_init` leaves behind. The memory map is as the bootloader promises: usable entries
are page-aligned, do not overlap, and one has room for the bitmap; other entries are arbitrary. A
page is then free exactly when it lies in a usable entry, is not page 0 and does not store the
bitmap.
-/

namespace NexusKernel.BootMemory

open Bitmap Lib.Loops PhysicalMemory PageAllocation

namespace Entry

def Contains (e : MemmapEntry) (addr : ℕ) : Prop :=
  e.base.toNat ≤ addr ∧ addr < e.base.toNat + e.length.toNat

def Covers (e : MemmapEntry) (page : ℕ) : Prop :=
  e.type = .usable ∧ e.base.toNat / 4096 ≤ page ∧ page < e.base.toNat / 4096 + e.length.toNat / 4096

instance (e : MemmapEntry) (page : ℕ) : Decidable (Covers e page) :=
  inferInstanceAs (Decidable (_ ∧ _ ∧ _))

def Aligned (e : MemmapEntry) : Prop :=
  e.type = .usable → e.base.toNat % 4096 = 0 ∧ e.length.toNat % 4096 = 0 ∧
    e.base.toNat + e.length.toNat < 2 ^ 64

end Entry

open Entry

def InsideUsable (memmap : List MemmapEntry) (page : ℕ) : Prop :=
  ∃ e ∈ memmap, e.type = .usable ∧ ∀ addr, page * 4096 ≤ addr → addr < page * 4096 + 4096 →
    Contains e addr

structure UsableMap (memmap : List MemmapEntry) : Prop where
  aligned : ∀ e ∈ memmap, Aligned e
  disjoint : memmap.Pairwise (fun a b => a.type = .usable → b.type = .usable →
    ∀ addr, ¬ (Contains a addr ∧ Contains b addr))
  holdsBitmap : ∃ e ∈ memmap, e.type = .usable ∧ 0 < e.length.toNat ∧
    bitmapSizeOf (maxPageIndexOf memmap) ≤ e.length

variable {memmap : List MemmapEntry} {e : MemmapEntry} {s : Pmm} {maxPageIndex addr : UInt64}

theorem Entry.contains_of_covers (ha : Aligned e) {page : ℕ} (h : Covers e page) :
    ∀ addr, page * 4096 ≤ addr → addr < page * 4096 + 4096 → Contains e addr := by
  obtain ⟨husable, hlow, hhigh⟩ := h
  obtain ⟨hbase, hlen, _⟩ := ha husable
  intro addr hle hlt
  constructor <;> omega

private theorem highest_foldl (memmap : List MemmapEntry) (start : UInt64) :
    let top := memmap.foldl (fun highest entry =>
      if entry.base + entry.length > highest then entry.base + entry.length else highest) start
    start ≤ top ∧ ∀ e ∈ memmap, e.base + e.length ≤ top := by
  induction memmap generalizing start with
  | nil => exact ⟨UInt64.le_refl _, by simp⟩
  | cons head tail ih =>
    simp only [List.foldl_cons, List.mem_cons, forall_eq_or_imp]
    by_cases htop : head.base + head.length > start
    · rw [if_pos htop]
      obtain ⟨hst, hrest⟩ := ih (head.base + head.length)
      exact ⟨UInt64.le_trans (UInt64.le_of_lt htop) hst, hst, hrest⟩
    · rw [if_neg htop]
      obtain ⟨hst, hrest⟩ := ih start
      exact ⟨hst, UInt64.le_trans (UInt64.not_lt.mp htop) hst, hrest⟩

/-- Pages of a usable entry lie below `max_page_index`. -/
theorem covers_lt (hmap : UsableMap memmap) (he : e ∈ memmap) (husable : e.type = .usable) :
    e.base.toNat / 4096 + e.length.toNat / 4096 ≤ (maxPageIndexOf memmap).toNat := by
  obtain ⟨hbase, hlen, hrange⟩ := hmap.aligned e he husable
  have htop : (e.base + e.length).toNat ≤ (highestAddress memmap).toNat :=
    (highest_foldl memmap 0).2 e he
  rw [UInt64.toNat_add] at htop
  have hmax : (maxPageIndexOf memmap).toNat = (highestAddress memmap).toNat / 4096 := by
    simp [maxPageIndexOf, pmmPageSize, UInt64.toNat_div]
  omega

def carve (maxPageIndex : UInt64) (e : MemmapEntry) : MemmapEntry :=
  { e with
    base := e.base + bitmapPagesOf maxPageIndex * pmmPageSize
    length := e.length - bitmapPagesOf maxPageIndex * pmmPageSize }

theorem placeBitmap_some {adjusted : List MemmapEntry} (h : placeBitmap maxPageIndex memmap =
      some (addr, adjusted)) : ∃ before e after, memmap = before ++ e :: after ∧ e.type = .usable ∧
      bitmapSizeOf maxPageIndex ≤ e.length ∧ addr = e.base ∧
      adjusted = before ++ carve maxPageIndex e :: after := by
  fun_induction placeBitmap maxPageIndex memmap generalizing adjusted with
  | case1 => simp at h
  | case2 head tail hfits =>
    cases h
    exact ⟨[], head, tail, rfl, hfits.1, hfits.2, rfl, rfl⟩
  | case3 head tail _ ih =>
    obtain ⟨⟨addr', rest⟩, hrest, heq⟩ := Option.map_eq_some_iff.mp h
    cases heq
    obtain ⟨before, e, after, rfl, husable, hsize, haddr, rfl⟩ := ih hrest
    exact ⟨head :: before, e, after, rfl, husable, hsize, haddr, rfl⟩

theorem placeBitmap_isSome
    (he : e ∈ memmap) (husable : e.type = .usable) (hsize : bitmapSizeOf maxPageIndex ≤ e.length) :
    ∃ placed, placeBitmap maxPageIndex memmap = some placed := by
  fun_induction placeBitmap maxPageIndex memmap with
  | case1 => simp at he
  | case2 => exact ⟨_, rfl⟩
  | case3 head tail hno ih =>
    rcases List.mem_cons.mp he with rfl | htail
    · exact absurd ⟨husable, hsize⟩ hno
    · obtain ⟨placed, hplaced⟩ := ih htail
      exact ⟨_, by rw [hplaced]; rfl⟩

private theorem test_clearRange (bitmap : Bytes) (start : UInt64) (c n : ℕ)
    (hrange : start.toNat + c < 2 ^ 64) :
    bitmapTest (forUpTo (fun p bitmap => bitmapClear bitmap (start + UInt64.ofNat p).toNat) c
      bitmap) n = (decide (¬ (start.toNat ≤ n ∧ n < start.toNat + c)) && bitmapTest bitmap n) := by
  induction c with
  | zero =>
    simp
  | succ c ih =>
    have hpage : (start + UInt64.ofNat c).toNat = start.toNat + c := by
      rw [UInt64.toNat_add, UInt64.toNat_ofNat']
      omega
    rw [forUpTo_succ, test_clear, ih (by omega), ← Bool.and_assoc, ← Bool.decide_and]
    congr 2
    apply propext
    omega

/-- After some entries of pass 3: the clear bits are exactly their pages, and `usable_pages`
counts them. -/
structure Freed (memmap done : List MemmapEntry) (addr : UInt64) (s : Pmm) : Prop where
  bitmapAddr : s.bitmapAddr = addr
  maxPageIndex : s.maxPageIndex = maxPageIndexOf memmap
  refcount : ∀ n, s.pageRefcount n = 0
  clear : ∀ n, n < s.maxPageIndex.toNat → (bitmapTest s.bitmap n = false ↔ ∃ e ∈ done, Covers e n)
  counted : s.usablePages = UInt64.ofNat (clearBits s.bitmap s.maxPageIndex.toNat).card

private theorem ff_testBit (k : ℕ) (hk : k < 8) : (0xFF : UInt8).toNat.testBit k = true := by
  interval_cases k <;> rfl

theorem blankPmm_freed (memory : Bytes) (memmap : List MemmapEntry) (addr : UInt64) :
    Freed memmap [] addr (blankPmm memory memmap addr) := by
  have hset : ∀ n, n < (blankPmm memory memmap addr).maxPageIndex.toNat →
      bitmapTest (blankPmm memory memmap addr).bitmap n = true := by
    intro n hn
    have hsize := bitmapSizeOf_toNat (blankPmm memory memmap addr)
    have hbyte : n / 8 < (bitmapSizeOf (maxPageIndexOf memmap)).toNat := by
      change n / 8 < (bitmapSizeOf (blankPmm memory memmap addr).maxPageIndex).toNat
      omega
    rw [bitmapTest_eq]
    simp only [blankPmm, hbyte, if_true]
    exact ff_testBit _ (Nat.mod_lt _ (by omega))
  refine ⟨rfl, rfl, fun _ => rfl, ?_, ?_⟩
  · intro n hn
    simp [hset n hn]
  · have hnil : clearBits (blankPmm memory memmap addr).bitmap
        (blankPmm memory memmap addr).maxPageIndex.toNat = ∅ := by
      ext n
      simp only [mem_clearBits, Finset.notMem_empty, iff_false, not_and]
      intro hn hclear
      rw [hset n hn] at hclear
      exact Bool.noConfusion hclear
    rw [hnil]
    rfl

/-- One entry of pass 3 keeps the picture, if its pages are new and covered by the bitmap. -/
theorem freeEntry_freed {done : List MemmapEntry}
    (h : Freed memmap done addr s) (e : MemmapEntry) (hrange : e.type = .usable →
      e.base.toNat / 4096 + e.length.toNat / 4096 ≤ s.maxPageIndex.toNat)
    (hnew : ∀ n, Covers e n → ∀ d ∈ done, ¬ Covers d n) :
    Freed memmap (done ++ [e]) addr (freeEntry s e) := by
  by_cases husable : e.type = .usable
  · have hmax := s.maxPageIndex_lt
    have hend := hrange husable
    have hst : (e.base / pmmPageSize).toNat = e.base.toNat / 4096 := by
      simp [pmmPageSize, UInt64.toNat_div]
    have hnum : (e.length / pmmPageSize).toNat = e.length.toNat / 4096 := by
      simp [pmmPageSize, UInt64.toNat_div]
    have htest : ∀ n, bitmapTest (freeEntry s e).bitmap n =
        (decide (¬ Covers e n) && bitmapTest s.bitmap n) := by
      intro n
      simp only [freeEntry, husable, if_true]
      rw [test_clearRange _ _ _ _ (by omega), hst, hnum]
      simp [Covers, husable]
    have hmax' : (freeEntry s e).maxPageIndex = s.maxPageIndex := by
      simp [freeEntry, husable]
    refine ⟨by simp [freeEntry, husable, h.bitmapAddr], by rw [hmax', h.maxPageIndex], ?_, ?_, ?_⟩
    · intro n
      simpa [freeEntry, husable] using h.refcount n
    · intro n hn
      rw [hmax'] at hn
      simp only [htest n, Bool.and_eq_false_iff, decide_eq_false_iff_not, not_not, h.clear n hn,
        List.mem_append, List.mem_singleton, or_and_right, exists_or, exists_eq_left]
      exact or_comm
    · have hpages : clearBits (freeEntry s e).bitmap (freeEntry s e).maxPageIndex.toNat =
          clearBits s.bitmap s.maxPageIndex.toNat ∪
            Finset.Ico (e.base.toNat / 4096) (e.base.toNat / 4096 + e.length.toNat / 4096) := by
        ext n
        simp only [mem_clearBits, hmax', htest n, Finset.mem_union, Finset.mem_Ico,
          Bool.and_eq_false_iff, decide_eq_false_iff_not, not_not, Covers, husable, true_and]
        constructor
        · rintro ⟨hn, hc | hc⟩
          · exact .inr hc
          · exact .inl ⟨hn, hc⟩
        · rintro (⟨hn, hc⟩ | hc)
          · exact ⟨hn, .inr hc⟩
          · exact ⟨by omega, .inl hc⟩
      have hdisj : Disjoint (clearBits s.bitmap s.maxPageIndex.toNat)
          (Finset.Ico (e.base.toNat / 4096) (e.base.toNat / 4096 + e.length.toNat / 4096)) := by
        rw [Finset.disjoint_left]
        intro n hclear hn
        obtain ⟨hlt, hbit⟩ := mem_clearBits.mp hclear
        obtain ⟨d, hd, hcov⟩ := (h.clear n hlt).mp hbit
        rw [Finset.mem_Ico] at hn
        exact hnew n ⟨husable, hn⟩ d hd hcov
      rw [hpages, Finset.card_union_of_disjoint hdisj, Nat.card_Ico,
        Nat.add_sub_cancel_left, UInt64.ofNat_add, ← h.counted]
      simp only [freeEntry, husable, if_true]
      rw [← hnum, UInt64.ofNat_toNat]
  · have hskip : freeEntry s e = s := by simp [freeEntry, husable]
    rw [hskip]
    refine ⟨h.bitmapAddr, h.maxPageIndex, h.refcount, ?_, h.counted⟩
    intro n hn
    have hnone : ¬ Covers e n := fun hc => husable hc.1
    simp only [h.clear n hn, List.mem_append, List.mem_singleton, or_and_right, exists_or,
      exists_eq_left, hnone, or_false]

theorem foldl_freed (rest : List MemmapEntry) :
    ∀ {done : List MemmapEntry} {s : Pmm}, Freed memmap done addr s →
      (∀ e ∈ rest, e.type = .usable →
      e.base.toNat / 4096 + e.length.toNat / 4096 ≤ (maxPageIndexOf memmap).toNat) →
    (done ++ rest).Pairwise (fun a b => ∀ n, ¬ (Covers a n ∧ Covers b n)) →
    Freed memmap (done ++ rest) addr (rest.foldl freeEntry s) := by
  induction rest with
  | nil =>
    intro done s h _ _
    simpa using h
  | cons e rest ih =>
    intro done s h hrange hpair
    have hsplit : done ++ e :: rest = (done ++ [e]) ++ rest := by simp
    have hnew : ∀ n, Covers e n → ∀ d ∈ done, ¬ Covers d n := by
      intro n hn d hd hcov
      exact (List.pairwise_append.mp hpair).2.2 d hd e (List.mem_cons_self ..) n ⟨hcov, hn⟩
    have hstep := freeEntry_freed h e
      (fun hu => by rw [h.maxPageIndex]; exact hrange e (List.mem_cons_self ..) hu) hnew
    rw [hsplit] at hpair ⊢
    exact ih hstep (fun d hd => hrange d (List.mem_cons_of_mem _ hd)) hpair

section

variable (hmax : maxPageIndex.toNat < 2 ^ 52) (ha : Aligned e) (husable : e.type = .usable)
    (hsize : bitmapSizeOf maxPageIndex ≤ e.length)
include hmax ha husable hsize

theorem bitmapPages_le :
    (bitmapPagesOf maxPageIndex * pmmPageSize).toNat = (bitmapPagesOf maxPageIndex).toNat * 4096 ∧
      (bitmapPagesOf maxPageIndex).toNat * 4096 ≤ e.length.toNat := by
  obtain ⟨_, hlen, _⟩ := ha husable
  have hsize' : (bitmapSizeOf maxPageIndex).toNat ≤ e.length.toNat := hsize
  have hbytes : (bitmapSizeOf maxPageIndex).toNat = (maxPageIndex.toNat + 7) / 8 := by
    rw [bitmapSizeOf, UInt64.toNat_div]
    simp
    omega
  have hpages : (bitmapPagesOf maxPageIndex).toNat =
      ((maxPageIndex.toNat + 7) / 8 + 4095) / 4096 := by
    rw [bitmapPagesOf, UInt64.toNat_div, UInt64.toNat_sub, UInt64.toNat_add]
    simp [pmmPageSize]
    omega
  refine ⟨?_, by omega⟩
  exact Nat.mod_eq_of_lt (by simp [pmmPageSize]; omega)

/-- The entry that gives up pages for the bitmap loses its first ones. -/
theorem covers_carve :
    (carve maxPageIndex e).base.toNat / 4096 + (carve maxPageIndex e).length.toNat / 4096 =
      e.base.toNat / 4096 + e.length.toNat / 4096 ∧ ∀ n, Covers (carve maxPageIndex e) n ↔
      Covers e n ∧ e.base.toNat / 4096 + (bitmapPagesOf maxPageIndex).toNat ≤ n := by
  obtain ⟨hbase, hlen, hrange⟩ := ha husable
  obtain ⟨hbytes, hfit⟩ := bitmapPages_le hmax ha husable hsize
  have hbase' : (carve maxPageIndex e).base.toNat =
      e.base.toNat + (bitmapPagesOf maxPageIndex).toNat * 4096 := by
    simp only [carve]
    rw [UInt64.toNat_add, hbytes]
    exact Nat.mod_eq_of_lt (by omega)
  have hlen' : (carve maxPageIndex e).length.toNat =
      e.length.toNat - (bitmapPagesOf maxPageIndex).toNat * 4096 := by
    simp only [carve]
    rw [UInt64.toNat_sub_of_le _ _ (by rw [UInt64.le_iff_toNat_le, hbytes]; exact hfit), hbytes]
  refine ⟨by omega, ?_⟩
  intro n
  have htype : (carve maxPageIndex e).type = e.type := rfl
  simp only [Covers, htype, hbase', hlen', husable, true_and]
  omega

end

structure Booted (memmap : List MemmapEntry) (s : Pmm) : Prop where
  kept : BitmapKept s
  pageZero : bitmapTest s.bitmap 0 = true
  counted :
    s.usablePages - s.usedPages = UInt64.ofNat (clearBits s.bitmap s.maxPageIndex.toNat).card
  inside : ∀ n, IsFree s n → InsideUsable memmap n ∧ n ≠ 0 ∧ ¬ StoresBitmap s n
  refcount : ∀ n, s.pageRefcount n = 0
  maxPageIndex : s.maxPageIndex = maxPageIndexOf memmap

theorem guardPageZero_booted (hpos : 0 < s.maxPageIndex.toNat) (hkept : BitmapKept s)
    (hcounted : s.usablePages = UInt64.ofNat (clearBits s.bitmap s.maxPageIndex.toNat).card)
    (hin : ∀ n, IsFree s n → InsideUsable memmap n ∧ ¬ StoresBitmap s n)
    (hnum : ∀ n, s.pageRefcount n = 0)
    (hmaxPageIndex : s.maxPageIndex = maxPageIndexOf memmap) : Booted memmap (guardPageZero s) := by
  unfold guardPageZero
  cases hbit : bitmapTest s.bitmap 0 with
  | true =>
    refine ⟨⟨hkept.aligned, hkept.inUse⟩, hbit, ?_, ?_, hnum, hmaxPageIndex⟩
    · simpa using hcounted
    · intro n hn
      refine ⟨(hin n hn).1, ?_, (hin n hn).2⟩
      rintro rfl
      cases hbit.symm.trans hn.2
  | false =>
    have hcard := clearBits_set s.bitmap hpos hbit
    refine ⟨⟨hkept.aligned, ?_⟩, by simp [test_set], ?_, ?_, hnum, hmaxPageIndex⟩
    · intro q hq
      obtain ⟨hlt, hset⟩ := hkept.inUse q hq
      exact ⟨hlt, by simp [test_set, hset]⟩
    · rw [hcounted, ← hcard]
      simp
    · rintro n ⟨hlt, hclear⟩
      simp only [Bool.false_eq_true, if_false] at hclear hlt
      simp only [test_set, Bool.or_eq_false_iff, decide_eq_false_iff_not] at hclear
      exact ⟨(hin n ⟨hlt, hclear.2⟩).1, hclear.1, (hin n ⟨hlt, hclear.2⟩).2⟩

/-- `pmm_init` succeeds on every map the bootloader may hand over, and the free pages are usable,
not page 0 and not the bitmap's. -/
theorem pmmInit_booted (hmap : UsableMap memmap) (memory : Bytes) :
    ∃ s, pmmInit memory memmap = some s ∧ Booted memmap s := by
  obtain ⟨room, hroom, hroomUsable, hroomPos, hroomSize⟩ := hmap.holdsBitmap
  obtain ⟨⟨addr, adjusted⟩, hplaced⟩ := placeBitmap_isSome hroom hroomUsable hroomSize
  obtain ⟨before, e, after, hsplit, husable, hsize, haddr, hadj⟩ := placeBitmap_some hplaced
  refine ⟨guardPageZero
    (adjusted.foldl freeEntry (blankPmm memory memmap addr)), by simp only [pmmInit, hplaced], ?_⟩
  have hmax : (maxPageIndexOf memmap).toNat < 2 ^ 52 :=
    (blankPmm memory memmap addr).maxPageIndex_lt
  have hmem : e ∈ memmap := by simp [hsplit]
  have halign := hmap.aligned e hmem
  obtain ⟨hend, hcarve⟩ := covers_carve hmax halign husable hsize
  -- distinct entries of the map cover distinct pages
  have hpair : memmap.Pairwise (fun a b => ∀ n, ¬ (Covers a n ∧ Covers b n)) := by
    refine hmap.disjoint.imp_of_mem fun {a b} ha hb hab n hcov => hab hcov.1.1
      hcov.2.1 (n * 4096) ?_
    exact ⟨contains_of_covers (hmap.aligned a ha) hcov.1 _ (by omega) (by omega),
      contains_of_covers (hmap.aligned b hb) hcov.2 _ (by omega) (by omega)⟩
  rw [hsplit, List.pairwise_append, List.pairwise_cons] at hpair
  obtain ⟨hpre, ⟨heafter, hafter⟩, hcross⟩ := hpair
  have hpair' : adjusted.Pairwise (fun a b => ∀ n, ¬ (Covers a n ∧ Covers b n)) := by
    rw [hadj, List.pairwise_append, List.pairwise_cons]
    refine ⟨hpre, ⟨?_, hafter⟩, ?_⟩
    · intro b hb n hcov
      exact heafter b hb n ⟨((hcarve n).mp hcov.1).1, hcov.2⟩
    · intro a ha b hb n hcov
      rcases List.mem_cons.mp hb with rfl | hb
      · exact hcross a ha e (List.mem_cons_self ..) n ⟨hcov.1, ((hcarve n).mp hcov.2).1⟩
      · exact hcross a ha b (List.mem_cons_of_mem _ hb) n hcov
  have hrange : ∀ d ∈ adjusted, d.type = .usable →
      d.base.toNat / 4096 + d.length.toNat / 4096 ≤ (maxPageIndexOf memmap).toNat := by
    intro d hd hdu
    rw [hadj, List.mem_append, List.mem_cons] at hd
    rcases hd with hd | rfl | hd
    · exact covers_lt hmap (by simp [hsplit, hd]) hdu
    · rw [hend]
      exact covers_lt hmap hmem husable
    · exact covers_lt hmap (by simp [hsplit, hd]) hdu
  have hfreed :
      Freed memmap adjusted addr (adjusted.foldl freeEntry (blankPmm memory memmap addr)) := by
    simpa using foldl_freed adjusted (blankPmm_freed memory memmap addr) hrange
      (by simpa using hpair')
  -- an adjusted entry covers a page only where the original map does, and never the bitmap
  have hcovers : ∀ n, (∃ d ∈ adjusted, Covers d n) → InsideUsable memmap n ∧
    ¬ (e.base.toNat / 4096 ≤ n ∧
        n < e.base.toNat / 4096 + (bitmapPagesOf (maxPageIndexOf memmap)).toNat) := by
    rintro n ⟨d, hd, hcov⟩
    obtain ⟨hbytes, hfit⟩ := bitmapPages_le hmax halign husable hsize
    have hcovers_e : (e.base.toNat / 4096 ≤ n ∧
        n < e.base.toNat / 4096 + (bitmapPagesOf (maxPageIndexOf memmap)).toNat) →
        Covers e n := fun h => ⟨husable, by omega, by omega⟩
    have hin : d ∈ memmap → InsideUsable memmap n := fun hdmem =>
      ⟨d, hdmem, hcov.1, contains_of_covers (hmap.aligned d hdmem) hcov⟩
    rw [hadj, List.mem_append, List.mem_cons] at hd
    rcases hd with hd | rfl | hd
    · refine ⟨hin (by simp [hsplit, hd]), fun h => ?_⟩
      exact hcross d hd e (List.mem_cons_self ..) n ⟨hcov, hcovers_e h⟩
    · have hcov' := (hcarve n).mp hcov
      exact ⟨⟨e, hmem, husable, contains_of_covers halign hcov'.1⟩, by omega⟩
    · refine ⟨hin (by simp [hsplit, hd]), fun h => ?_⟩
      exact heafter d hd n ⟨hcovers_e h, hcov⟩
  generalize adjusted.foldl freeEntry (blankPmm memory memmap addr) = s at hfreed ⊢
  have hstores : ∀ q, StoresBitmap s q ↔ e.base.toNat / 4096 ≤ q ∧
      q < e.base.toNat / 4096 + (bitmapPagesOf (maxPageIndexOf memmap)).toNat := by
    intro q
    rw [StoresBitmap, hfreed.bitmapAddr, hfreed.maxPageIndex, haddr, pageOf_eq]
  have hroomEnd := covers_lt hmap hroom hroomUsable
  obtain ⟨_, hroomLen, _⟩ := hmap.aligned room hroom hroomUsable
  apply guardPageZero_booted
  · rw [hfreed.maxPageIndex]
    omega
  · constructor
    · rw [hfreed.bitmapAddr, haddr]
      exact (halign husable).1
    · intro q hq
      obtain ⟨_, hfit⟩ := bitmapPages_le hmax halign husable hsize
      have hq' := (hstores q).mp hq
      have hlt : q < s.maxPageIndex.toNat := by
        have := covers_lt hmap hmem husable
        rw [hfreed.maxPageIndex]
        omega
      refine ⟨hlt, ?_⟩
      by_contra hclear
      have hcov := (hfreed.clear q hlt).mp (by simpa using hclear)
      exact (hcovers q hcov).2 hq'
  · exact hfreed.counted
  · rintro n ⟨hlt, hclear⟩
    have hcov := hcovers n ((hfreed.clear n hlt).mp hclear)
    exact ⟨hcov.1, fun h => hcov.2 ((hstores n).mp h)⟩
  · exact hfreed.refcount
  · exact hfreed.maxPageIndex

theorem Booted.free_card (h : Booted memmap s) {n : ℕ}
    (hn : (s.usablePages - s.usedPages).toNat = n) :
    (clearBits s.bitmap s.maxPageIndex.toNat).card = n := by
  have hle := clearBits_card_le s.bitmap s.maxPageIndex.toNat
  have hmax := s.maxPageIndex_lt
  rw [h.counted, UInt64.toNat_ofNat_of_lt' (by grind)] at hn
  exact hn

def smallMap : List MemmapEntry := [⟨0x1000, 0x10000, .usable⟩]

theorem smallMap_usable : UsableMap smallMap := by
  refine ⟨?_, by simp [smallMap], ⟨0x1000, 0x10000, .usable⟩, by simp [smallMap], rfl, by decide,
    by decide⟩
  intro e he _
  obtain rfl : e = ⟨0x1000, 0x10000, .usable⟩ := by simpa [smallMap] using he
  decide

def smallBoot : Pmm := (pmmInit (fun _ => 0) smallMap).get (by decide)

end NexusKernel.BootMemory
