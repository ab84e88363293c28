import NexusKernel.BootMemory
import NexusKernel.Lib.Runs

/-!
The counter of used pages is exact: over any run of allocations, frees and reference counting,
double frees included, `usable_pages - used_pages` is the number of clear bits and page 0 stays in
use.

The one free that breaks this names a page of the bitmap itself: the next allocation hands it out
and clears it, and its bits become clear uncounted.
-/

namespace NexusKernel.PmmAccounting

open Bitmap Lib.Loops Lib.Runs PhysicalMemory PageAllocation BootMemory

/-- One call of the allocator's interface. Addresses lie below the end of the bitmap's range and
page counts below 2^52; `Spared` restricts the pages freed. -/
inductive Step (Spared : Pmm → ℕ → Prop) : Pmm → Pmm → Prop
  | allocPage (s : Pmm) : Step Spared s (pmmAllocPage s).1
  | allocPages (s : Pmm) (count : UInt64) (hcount : count.toNat < 2 ^ 52) :
      Step Spared s (pmmAllocPages s count).1
  | freePage (s : Pmm) (phys : UInt64) (hphys : phys.toNat < s.maxPageIndex.toNat * 4096)
      (hspared : Spared s (pageOf phys)) : Step Spared s (pmmFreePage s phys)
  | freePages (s : Pmm) (phys count : UInt64) (hphys : phys.toNat < s.maxPageIndex.toNat * 4096)
      (hcount : count.toNat < 2 ^ 52)
      (hspared : ∀ i, i < count.toNat → Spared s (pageOf (phys + UInt64.ofNat i * pmmPageSize))) :
      Step Spared s (pmmFreePages s phys count)
  | pageRef (s : Pmm) (phys : UInt64) (hphys : phys.toNat < s.maxPageIndex.toNat * 4096) :
      Step Spared s (pmmPageRef s phys)
  | pageUnref (s : Pmm) (phys : UInt64) (hphys : phys.toNat < s.maxPageIndex.toNat * 4096)
      (hspared : Spared s (pageOf phys)) : Step Spared s (pmmPageUnref s phys)

/-- `usable_pages - used_pages`, modulo 2^64, is the number of clear bits, and page 0 is in use. -/
def Counted (s : Pmm) : Prop :=
  s.usablePages - s.usedPages = UInt64.ofNat (clearBits s.bitmap s.maxPageIndex.toNat).card ∧
    bitmapTest s.bitmap 0 = true

structure Accounted (s : Pmm) : Prop where
  covered : 0 < s.maxPageIndex.toNat
  kept : BitmapKept s
  counted : Counted s

variable {s s' : Pmm}

section

variable (h : Accounted s)
include h

theorem taken_accounted {i c : ℕ} (htaken : TakenBlock s i c s')
    (hfree : ∀ j < c, IsFree s (i + j)) : Accounted s' := by
  have htest : ∀ n < s.maxPageIndex.toNat, bitmapTest s.bitmap n = true →
      bitmapTest s'.bitmap n = true := by
    intro n hn hset
    rw [htaken.test n hn, hset, Bool.or_true]
  refine ⟨by rw [htaken.maxPageIndex]; exact h.covered,
    h.kept.congr htaken.bitmapAddr htaken.maxPageIndex ?_, ?_, htest 0 h.covered h.counted.2⟩
  · intro q hq
    obtain ⟨hlt, hset⟩ := h.kept.inUse q hq
    exact ⟨by rw [htaken.maxPageIndex]; exact hlt, htest q hlt hset⟩
  · have hcounted := h.counted.1
    rw [← card_taken htaken hfree, UInt64.ofNat_add] at hcounted
    rw [htaken.usablePages, htaken.usedPages]
    calc
      s.usablePages - (s.usedPages + UInt64.ofNat c) =
        (s.usablePages - s.usedPages) - UInt64.ofNat c := by grind
      _ = _ := by
        grind

/-- A page in use that is returned joins the clear bits. -/
theorem returned_accounted {p : ℕ} (hp : InUse s p)
    (hz : p ≠ 0) (hspared : ¬ StoresBitmap s p) (hret : Returned s p s') : Accounted s' := by
  have hcard : (clearBits s'.bitmap s'.maxPageIndex.toNat).card =
      (clearBits s.bitmap s.maxPageIndex.toNat).card + 1 := by
    rw [← clearBits_clear s.bitmap hp.1 hp.2, hret.maxPageIndex]
    congr 1
    ext n
    rw [mem_clearBits, mem_clearBits, hret.test, test_clear]
  refine ⟨by rw [hret.maxPageIndex]; exact h.covered,
    h.kept.congr hret.bitmapAddr hret.maxPageIndex ?_, ?_, ?_⟩
  · intro q hq
    obtain ⟨hlt, hset⟩ := h.kept.inUse q hq
    have hne : q ≠ p := fun heq => hspared (heq ▸ hq)
    exact ⟨by rw [hret.maxPageIndex]; exact hlt, by simp [hret.test, hne, hset]⟩
  · rw [hcard, UInt64.ofNat_add, ← h.counted.1, hret.usablePages, hret.usedPages]
    grind
  · simp [hret.test, hz.symm, h.counted.2]

theorem accounted_of_bitmap (hbitmap : s'.bitmap = s.bitmap)
    (haddr : s'.bitmapAddr = s.bitmapAddr) (hmax : s'.maxPageIndex = s.maxPageIndex)
    (husable : s'.usablePages = s.usablePages) (hused : s'.usedPages = s.usedPages) :
    Accounted s' := by
  refine ⟨by rw [hmax]; exact h.covered, h.kept.congr haddr hmax ?_, ?_⟩
  · simpa only [InUse, hmax, hbitmap] using h.kept.inUse
  · simpa only [Counted, hbitmap, hmax, husable, hused] using h.counted

theorem freePage_accounted (phys : UInt64)
    (hspared : ¬ StoresBitmap s (pageOf phys)) : Accounted (pmmFreePage s phys) := by
  rcases pmmFreePage_cases s phys with ⟨hsame, _⟩ | ⟨hz, huse, hret, _⟩
  · rw [hsame]
    exact h
  · exact returned_accounted h huse hz hspared hret

end

theorem freePage_layout (s : Pmm) (phys : UInt64) : (pmmFreePage s phys).bitmapAddr = s.bitmapAddr ∧
    (pmmFreePage s phys).maxPageIndex = s.maxPageIndex := by
  rcases pmmFreePage_cases s phys with ⟨hsame, _⟩ | ⟨_, _, hret, _⟩
  · rw [hsame]
    exact ⟨rfl, rfl⟩
  · exact ⟨hret.bitmapAddr, hret.maxPageIndex⟩

/-- `pmm_free_pages` frees page by page, also where addresses wrap. -/
theorem freePages_accounted (h : Accounted s) (phys count : UInt64)
    (hspared : ∀ i, i < count.toNat →
      ¬ StoresBitmap s (pageOf (phys + UInt64.ofNat i * pmmPageSize))) :
    Accounted (pmmFreePages s phys count) := by
  refine (forUpTo_invariant (fun _ t => Accounted t ∧ t.bitmapAddr = s.bitmapAddr ∧ t.maxPageIndex =
    s.maxPageIndex) ⟨h, rfl, rfl⟩ ?_).1
  intro i t hi ht
  obtain ⟨hacc, haddr, hmax⟩ := ht
  obtain ⟨haddr', hmax'⟩ := freePage_layout t (phys + UInt64.ofNat i * pmmPageSize)
  refine ⟨freePage_accounted hacc _ ?_, haddr'.trans haddr, hmax'.trans hmax⟩
  exact (storesBitmap_congr haddr hmax).not.mpr (hspared i hi)

theorem pageUnref_accounted (h : Accounted s) (phys : UInt64)
    (hphys : phys.toNat < s.maxPageIndex.toNat * 4096)
    (hspared : ¬ StoresBitmap s (pageOf phys)) : Accounted (pmmPageUnref s phys) := by
  rcases pmmPageUnref_cases s phys with ⟨hsame, _⟩ | ⟨_, hz, _, _, hcases⟩
  · rw [hsame]
    exact h
  · rcases hcases with ⟨_, hset, hret⟩ | ⟨_, hbitmap, haddr, hmax, husable, hused⟩
    · have hlt : pageOf phys < s.maxPageIndex.toNat := by
        rw [pageOf_eq]
        omega
      exact returned_accounted h ⟨hlt, hset⟩ hz hspared hret
    · exact accounted_of_bitmap h hbitmap haddr hmax husable hused

theorem step_accounted (h : Accounted s) (hstep : Step (fun t q => ¬ StoresBitmap t q) s s') :
    Accounted s' := by
  cases hstep with
  | allocPage =>
    rcases pmmAllocPage_cases h.kept with ⟨hfail, _⟩ | ⟨i, _, hfree, _, htaken⟩
    · rw [hfail]
      exact h
    · refine taken_accounted h htaken ?_
      intro j hj
      obtain rfl : j = 0 := by omega
      exact hfree
  | allocPages count hnum =>
    rcases pmmAllocPages_cases h.kept count hnum with hfail | ⟨i, _, _, hfree, _, htaken⟩
    · rw [hfail]
      exact h
    · exact taken_accounted h htaken hfree
  | freePage phys hphys hspared => exact freePage_accounted h phys hspared
  | freePages phys count hphys hnum hspared => exact freePages_accounted h phys count hspared
  | pageRef phys hphys =>
    simp only [pmmPageRef]
    split
    · exact h
    · exact accounted_of_bitmap h rfl rfl rfl rfl rfl
  | pageUnref phys hphys hspared => exact pageUnref_accounted h phys hphys hspared

theorem booted_accounted {memmap : List MemmapEntry} (hmap : UsableMap memmap)
    (h : Booted memmap s) : Accounted s := by
  refine ⟨?_, h.kept, h.counted, h.pageZero⟩
  obtain ⟨room, hroom, husable, hpos, _⟩ := hmap.holdsBitmap
  have hend := covers_lt hmap hroom husable
  obtain ⟨_, hlen, _⟩ := hmap.aligned room hroom husable
  rw [h.maxPageIndex]
  omega

/-- After `pmm_init` on any such map and any run that frees no page of the bitmap, the account is
exact. -/
theorem pmm_accounting {memmap : List MemmapEntry} (hmap : UsableMap memmap) (memory : Bytes) :
    ∃ s₀, pmmInit memory memmap = some s₀ ∧
      ∀ s, Reachable (Step (fun t q => ¬ StoresBitmap t q)) s₀ s → Counted s := by
  obtain ⟨s₀, hinit, hbooted⟩ := pmmInit_booted hmap memory
  refine ⟨s₀, hinit, fun s hrun => ?_⟩
  exact (Reachable.invariant Accounted (fun _ _ ha hstep => step_accounted ha hstep)
    (booted_accounted hmap hbooted) hrun).counted

theorem pmm_accounting_smallMap : UsableMap smallMap ∧ Counted (pmmAllocPage smallBoot).1 := by
  refine ⟨smallMap_usable, ?_⟩
  obtain ⟨s₀, hinit, hrun⟩ := pmm_accounting smallMap_usable fun _ => 0
  obtain rfl : smallBoot = s₀ := Option.some.inj ((Option.some_get _).trans hinit)
  exact hrun _ (.single (Step.allocPage _))

/-- Freeing the bitmap's page and allocating once clears the bitmap: four bits are clear while the
counters say two, and page 0 is free. -/
theorem bitmap_page_freed : UsableMap smallMap ∧ pmmInit (fun _ => 0) smallMap = some smallBoot ∧
    ∃ s, Reachable (Step (fun _ _ => True)) smallBoot s ∧ ¬ Counted s := by
  refine ⟨smallMap_usable, (Option.some_get _).symm,
    (pmmAllocPage (pmmFreePage smallBoot 0x1000)).1, ?_, ?_⟩
  · have hfree : Step (fun _ _ => True) smallBoot (pmmFreePage smallBoot 0x1000) :=
      Step.freePage _ 0x1000 (by decide) trivial
    exact (Relation.ReflTransGen.single hfree).tail (Step.allocPage _)
  · unfold Counted
    decide

end NexusKernel.PmmAccounting
