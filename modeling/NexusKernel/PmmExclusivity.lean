import NexusKernel.BootMemory
import NexusKernel.Lib.Runs

/-!
Pages are handed out exclusively. A ledger records how many references the callers hold on each
page. Callers take a reference only on a page somebody holds, give back only references they hold
and free only pages whose sole reference is theirs. A free bit then means that nobody holds the
page.

Pages beyond the first gibibyte carry no reference count; there the allocator ignores references,
which leaks pages at worst.
-/

namespace NexusKernel.PmmExclusivity

open Bitmap Lib.Loops Lib.Runs PhysicalMemory PageAllocation BootMemory Function

structure Ledger where
  pmm : Pmm
  held : ℕ → ℕ

def Ledger.boot (s : Pmm) : Ledger := ⟨s, fun _ => 0⟩

def blockPage (phys : UInt64) (i : ℕ) : ℕ := pageOf (phys + UInt64.ofNat i * pmmPageSize)

inductive Step : Ledger → Ledger → Prop
  | allocPage (l : Ledger) : Step l ⟨(pmmAllocPage l.pmm).1, fun n =>
        if (pmmAllocPage l.pmm).2 ≠ 0 ∧ n = pageOf (pmmAllocPage l.pmm).2 then l.held n + 1
        else l.held n⟩
  | allocPages (l : Ledger) (count : UInt64) (hcount : count.toNat < 2 ^ 52) :
      Step l ⟨(pmmAllocPages l.pmm count).1, fun n =>
        if (pmmAllocPages l.pmm count).2 ≠ 0 ∧ pageOf (pmmAllocPages l.pmm count).2 ≤ n ∧
            n < pageOf (pmmAllocPages l.pmm count).2 + count.toNat then l.held n + 1
        else l.held n⟩
  | freePage (l : Ledger) (phys : UInt64) (hsole : l.held (pageOf phys) = 1) :
      Step l ⟨pmmFreePage l.pmm phys, update l.held (pageOf phys) 0⟩
  | freePages (l : Ledger) (phys count : UInt64) (hcount : count.toNat < 2 ^ 52)
      (hsole : ∀ i, i < count.toNat → l.held (blockPage phys i) = 1) :
      Step l ⟨pmmFreePages l.pmm phys count,
        forUpTo (fun i held => update held (blockPage phys i) 0) count.toNat l.held⟩
  | pageRef (l : Ledger) (phys : UInt64) (hheld : 0 < l.held (pageOf phys))
      (hfew : l.held (pageOf phys) < 65535) :
      Step l ⟨pmmPageRef l.pmm phys, update l.held (pageOf phys) (l.held (pageOf phys) + 1)⟩
  | pageUnref (l : Ledger) (phys : UInt64) (hheld : 0 < l.held (pageOf phys)) :
      Step l ⟨pmmPageUnref l.pmm phys, update l.held (pageOf phys) (l.held (pageOf phys) - 1)⟩

def Allocatable (memmap : List MemmapEntry) (s : Pmm) (n : ℕ) : Prop :=
  InsideUsable memmap n ∧ n ≠ 0 ∧ ¬ StoresBitmap s n

structure Exclusive (memmap : List MemmapEntry) (l : Ledger) : Prop where
  kept : BitmapKept l.pmm
  free : ∀ n, IsFree l.pmm n → Allocatable memmap l.pmm n ∧ l.held n = 0
  inUse : ∀ n, l.held n ≠ 0 → Allocatable memmap l.pmm n ∧ InUse l.pmm n
  exact : ∀ n, l.held n ≠ 0 → n < maxPages → (l.pmm.pageRefcount n).toNat = l.held n

variable {l : Ledger} {memmap : List MemmapEntry} {s' : Pmm}

theorem boot_exclusive {s : Pmm} (h : Booted memmap s) : Exclusive memmap (Ledger.boot s) :=
  ⟨h.kept, fun n hn => ⟨h.inside n hn, rfl⟩, fun _ hn => absurd rfl hn, fun _ hn => absurd rfl hn⟩

section

variable (h : Exclusive memmap l)
include h

/-- Every page is as it was, or may be allocated and is now free and unheld, or in use with the
right count. -/
theorem Exclusive.of_pages {l' : Ledger} (haddr : l'.pmm.bitmapAddr = l.pmm.bitmapAddr)
    (hmax : l'.pmm.maxPageIndex = l.pmm.maxPageIndex) (hpages : ∀ n,
      ((n < l.pmm.maxPageIndex.toNat → bitmapTest l'.pmm.bitmap n = bitmapTest l.pmm.bitmap n) ∧
        l'.held n = l.held n ∧ l'.pmm.pageRefcount n = l.pmm.pageRefcount n) ∨
      Allocatable memmap l.pmm n ∧ (IsFree l'.pmm n ∧ l'.held n = 0 ∨ InUse l'.pmm n ∧
        (l'.held n ≠ 0 → n < maxPages → (l'.pmm.pageRefcount n).toNat = l'.held n))) :
          Exclusive memmap l' := by
  have halloc : ∀ n, Allocatable memmap l'.pmm n ↔ Allocatable memmap l.pmm n := fun n => by
    simp only [Allocatable, storesBitmap_congr haddr hmax]
  refine ⟨h.kept.congr haddr hmax ?_, ?_, ?_, ?_⟩
  · intro q hq
    obtain ⟨hlt, htest⟩ := h.kept.inUse q hq
    rcases hpages q with ⟨hsame, _⟩ | ⟨hpage, _⟩
    · exact ⟨by rwa [hmax], (hsame hlt).trans htest⟩
    · exact absurd hq hpage.2.2
  · intro n hn
    obtain ⟨hlt, hclear⟩ := hn
    rw [hmax] at hlt
    rcases hpages n with ⟨hsame, hheld, _⟩ | ⟨hpage, ⟨_, hz⟩ | ⟨huse, _⟩⟩
    · obtain ⟨hpage, hz⟩ := h.free n ⟨hlt, (hsame hlt).symm.trans hclear⟩
      exact ⟨(halloc n).mpr hpage, hheld.trans hz⟩
    · exact ⟨(halloc n).mpr hpage, hz⟩
    · cases huse.2.symm.trans hclear
  · intro n hn
    rcases hpages n with ⟨hsame, hheld, _⟩ | ⟨hpage, ⟨_, hz⟩ | ⟨huse, _⟩⟩
    · obtain ⟨hpage, hlt, huse⟩ := h.inUse n (hheld ▸ hn)
      exact ⟨(halloc n).mpr hpage, by rwa [hmax], (hsame hlt).trans huse⟩
    · exact absurd hz hn
    · exact ⟨(halloc n).mpr hpage, huse⟩
  · intro n hn hlow
    rcases hpages n with ⟨_, hheld, hnum⟩ | ⟨_, ⟨_, hz⟩ | ⟨_, hnum⟩⟩
    · rw [hnum, hheld]
      exact h.exact n (hheld ▸ hn) hlow
    · exact absurd hz hn
    · exact hnum hn hlow

/-- Taking a free block with one reference on each page. -/
theorem taken_exclusive {i c : ℕ} (htaken : TakenBlock l.pmm i c s')
    (hfree : ∀ j < c, IsFree l.pmm (i + j)) :
    Exclusive memmap ⟨s', fun n => if i ≤ n ∧ n < i + c then l.held n + 1 else l.held n⟩ := by
  refine h.of_pages htaken.bitmapAddr htaken.maxPageIndex fun n => ?_
  by_cases hin : i ≤ n ∧ n < i + c
  · have hn := hfree (n - i) (by omega)
    rw [show i + (n - i) = n by omega] at hn
    obtain ⟨hpage, hheld⟩ := h.free n hn
    refine .inr ⟨hpage, .inr ⟨⟨by rw [htaken.maxPageIndex]; exact hn.1, ?_⟩, fun _ hlow => ?_⟩⟩
    · simp [htaken.test n hn.1, hin]
    · simp [htaken.refcount n, hin, hlow, hheld]
  · refine .inl ⟨fun hlt => ?_, if_neg hin, ?_⟩
    · simp [htaken.test n hlt, hin]
    · simp [htaken.refcount n, hin]

theorem returned_exclusive {p : ℕ} (hheld : l.held p ≠ 0) (hret : Returned l.pmm p s')
    (hnum : ∀ n, n ≠ p → s'.pageRefcount n = l.pmm.pageRefcount n) :
    Exclusive memmap ⟨s', update l.held p 0⟩ := by
  obtain ⟨hpage, huse⟩ := h.inUse p hheld
  refine h.of_pages hret.bitmapAddr hret.maxPageIndex fun n => ?_
  by_cases hne : n = p
  · subst n
    refine .inr ⟨hpage, .inl ⟨⟨by rw [hret.maxPageIndex]; exact huse.1, ?_⟩, update_self ..⟩⟩
    simp [hret.test]
  · refine .inl ⟨fun _ => ?_, update_of_ne hne .., hnum n hne⟩
    simp [hret.test, hne]

/-- A change of one page's count and of its ledger entry only. -/
theorem recounted_exclusive {p k : ℕ} (hheld : l.held p ≠ 0) (hbitmap : s'.bitmap = l.pmm.bitmap)
    (haddr : s'.bitmapAddr = l.pmm.bitmapAddr) (hmax : s'.maxPageIndex = l.pmm.maxPageIndex)
    (hnum : ∀ n, n ≠ p → s'.pageRefcount n = l.pmm.pageRefcount n)
    (hp : k ≠ 0 → p < maxPages → (s'.pageRefcount p).toNat = k) :
    Exclusive memmap ⟨s', update l.held p k⟩ := by
  obtain ⟨hpage, huse⟩ := h.inUse p hheld
  refine h.of_pages haddr hmax fun n => ?_
  by_cases hne : n = p
  · subst n
    refine .inr ⟨hpage, .inr ⟨by simpa only [InUse, hbitmap, hmax] using huse, ?_⟩⟩
    simpa only [update_self] using hp
  · exact .inl ⟨fun _ => by rw [hbitmap], update_of_ne hne .., hnum n hne⟩

theorem freePage_exclusive (phys : UInt64) (hsole : l.held (pageOf phys) = 1) :
    Exclusive memmap ⟨pmmFreePage l.pmm phys, update l.held (pageOf phys) 0⟩ := by
  have hheld : l.held (pageOf phys) ≠ 0 := by omega
  obtain ⟨hpage, huse⟩ := h.inUse _ hheld
  rcases pmmFreePage_cases l.pmm phys with ⟨_, hz | hfree⟩ | ⟨_, _, hret, hnum⟩
  · exact absurd hz hpage.2.1
  · exact absurd huse hfree
  · refine returned_exclusive h hheld hret ?_
    intro n hne
    simp [hnum n, hne]

end

theorem blockPage_injective (phys : UInt64) {i j : ℕ} (hi : i < 2 ^ 52) (hj : j < 2 ^ 52)
    (h : blockPage phys i = blockPage phys j) : i = j := by
  have hround : ∀ k < 2 ^ 52, (phys + UInt64.ofNat k * pmmPageSize).toNat =
      (phys.toNat + k * 4096) % 2 ^ 64 := by
    intro k hk
    simp [pmmPageSize]
  simp only [blockPage, pageOf_eq, hround i hi, hround j hj] at h
  omega

section

variable (h : Exclusive memmap l)
include h

theorem freePages_exclusive (phys count : UInt64) (hnum : count.toNat < 2 ^ 52)
    (hsole : ∀ i < count.toNat, l.held (blockPage phys i) = 1) :
    Exclusive memmap ⟨pmmFreePages l.pmm phys count,
    forUpTo (fun i held => update held (blockPage phys i) 0) count.toNat l.held⟩ := by
  -- the rounds still to come find their pages held once: the block has no page twice
  have hrounds : ∀ c, c ≤ count.toNat → Exclusive memmap
        ⟨forUpTo (fun i s => pmmFreePage s (phys + UInt64.ofNat i * pmmPageSize)) c l.pmm,
        forUpTo (fun i held => update held (blockPage phys i) 0) c l.held⟩ ∧
      ∀ i, c ≤ i → i < count.toNat →
        forUpTo (fun i held => update held (blockPage phys i) 0) c l.held
          (blockPage phys i) = 1 := by
    intro c
    induction c with
    | zero => exact fun _ => ⟨h, fun i _ hi => hsole i hi⟩
    | succ c ih =>
      intro hc
      obtain ⟨hexcl, hrest⟩ := ih (by omega)
      refine ⟨freePage_exclusive hexcl _ (hrest c le_rfl (by omega)), ?_⟩
      intro i hci hi
      rw [forUpTo_succ, update_of_ne]
      · exact hrest i (by omega) hi
      · intro heq
        have := blockPage_injective phys (by omega) (by omega) heq
        omega
  exact (hrounds count.toNat le_rfl).1

theorem pageRef_exclusive
    (phys : UInt64) (hheld : 0 < l.held (pageOf phys)) (hfew : l.held (pageOf phys) < 65535) :
    Exclusive memmap ⟨pmmPageRef l.pmm phys, update l.held (pageOf phys)
      (l.held (pageOf phys) + 1)⟩ := by
  have hne : l.held (pageOf phys) ≠ 0 := by omega
  by_cases hbig : pageOf phys ≥ maxPages
  · have hsame : pmmPageRef l.pmm phys = l.pmm := by simp [pmmPageRef, hbig]
    rw [hsame]
    exact recounted_exclusive h hne rfl rfl rfl (fun _ _ => rfl) fun _ hlow => by omega
  · have hexact := h.exact _ hne (by omega)
    have hstate : pmmPageRef l.pmm phys = { l.pmm with
        pageRefcount := update l.pmm.pageRefcount (pageOf phys)
          (l.pmm.pageRefcount (pageOf phys) + 1) } := by
      simp [pmmPageRef, hbig]
    rw [hstate]
    refine recounted_exclusive h hne rfl rfl rfl ?_ ?_
    · intro n hn
      simp [hn]
    · intro _ _
      simp only [update_self]
      rw [UInt16.toNat_add, hexact]
      exact Nat.mod_eq_of_lt (by simp; omega)

theorem pageUnref_exclusive
    (phys : UInt64) (hheld : 0 < l.held (pageOf phys)) : Exclusive memmap ⟨pmmPageUnref l.pmm phys,
    update l.held (pageOf phys) (l.held (pageOf phys) - 1)⟩ := by
  have hne : l.held (pageOf phys) ≠ 0 := by omega
  obtain ⟨hpage, huse⟩ := h.inUse _ hne
  rcases pmmPageUnref_cases l.pmm phys with ⟨hsame, hwhy⟩ | ⟨hlow, _, _, hnum, hcases⟩
  · rw [hsame]
    refine recounted_exclusive h hne rfl rfl rfl (fun _ _ => rfl) ?_
    intro _ hlow
    have hexact := h.exact _ hne hlow
    rcases hwhy with hbig | hz | hnone
    · omega
    · exact absurd hz hpage.2.1
    · rw [hnone] at hexact
      simp at hexact
      omega
  · have hexact := h.exact _ hne hlow
    have hcount' : ∀ n, n ≠ pageOf phys → (pmmPageUnref l.pmm phys).pageRefcount n =
        l.pmm.pageRefcount n := by
      intro n hn
      rw [hnum, update_of_ne hn]
    rcases hcases with ⟨hone, _, hret⟩ | ⟨hmore, hbitmap, haddr, hmax, _, _⟩
    · have hsole : l.held (pageOf phys) - 1 = 0 := by
        rw [hone] at hexact
        simp at hexact
        omega
      rw [hsole]
      exact returned_exclusive h hne hret hcount'
    · refine recounted_exclusive h hne hbitmap haddr hmax hcount' ?_
      intro _ _
      rw [hnum, update_self, UInt16.toNat_sub_of_le, hexact]
      · rfl
      · rw [UInt16.le_iff_toNat_le, hexact]
        exact hheld

theorem step_exclusive {l' : Ledger} (hstep : Step l l') : Exclusive memmap l' := by
  have hmax := l.pmm.maxPageIndex_lt
  cases hstep with
  | allocPage =>
    rcases pmmAllocPage_cases h.kept with ⟨hfail, _⟩ | ⟨i, hpos, hfree, haddr, htaken⟩
    · simpa [hfail] using h
    · have hi : i < 2 ^ 52 := by
        have := hfree.1
        omega
      have hexcl := taken_exclusive h htaken (fun j hj => by
        obtain rfl : j = 0 := by omega
        exact hfree)
      have hone : ∀ n, (i ≤ n ∧ n < i + 1) ↔ n = i := by
        intro n
        omega
      simp only [hone] at hexcl
      simpa [haddr, pageAddr_ne_zero hpos hi, pageOf_pageAddr hi] using hexcl
  | allocPages count hnum =>
    rcases pmmAllocPages_cases h.kept count hnum with
      hfail | ⟨i, hpos, hcpos, hfree, haddr, htaken⟩
    · simpa [hfail] using h
    · have hi : i < 2 ^ 52 := by
        have := (hfree 0 (by omega)).1
        omega
      have hexcl := taken_exclusive h htaken hfree
      simpa [haddr, pageAddr_ne_zero hpos hi, pageOf_pageAddr hi] using hexcl
  | freePage phys hsole => exact freePage_exclusive h phys hsole
  | freePages phys count hnum hsole => exact freePages_exclusive h phys count hnum hsole
  | pageRef phys hheld hfew => exact pageRef_exclusive h phys hheld hfew
  | pageUnref phys hheld => exact pageUnref_exclusive h phys hheld

end

def Grantable (memmap : List MemmapEntry) (l : Ledger) (n : ℕ) : Prop :=
  Allocatable memmap l.pmm n ∧ l.held n = 0

theorem allocPage_grantable (h : Exclusive memmap l)
    (hsome : (pmmAllocPage l.pmm).2 ≠ 0) : Grantable memmap l (pageOf (pmmAllocPage l.pmm).2) := by
  rcases pmmAllocPage_cases h.kept with ⟨hfail, _⟩ | ⟨i, hpos, hfree, haddr, _⟩
  · exact absurd (by rw [hfail]) hsome
  · have hi : i < 2 ^ 52 := hfree.1.trans l.pmm.maxPageIndex_lt
    rw [haddr, pageOf_pageAddr hi]
    exact h.free i hfree

theorem allocPages_grantable (h : Exclusive memmap l)
    (count : UInt64) (hnum : count.toNat < 2 ^ 52) (hsome : (pmmAllocPages l.pmm count).2 ≠ 0) :
    ∀ j < count.toNat, Grantable memmap l (pageOf (pmmAllocPages l.pmm count).2 + j) := by
  rcases pmmAllocPages_cases h.kept count hnum with hfail | ⟨i, hpos, hcpos, hfree, haddr, _⟩
  · exact absurd (by rw [hfail]) hsome
  · intro j hj
    have hi : i < 2 ^ 52 := by
      have := (hfree 0 (by omega)).1
      have := l.pmm.maxPageIndex_lt
      omega
    rw [haddr, pageOf_pageAddr hi]
    exact h.free (i + j) (hfree j hj)

/-- In every run that follows the reference protocol, a page returned by either allocation
function lies in a usable entry, is neither page 0 nor the bitmap's, and is held by nobody at that
moment. -/
theorem pmm_exclusivity {memmap : List MemmapEntry} (hmap : UsableMap memmap) (memory : Bytes) :
    ∃ s₀, pmmInit memory memmap = some s₀ ∧ ∀ l, Reachable Step (Ledger.boot s₀) l →
      ((pmmAllocPage l.pmm).2 ≠ 0 → Grantable memmap l (pageOf (pmmAllocPage l.pmm).2)) ∧
      ∀ count : UInt64, count.toNat < 2 ^ 52 → (pmmAllocPages l.pmm count).2 ≠ 0 →
        ∀ j, j < count.toNat → Grantable memmap l (pageOf (pmmAllocPages l.pmm count).2 + j) := by
  obtain ⟨s₀, hinit, hbooted⟩ := pmmInit_booted hmap memory
  refine ⟨s₀, hinit, fun l hrun => ?_⟩
  have hexcl : Exclusive memmap l :=
    Reachable.invariant (Exclusive memmap) (fun _ _ ha hstep => step_exclusive ha hstep)
      (boot_exclusive hbooted) hrun
  exact ⟨allocPage_grantable hexcl, fun count hnum hsome =>
    allocPages_grantable hexcl count hnum hsome⟩

def smallLedger : Ledger :=
  ⟨(pmmAllocPage smallBoot).1, fun n =>
    if (pmmAllocPage smallBoot).2 ≠ 0 ∧ n = pageOf (pmmAllocPage smallBoot).2 then
      (Ledger.boot smallBoot).held n + 1
    else (Ledger.boot smallBoot).held n⟩

theorem pmm_exclusivity_smallLedger :
    UsableMap smallMap ∧ (pmmAllocPage smallLedger.pmm).2 = 0x3000 ∧
    Grantable smallMap smallLedger (pageOf (pmmAllocPage smallLedger.pmm).2) := by
  refine ⟨smallMap_usable, by decide, ?_⟩
  obtain ⟨s₀, hinit, hrun⟩ := pmm_exclusivity smallMap_usable fun _ => 0
  obtain rfl : smallBoot = s₀ := Option.some.inj ((Option.some_get _).trans hinit)
  exact (hrun smallLedger (.single (Step.allocPage _))).1 (by decide)

end NexusKernel.PmmExclusivity
