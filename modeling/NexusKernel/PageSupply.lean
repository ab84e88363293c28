import NexusKernel.Hardware

/-!
What an allocation does to the machine. A page handed out was free, is cleared and in use
afterwards, and nothing else changes; a refused allocation leaves memory alone. `Grows` is what
every sequence of allocations keeps, whatever is written in between.
-/

namespace NexusKernel.PageSupply

open PhysicalMemory PageAllocation Hardware Bitmap Function

/-- The allocator's own pages and page 0 are in use, and every managed page fits a page-table
entry. -/
structure Sane (m : Machine) : Prop where
  kept : BitmapKept m.pmm
  zero : InUse m.pmm 0
  width : m.pmm.maxPageIndex.toNat ≤ 2 ^ 40

structure Grows (m m' : Machine) : Prop where
  bitmapAddr : m'.pmm.bitmapAddr = m.pmm.bitmapAddr
  maxPageIndex : m'.pmm.maxPageIndex = m.pmm.maxPageIndex
  inUse : ∀ q, InUse m.pmm q → InUse m'.pmm q
  oom : m.oom = true → m'.oom = true
  cr3 : m'.cr3 = m.cr3
  heap : m'.heap = m.heap

theorem Grows.refl (m : Machine) : Grows m m := ⟨rfl, rfl, fun _ h => h, id, rfl, rfl⟩

theorem Grows.trans {a b c : Machine} (h : Grows a b) (h' : Grows b c) : Grows a c where
  bitmapAddr := h'.bitmapAddr.trans h.bitmapAddr
  maxPageIndex := h'.maxPageIndex.trans h.maxPageIndex
  inUse := fun q hq => h'.inUse q (h.inUse q hq)
  oom := fun ho => h'.oom (h.oom ho)
  cr3 := h'.cr3.trans h.cr3
  heap := h'.heap.trans h.heap

variable {m m' : Machine} {q : ℕ}

/-- A section run under another root and ended by restoring the old one. -/
theorem Grows.restoreCr3 {c : UInt64} (h : Grows (m.writeCr3 c) m') : Grows m (m'.writeCr3 m.cr3) :=
  ⟨h.bitmapAddr, h.maxPageIndex, h.inUse, h.oom, rfl, h.heap⟩

theorem Grows.write (h : Grows m m') (ram : Lib.TableTree.Store UInt64) :
    Grows m { m' with ram := ram } := ⟨h.bitmapAddr, h.maxPageIndex, h.inUse, h.oom, h.cr3, h.heap⟩

theorem Grows.not_oom (h : Grows m m') (ho : m'.oom = false) : m.oom = false := by
  cases hm : m.oom with
  | false => rfl
  | true => exact absurd (h.oom hm) (by simp [ho])

theorem Sane.congr (hs : Sane m) (hpmm : m'.pmm = m.pmm) : Sane m' :=
  ⟨hpmm ▸ hs.kept, hpmm ▸ hs.zero, hpmm ▸ hs.width⟩

theorem Sane.writeCr3 (hs : Sane m) (cr3 : UInt64) : Sane (m.writeCr3 cr3) := hs.congr rfl

theorem Sane.keeps (hs : Sane m) (haddr : m'.pmm.bitmapAddr = m.pmm.bitmapAddr)
    (hmax : m'.pmm.maxPageIndex = m.pmm.maxPageIndex) (hz : InUse m'.pmm 0)
    (huse : ∀ q, StoresBitmap m.pmm q → InUse m'.pmm q) : Sane m' :=
  ⟨hs.kept.congr haddr hmax huse, hz, hmax ▸ hs.width⟩

theorem Sane.grows (hs : Sane m) (h : Grows m m') : Sane m' :=
  hs.keeps h.bitmapAddr h.maxPageIndex (h.inUse 0 hs.zero) fun q hq => h.inUse q
    (hs.kept.inUse q hq)

theorem isFree_of_not_inUse (hq : q < m.pmm.maxPageIndex.toNat) (h : ¬ InUse m.pmm q) :
    IsFree m.pmm q := by
  refine ⟨hq, ?_⟩
  simpa [InUse, hq] using h

theorem Grows.isFree (h : Grows m m') (hq : IsFree m'.pmm q) : IsFree m.pmm q := by
  apply isFree_of_not_inUse
  · rw [← h.maxPageIndex]
    exact hq.1
  · exact fun hu => hq.not_inUse (h.inUse q hu)

theorem Sane.lt_of_inUse (hs : Sane m) (hq : InUse m.pmm q) : q < 2 ^ 40 :=
  lt_of_lt_of_le hq.1 hs.width

theorem Sane.lt_of_isFree (hs : Sane m) (hq : IsFree m.pmm q) : q < 2 ^ 40 :=
  lt_of_lt_of_le hq.1 hs.width

theorem Sane.ne_zero_of_isFree (hs : Sane m) (hq : IsFree m.pmm q) : q ≠ 0 := by
  intro hz
  subst q
  exact hq.not_inUse hs.zero

structure Budget where
  denials : List Bool
  free : ℕ
  deriving DecidableEq

namespace Budget

def granted (b : Budget) : Bool := b.denials.head? != some true && b.free != 0

def spend (b : Budget) : Budget := ⟨b.denials.tail, if b.granted then b.free - 1 else b.free⟩

end Budget

def budget (m : Machine) : Budget :=
  ⟨m.denials, (Bitmap.clearBits m.pmm.bitmap m.pmm.maxPageIndex.toNat).card⟩

private theorem alloc_zero_iff (hs : Sane m) : (pmmAllocPage m.pmm).2 = 0 ↔
    (budget m).free = 0 := by
  rcases PageAllocation.pmmAllocPage_cases hs.kept with ⟨hnone, hused⟩ | ⟨q, hpos, hfree, haddr, _⟩
  · have hnil : clearBits m.pmm.bitmap m.pmm.maxPageIndex.toNat = ∅ := by
      apply Finset.eq_empty_of_forall_notMem
      intro i hi
      have hfree : IsFree m.pmm i := mem_clearBits.mp hi
      exact hfree.not_inUse (hused i (Nat.pos_of_ne_zero (hs.ne_zero_of_isFree hfree)) hfree.1)
    exact ⟨fun _ => by simp [budget, hnil], fun _ => congrArg Prod.snd hnone⟩
  · have hlt := hs.lt_of_isFree hfree
    have hne := pageAddr_ne_zero hpos (by omega)
    have hpos : 0 < (budget m).free := Finset.card_pos.mpr ⟨q, mem_clearBits.mpr hfree⟩
    exact ⟨fun hz => absurd (haddr.symm.trans hz) hne, fun hnil => by omega⟩

private theorem granted_eq_false_iff (hs : Sane m) : (budget m).granted = false ↔
    (m.denials.head? = some true ∨ (pmmAllocPage m.pmm).2 = 0) := by
  rw [alloc_zero_iff hs]
  simp [Budget.granted, budget, imp_iff_not_or]

structure Fresh (m : Machine) (q : ℕ) (m' : Machine) : Prop where
  free : IsFree m.pmm q
  taken : TakenBlock m.pmm q 1 m'.pmm
  ram : m'.ram = Function.update m.ram q (fun _ => 0)
  oom : m'.oom = m.oom
  cr3 : m'.cr3 = m.cr3
  heap : m'.heap = m.heap
  granted : (budget m).granted = true
  budget : budget m' = (budget m).spend

variable {p k : ℕ}

section

variable (h : Fresh m q m')
include h

theorem Fresh.inUse_iff : InUse m'.pmm p ↔ InUse m.pmm p ∨ p = q := by
  unfold InUse
  rw [h.taken.maxPageIndex]
  constructor
  · intro hp
    obtain ⟨hlt, hbit⟩ := hp
    rw [h.taken.test p hlt, Bool.or_eq_true, decide_eq_true_iff] at hbit
    rcases hbit with hbit | hbit
    · exact .inr (by omega)
    · exact .inl ⟨hlt, hbit⟩
  · intro hp
    rcases hp with ⟨hlt, hbit⟩ | rfl
    · exact ⟨hlt, by simp [h.taken.test p hlt, hbit]⟩
    · exact ⟨h.free.1, by simp [h.taken.test p h.free.1]⟩

theorem Fresh.inUse : InUse m'.pmm q := h.inUse_iff.mpr (.inr rfl)

theorem Fresh.ne_of_inUse (hp : InUse m.pmm p) : p ≠ q := by
  intro heq
  subst p
  exact h.free.not_inUse hp

theorem Fresh.grows : Grows m m' where
  bitmapAddr := h.taken.bitmapAddr
  maxPageIndex := h.taken.maxPageIndex
  inUse := fun _ hp => h.inUse_iff.mpr (.inl hp)
  oom := fun ho => h.oom.trans ho
  cr3 := h.cr3
  heap := h.heap

theorem Fresh.ram_of_ne (hp : p ≠ q) : m'.ram p = m.ram p := by
  rw [h.ram, update_of_ne hp]

theorem Fresh.ram_self (i : ℕ) : m'.ram q i = 0 := by
  rw [h.ram, update_self]

theorem Fresh.refcount_of_ne (hp : p ≠ q) : m'.pmm.pageRefcount p = m.pmm.pageRefcount p := by
  rw [h.taken.refcount, if_neg (by omega)]

theorem Fresh.refcount_self (hq : q < maxPages) : m'.pmm.pageRefcount q = 1 := by
  rw [h.taken.refcount, if_pos ⟨by omega, hq⟩]

end

structure Refused (m m' : Machine) : Prop where
  ram : m'.ram = m.ram
  pmm : m'.pmm = m.pmm
  oom : m'.oom = true
  cr3 : m'.cr3 = m.cr3
  heap : m'.heap = m.heap
  denied : (budget m).granted = false
  budget : budget m' = (budget m).spend

theorem Refused.grows (h : Refused m m') : Grows m m' where
  bitmapAddr := by rw [h.pmm]
  maxPageIndex := by rw [h.pmm]
  inUse := by
    intro q hq
    rwa [h.pmm]
  oom := fun _ => h.oom
  cr3 := h.cr3
  heap := h.heap

theorem pmmAllocPage_cases (hs : Sane m) : (m.pmmAllocPage.2 = 0 ∧ Refused m m.pmmAllocPage.1) ∨
    ∃ q, m.pmmAllocPage.2 = pageAddr q ∧ pageAddr q ≠ 0 ∧ Fresh m q m.pmmAllocPage.1 := by
  have hdenied := granted_eq_false_iff hs
  unfold Machine.pmmAllocPage
  by_cases href : m.denials.head? = some true ∨ (pmmAllocPage m.pmm).2 = 0
  · have hno := hdenied.mpr href
    simp only [if_pos href]
    refine .inl ⟨trivial, rfl, rfl, rfl, rfl, rfl, hno, ?_⟩
    simp only [Budget.spend, hno, Bool.false_eq_true, if_false]
    rfl
  · have hyes : (budget m).granted = true := by
      rw [← Bool.not_eq_false, hdenied]
      exact href
    simp only [if_neg href]
    push Not at href
    rcases PageAllocation.pmmAllocPage_cases hs.kept with ⟨hnone, _⟩ | ⟨q, _, hfree, haddr, htaken⟩
    · exact absurd (congrArg Prod.snd hnone) href.2
    · have hlt := hs.lt_of_isFree hfree
      have hcard := card_taken htaken fun j hj => by simpa [show j = 0 by omega] using hfree
      refine .inr ⟨q, haddr, haddr ▸ href.2, hfree, htaken, ?_, rfl, rfl, rfl, hyes, ?_⟩
      · simp only [haddr, pageOf_pageAddr (show q < 2 ^ 52 by omega)]
      · simp only [Budget.spend, hyes, if_true]
        simp only [budget, Budget.mk.injEq, true_and]
        omega

/-- Where nothing is denied an allocation fails for want of pages only. -/
theorem Refused.free_eq_zero (h : Refused m m') (hden : m.denials = []) :
    (PageSupply.budget m).free = 0 := by
  simpa [Budget.granted, PageSupply.budget, hden] using h.denied

theorem Budget.free_of_granted {b b' : Budget} (hgrant : b.granted = true) (h : b' = b.spend) :
    b.free = b'.free + 1 ∧ b'.denials = b.denials.tail := by
  have hpos : b.free ≠ 0 := by
    simpa using (Bool.and_eq_true_iff.mp hgrant).2
  simp only [h, Budget.spend, hgrant, if_true, and_true]
  omega

structure Affords (m : Machine) (k : ℕ) : Prop where
  denials : m.denials = []
  free : k ≤ (budget m).free

section

variable {n : ℕ} (hbitmap : m.pmm.bitmap = fullBytes n)

include hbitmap

theorem sane_of_fullBytes (hpos : 0 < n) (hn : 8 * n ≤ m.pmm.maxPageIndex.toNat)
    (halign : m.pmm.bitmapAddr.toNat % 4096 = 0)
    (hpages : pageOf m.pmm.bitmapAddr + (bitmapPagesOf m.pmm.maxPageIndex).toNat ≤ 8 * n)
    (hwidth : m.pmm.maxPageIndex.toNat ≤ 2 ^ 40) : Sane m := by
  have hused : ∀ q < 8 * n, InUse m.pmm q := by
    intro q hq
    exact ⟨by omega, by rw [hbitmap, test_fullBytes, decide_eq_true hq]⟩
  refine ⟨⟨halign, ?_⟩, hused 0 (by omega), hwidth⟩
  intro q hq
  exact hused q (hq.2.trans_le hpages)

theorem free_of_fullBytes : (budget m).free = m.pmm.maxPageIndex.toNat - 8 * n := by
  have hclear : clearBits m.pmm.bitmap m.pmm.maxPageIndex.toNat =
      Finset.Ico (8 * n) m.pmm.maxPageIndex.toNat := by
    ext q
    rw [mem_clearBits, hbitmap, test_fullBytes, Finset.mem_Ico, decide_eq_false_iff_not]
    omega
  rw [budget, hclear, Nat.card_Ico]

theorem affords_of_fullBytes (hden : m.denials = []) :
    Affords m (m.pmm.maxPageIndex.toNat - 8 * n) := ⟨hden, (free_of_fullBytes hbitmap).ge⟩

end

theorem Affords.mono {j : ℕ} (h : Affords m k) (hj : j ≤ k) : Affords m j :=
  ⟨h.denials, hj.trans h.free⟩

theorem Affords.congr (h : Affords m k) (hpmm : m'.pmm = m.pmm)
    (hden : m'.denials = m.denials) : Affords m' k := by
  refine ⟨hden.trans h.denials, ?_⟩
  simpa only [budget, hpmm] using h.free

theorem Affords.granted (h : Affords m (k + 1)) : (budget m).granted = true := by
  have hfree := h.free
  simp only [Budget.granted, budget, h.denials, List.head?_nil, Bool.and_eq_true, bne_iff_ne,
    ne_eq, reduceCtorEq, not_false_eq_true, true_and] at hfree ⊢
  omega

theorem Affords.not_refused (h : Affords m (k + 1)) : ¬ Refused m m' :=
  fun href => Bool.noConfusion (href.denied.symm.trans h.granted)

theorem pmmAllocPage_dry (hs : Sane m) (hfree : (budget m).free = 0) :
    m.pmmAllocPage.2 = 0 ∧ Refused m m.pmmAllocPage.1 := by
  rcases pmmAllocPage_cases hs with ⟨hz, href⟩ | ⟨f, _, _, hnew⟩
  · exact ⟨hz, href⟩
  · have hgrant := hnew.granted
    simp [Budget.granted, hfree] at hgrant

theorem Affords.of_spend (h : Affords m (k + 1)) (hgrant : (budget m).granted = true)
    (hbudget : budget m' = (budget m).spend) : Affords m' k := by
  have hden := congrArg Budget.denials hbudget
  have hfree := congrArg Budget.free hbudget
  have henough := h.free
  simp only [Budget.spend, hgrant, if_true] at hden hfree
  refine ⟨?_, by omega⟩
  change (budget m').denials = []
  rw [hden]
  change m.denials.tail = []
  rw [h.denials, List.tail_nil]

end NexusKernel.PageSupply
