import NexusKernel.Mapping
import NexusKernel.Cloning
import NexusKernel.Destruction
import NexusKernel.Lib.Sharing
import Mathlib.Algebra.BigOperators.Group.Finset.Piecewise

/-!
All address spaces at once. `Wf` is the invariant of their memory: no table page serves twice,
user pages are in use and no tables, and are shared as the reference counts say. Every operation
of vmm.c on the user half keeps it, also when allocations fail.
-/

namespace NexusKernel.AddressSpaces

open Lib.TableTree Lib.Sharing PhysicalMemory PageAllocation PageEntries Hardware Function
open PageSupply Vmm Walks Mapping Destruction Lib.Loops

abbrev userTables (m : Machine) (r : ℕ) : Set ℕ := tables x86 m.ram 3 256 r

def slotOf (e : UInt64) : Slot ℕ where
  target := if present e && user e then some (frame e) else none
  write := writable e

def slots (live : Finset ℕ) : Finset (ℕ × List ℕ) := live ×ˢ userPaths

def slotAt (m : Machine) (x : ℕ × List ℕ) : Slot ℕ := slotOf (leaf m x.1 x.2)

/-- The user leaves in live address spaces that map page `f`, counted. -/
def mappings (m : Machine) (live : Finset ℕ) (f : ℕ) : ℕ := users (slots live) (slotAt m) f

/-- The memory of the address spaces in `live`. The pages in `resv` belong to others, as the
bitmap or the kernel tables. -/
structure Wf (m : Machine) (live : Finset ℕ) (resv : Set ℕ) : Prop where
  sane : Sane m
  tree : ∀ r ∈ live, TreeOk m 3 256 r
  apart : ∀ r ∈ live, ∀ t ∈ live, r ≠ t → Disjoint (userTables m r) (userTables m t)
  nonzero : ∀ r ∈ live, 0 ∉ userTables m r
  leaves : ∀ r ∈ live, ∀ l ∈ userPaths, present (leaf m r l) = true →
    user (leaf m r l) = true ∧ InUse m.pmm (frame (leaf m r l)) ∧ frame (leaf m r l) ≠ 0 ∧
      frame (leaf m r l) ∉ resv ∧ ∀ t ∈ live, frame (leaf m r l) ∉ userTables m t
  reserved : ∀ q ∈ resv, InUse m.pmm q ∧ ∀ r ∈ live, q ∉ userTables m r
  bitmap : ∀ q, StoresBitmap m.pmm q → q ∈ resv
  shared : Shared (slots live) (slotAt m) (fun f => (m.pmm.pageRefcount f).toNat) (· < maxPages)

variable {m m' : Machine} {live : Finset ℕ} {resv : Set ℕ} {r t f : ℕ} {l : List ℕ} {write : Bool}

theorem mem_slots : (r, l) ∈ slots live ↔ r ∈ live ∧ l ∈ userPaths := Finset.mem_product

theorem slotOf_target {e : UInt64} {f : ℕ} :
    (slotOf e).target = some f ↔ present e = true ∧ user e = true ∧ frame e = f := by
  simp only [slotOf]
  split
  · rename_i h
    simp only [Bool.and_eq_true] at h
    simp [h]
  · rename_i h
    simp only [Bool.and_eq_true] at h
    simp only [reduceCtorEq, false_iff]
    exact fun hall => h ⟨hall.1, hall.2.1⟩

theorem mapsUser_iff {e : UInt64} {f : ℕ} : mapsUser e f = true ↔ (slotOf e).target = some f := by
  rw [slotOf_target, mapsUser]
  simp [and_assoc]

theorem refs_eq_users (m : Machine) (r f : ℕ) : refs m.ram 3 256 r f = users ({r} ×ˢ userPaths)
    (slotAt m) f := by
  unfold refs users
  rw [Finset.card_filter, Finset.sum_product, Finset.sum_singleton]
  apply Finset.sum_congr rfl
  intro l _
  cases h : mapsUser (leafAt x86 m.ram r l) f with
  | true =>
    rw [if_pos]
    · rfl
    · exact mapsUser_iff.mp h
  | false =>
    rw [if_neg]
    · rfl
    · intro htgt
      have hmaps : mapsUser (leafAt x86 m.ram r l) f = true := mapsUser_iff.mpr htgt
      cases h.symm.trans hmaps

theorem refs_le_mappings (hr : r ∈ live) (f : ℕ) : refs m.ram 3 256 r f ≤ mappings m live f := by
  rw [refs_eq_users, mappings, users_sdiff (S := slots live) (T := {r} ×ˢ userPaths)]
  · omega
  · exact Finset.product_subset_product_left (Finset.singleton_subset_iff.mpr hr)

section

variable (h : Wf m live resv)
include h

/-- A mapped page is in use and serves no other purpose. -/
theorem Wf.mapped (hf : 0 < mappings m live f) :
    InUse m.pmm f ∧ f ≠ 0 ∧ f ∉ resv ∧ ∀ t ∈ live, f ∉ userTables m t := by
  obtain ⟨⟨r, l⟩, hx, htgt⟩ := exists_of_users_pos hf
  obtain ⟨hr, hl⟩ := mem_slots.mp hx
  obtain ⟨hpres, _, rfl⟩ := slotOf_target.mp htgt
  exact (h.leaves r hr l hl hpres).2

theorem Wf.unmapped_of_free (hf : IsFree m.pmm f) : mappings m live f = 0 := by
  by_contra hpos
  exact hf.not_inUse (h.mapped (Nat.pos_of_ne_zero hpos)).1

/-- Writing only to the tables of one address space leaves the trees of the others alone. -/
theorem Wf.agree_other (hr : r ∈ live) (helse : ∀ q, InUse m.pmm q → q ∉ userTables m r →
      m'.ram q = m.ram q) : ∀ t ∈ live, t ≠ r → Agree x86 m.ram m'.ram 3 256 t := by
  intro t ht hne
  apply agree_of_tables
  intro q hq
  apply helse q ((h.tree t ht).inUse q hq)
  exact Set.disjoint_left.mp (h.apart t ht r hr hne) hq

variable {x : ℕ × List ℕ}

/-- If only the leaf at `l` of `r` may have changed, all others are as before. -/
theorem Wf.leaf_other (hr : r ∈ live) (helse : ∀ q, InUse m.pmm q → q ∉ userTables m r →
      m'.ram q = m.ram q) (hleaves : ∀ k ∈ userPaths, k ≠ l → leaf m' r k = leaf m r k)
    (hx : x ∈ slots live) (hne : x ≠ (r, l)) : leaf m' x.1 x.2 = leaf m x.1 x.2 := by
  obtain ⟨ht, hk⟩ := mem_slots.mp hx
  by_cases htr : x.1 = r
  · rw [htr]
    exact hleaves x.2 hk fun hkl => hne (Prod.ext htr hkl)
  · exact (h.agree_other hr helse _ ht htr).leafAt_eq hk

/-- A page mapped writable has no other mapping. -/
theorem Wf.frame_ne {k : List ℕ} (hr : r ∈ live) (hl : l ∈ userPaths)
    (hpres : present (leaf m r l) = true) (hwrite : writable (leaf m r l) = true) (ht : t ∈ live)
    (hk : k ∈ userPaths) (hpres' : present (leaf m t k) = true) (hne : (t, k) ≠ (r, l)) :
    frame (leaf m t k) ≠ frame (leaf m r l) := by
  intro heq
  have htgt : (slotAt m (r, l)).target = some (frame (leaf m r l)) :=
    slotOf_target.mpr ⟨hpres, (h.leaves r hr l hl hpres).1, rfl⟩
  have htgt' : (slotAt m (t, k)).target = some (frame (leaf m r l)) :=
    slotOf_target.mpr ⟨hpres', (h.leaves t ht k hk hpres').1, heq⟩
  have hone := h.shared.alone (r, l) (mem_slots.mpr ⟨hr, hl⟩) hwrite _ htgt
  exact hne (eq_of_users_le_one (le_of_eq hone) (mem_slots.mpr ⟨ht, hk⟩)
    (mem_slots.mpr ⟨hr, hl⟩) htgt' htgt)

end

theorem stores_of_grows (hgrows : Grows m m') {q : ℕ} (hq : StoresBitmap m'.pmm q) :
    StoresBitmap m.pmm q := (storesBitmap_congr hgrows.bitmapAddr hgrows.maxPageIndex).mp hq

/-- An operation that only takes pages keeps the invariant if its new tables come from free pages
and belong to one tree, `x`, and user pages are those mapped before or free pages that became no
tables. -/
theorem Wf.extend (h : Wf m live resv) {live' : Finset ℕ} (x : ℕ) (hgrows : Grows m m')
    (htree : ∀ r ∈ live', TreeOk m' 3 256 r) (htabs : ∀ r ∈ live', ∀ q ∈ userTables m' r,
      (r ∈ live ∧ q ∈ userTables m r) ∨ (r = x ∧ IsFree m.pmm q))
    (hleaves : ∀ r ∈ live', ∀ l ∈ userPaths, present (leaf m' r l) = true →
      user (leaf m' r l) = true ∧ (0 < mappings m live (frame (leaf m' r l)) ∨
          (IsFree m.pmm (frame (leaf m' r l)) ∧ InUse m'.pmm (frame (leaf m' r l)) ∧
            ∀ t ∈ live', frame (leaf m' r l) ∉ userTables m' t)))
    (hshared : Shared (slots live') (slotAt m') (fun f => (m'.pmm.pageRefcount f).toNat)
      (· < maxPages)) : Wf m' live' resv := by
  refine ⟨h.sane.grows hgrows, htree, ?_, ?_, ?_, ?_,
    fun q hq => h.bitmap q (stores_of_grows hgrows hq), hshared⟩
  · intro r hr t ht hrt
    rw [Set.disjoint_left]
    intro q hqr hqt
    rcases htabs r hr q hqr with ⟨hrl, hold⟩ | ⟨hrx, hfree⟩
    · rcases htabs t ht q hqt with ⟨htl, hold'⟩ | ⟨-, hfree⟩
      · exact Set.disjoint_left.mp (h.apart r hrl t htl hrt) hold hold'
      · exact hfree.not_inUse ((h.tree r hrl).inUse q hold)
    · rcases htabs t ht q hqt with ⟨htl, hold⟩ | ⟨htx, -⟩
      · exact hfree.not_inUse ((h.tree t htl).inUse q hold)
      · exact hrt (hrx.trans htx.symm)
  · intro r hr hz
    rcases htabs r hr 0 hz with ⟨hrl, hold⟩ | ⟨-, hfree⟩
    · exact h.nonzero r hrl hold
    · exact hfree.not_inUse h.sane.zero
  · intro r hr l hl hpres
    obtain ⟨huser, hmap | ⟨hfree, huse, hout⟩⟩ := hleaves r hr l hl hpres
    · obtain ⟨huse, hpos, hresv, hout⟩ := h.mapped hmap
      refine ⟨huser, hgrows.inUse _ huse, hpos, hresv, ?_⟩
      intro t ht hmem
      rcases htabs t ht _ hmem with ⟨htl, hold⟩ | ⟨-, hfree⟩
      · exact hout t htl hold
      · exact hfree.not_inUse huse
    · exact ⟨huser, huse, h.sane.ne_zero_of_isFree hfree,
        fun hresv => hfree.not_inUse (h.reserved _ hresv).1, hout⟩
  · intro q hq
    obtain ⟨huse, hout⟩ := h.reserved q hq
    refine ⟨hgrows.inUse q huse, ?_⟩
    intro r hr hmem
    rcases htabs r hr q hmem with ⟨hrl, hold⟩ | ⟨-, hfree⟩
    · exact hout r hrl hold
    · exact hfree.not_inUse huse

theorem Wf.mapped_leaf (h : Wf m live resv) (hr : r ∈ live) (hl : l ∈ userPaths)
    (hpres : present (leaf m r l) = true) : 0 < mappings m live (frame (leaf m r l)) :=
  users_pos (mem_slots.mpr ⟨hr, hl⟩) (slotOf_target.mpr ⟨hpres, (h.leaves r hr l hl hpres).1, rfl⟩)

theorem Wf.user_mapped (h : Wf m live resv) (hr : r ∈ live) (hl : l ∈ userPaths)
    (hpres : present (leaf m r l) = true)
    {P : Prop} : user (leaf m r l) = true ∧ (0 < mappings m live (frame (leaf m r l)) ∨ P) :=
  ⟨(h.leaves r hr l hl hpres).1, .inl (h.mapped_leaf hr hl hpres)⟩

structure Created (m : Machine) (z : ℕ) (m' : Machine) : Prop where
  free : IsFree m.pmm z
  grows : Grows m m'
  inUse_iff : ∀ q, InUse m'.pmm q ↔ InUse m.pmm q ∨ q = z
  refcount : ∀ q, q ≠ z → m'.pmm.pageRefcount q = m.pmm.pageRefcount q
  other : ∀ q, q ≠ z → m'.ram q = m.ram q
  userHalf : ∀ i, i < 256 → m'.ram z i = 0
  kernelHalf : frame m.cr3 ≠ z → ∀ i, 256 ≤ i → i < 512 → m'.ram z i = m.ram (frame m.cr3) i
  oom : m'.oom = m.oom
  granted : (budget m).granted = true
  budget : budget m' = (budget m).spend

variable {virt : UInt64} {z : ℕ}

/-- `n` iterations write entries 256 to `256 + n` of the new table and nothing else. -/
private theorem copyKernelHalf_loop (hz : z < 2 ^ 52) (m : Machine) (cur : UInt64) (n : ℕ) :
    let m' := forUpTo (fun k m =>
      m.setEntry (pageAddr z) (256 + k) (m.entry cur (256 + k))) n m
    m' = { m with ram := m'.ram } ∧ (∀ q, q ≠ z → m'.ram q = m.ram q) ∧
      (∀ i, i < 256 ∨ 256 + n ≤ i → m'.ram z i = m.ram z i) ∧
      (pageOf cur ≠ z → ∀ k < n, m'.ram z (256 + k) = m.ram (pageOf cur) (256 + k)) := by
  induction n with
  | zero =>
    refine ⟨rfl, fun _ _ => rfl, fun _ _ => rfl, ?_⟩
    intro _ k hk
    omega
  | succ n ih =>
    rw [forUpTo_succ]
    generalize forUpTo (fun k m =>
      m.setEntry (pageAddr z) (256 + k) (m.entry cur (256 + k))) n m = m₁ at ih ⊢
    obtain ⟨hm₁, hother, hkeep, hcopied⟩ := ih
    have hram : (m₁.setEntry (pageAddr z) (256 + n) (m₁.entry cur (256 + n))).ram = update m₁.ram z
          (update (m₁.ram z) (256 + n) (m₁.ram (pageOf cur) (256 + n))) := setEntry_ram hz
    refine ⟨?_, ?_, ?_, ?_⟩
    · rw [hm₁]
      rfl
    · intro q hq
      rw [hram, update_of_ne hq]
      exact hother q hq
    · intro i hi
      rw [hram, update_self, update_of_ne (by omega)]
      exact hkeep i (by omega)
    · intro hne k hk
      rw [hram, update_self]
      by_cases hlast : k = n
      · subst k
        rw [update_self]
        exact congrFun (hother _ hne) _
      · rw [update_of_ne (by omega)]
        exact hcopied hne k (by omega)

theorem vmmCloneKernelSpace_cases (hs : Sane m) :
    ((vmmCloneKernelSpace m).2 = 0 ∧ Refused m (vmmCloneKernelSpace m).1) ∨
    ∃ z, (vmmCloneKernelSpace m).2 = pageAddr z ∧ pageAddr z ≠ 0 ∧
      Created m z (vmmCloneKernelSpace m).1 := by
  unfold vmmCloneKernelSpace
  rcases pmmAllocPage_cases hs with ⟨hzero, href⟩ | ⟨z, haddr, hne, hnew⟩
  · refine .inl ⟨?_, ?_⟩
    · simp [hzero]
    · simpa [hzero] using href
  · have hz : z < 2 ^ 52 := by
      have := hs.lt_of_isFree hnew.free
      omega
    refine .inr ⟨z, ?_, hne, ?_⟩
    · simp [haddr, hne]
    · simp only [haddr, hne, if_false, copyKernelHalf]
      obtain ⟨heq, hother, hkeep, hcopied⟩ :=
        copyKernelHalf_loop hz m.pmmAllocPage.1 m.pmmAllocPage.1.currentPml4 256
      have hcur : pageOf m.pmmAllocPage.1.currentPml4 = frame m.cr3 := by
        simp only [Machine.currentPml4, hnew.cr3]
        rfl
      rw [hcur] at hcopied
      refine ⟨hnew.free, ?_, ?_, ?_, ?_, ?_, ?_, ?_, hnew.granted, ?_⟩
      · rw [heq]
        exact hnew.grows.write _
      · rw [heq]
        exact fun q => hnew.inUse_iff
      · rw [heq]
        exact fun q hq => hnew.refcount_of_ne hq
      · intro q hq
        exact (hother q hq).trans (hnew.ram_of_ne hq)
      · intro i hi
        exact (hkeep i (.inl hi)).trans (hnew.ram_self i)
      · intro hcz i hlow hhigh
        have := hcopied hcz (i - 256) (by omega)
        rw [show 256 + (i - 256) = i by omega] at this
        exact this.trans (congrFun (hnew.ram_of_ne hcz) i)
      · rw [heq]
        exact hnew.oom
      · rw [heq]
        exact hnew.budget

theorem slots_insert (z : ℕ) (live : Finset ℕ) :
    slots (insert z live) = slots live ∪ {z} ×ˢ userPaths := by
  rw [slots, slots, ← Finset.union_product, Finset.union_comm, Finset.insert_eq]

theorem slots_disjoint (hz : z ∉ live) : Disjoint (slots live) ({z} ×ˢ userPaths) :=
  Finset.disjoint_product.mpr (.inl (Finset.disjoint_singleton_right.mpr hz))

theorem Wf.not_live_of_free (h : Wf m live resv) (hz : IsFree m.pmm z) : z ∉ live :=
  fun hlive => hz.not_inUse (h.tree z hlive).root

/-- No leaf of an old address space changes, and the new one has none. -/
theorem Created.old_leaf (hc : Created m z m') (h : Wf m live resv) (hr : r ∈ live)
    (hl : l ∈ userPaths) : leaf m' r l = leaf m r l := by
  have hagree : Agree x86 m.ram m'.ram 3 256 r := by
    apply agree_of_tables
    intro q hq
    apply hc.other q
    intro heq
    subst q
    exact hc.free.not_inUse ((h.tree r hr).inUse z hq)
  exact hagree.leafAt_eq hl

/-- An address space with an empty user half maps nothing. -/
theorem target_of_blank (hblank : ∀ i < 256, m.ram r i = 0)
    (hx : x ∈ ({r} ×ˢ userPaths : Finset (ℕ × List ℕ))) : (slotAt m x).target = none := by
  obtain ⟨hxr, hxl⟩ := Finset.mem_product.mp hx
  rw [Finset.mem_singleton] at hxr
  have hz : leaf m r x.2 = 0 := leafAt_of_blank hblank hxl
  rw [slotAt, hxr, hz]
  rfl

theorem users_of_blank (hblank : ∀ i < 256, m.ram r i = 0) (a : ℕ) :
    users ({r} ×ˢ userPaths) (slotAt m) a = 0 := by
  by_contra hpos
  obtain ⟨x, hx, hxa⟩ := exists_of_users_pos (Nat.pos_of_ne_zero hpos)
  rw [target_of_blank hblank hx] at hxa
  cases hxa

section

variable (h : Wf m live resv)
include h

theorem Wf.created (hc : Created m z m') : Wf m' (insert z live) resv := by
  have hzlive := h.not_live_of_free hc.free
  have hne : ∀ q, InUse m.pmm q → q ≠ z := fun _ => hc.free.ne
  have hagree : ∀ r ∈ live, Agree x86 m.ram m'.ram 3 256 r := fun r hr =>
    agree_of_tables (fun q hq => hc.other q (hne q ((h.tree r hr).inUse q hq)))
  have hztables : userTables m' z = {z} := tables_of_blank hc.userHalf
  have hzleaf : ∀ l ∈ userPaths, leaf m' z l = 0 := fun l hl => leafAt_of_blank hc.userHalf hl
  apply h.extend z hc.grows
  · intro r hr
    rcases Finset.mem_insert.mp hr with rfl | hr
    · refine ⟨proper_of_blank hc.userHalf, ?_⟩
      intro q hq
      exact (hc.inUse_iff q).mpr (.inr (hztables.subset hq))
    · exact (h.tree r hr).agree (hagree r hr) hc.grows.inUse
  · intro r hr q hq
    rcases Finset.mem_insert.mp hr with rfl | hr
    · obtain rfl : q = r := hztables.subset hq
      exact .inr ⟨rfl, hc.free⟩
    · exact .inl ⟨hr, (hagree r hr).tables_eq.subset hq⟩
  · intro r hr l hl hpres
    rcases Finset.mem_insert.mp hr with rfl | hr
    · rw [hzleaf l hl] at hpres
      simp at hpres
    · rw [hc.old_leaf h hr hl] at hpres ⊢
      exact h.user_mapped hr hl hpres
  · rw [slots_insert]
    apply h.shared.copy (slots_disjoint hzlive)
    · intro x hx
      obtain ⟨hr, hl⟩ := mem_slots.mp hx
      rw [slotAt, hc.old_leaf h hr hl]
      exact ⟨rfl, id⟩
    · exact fun y hy _ => target_of_blank hc.userHalf hy
    · intro y hy a ha
      rw [target_of_blank hc.userHalf hy] at ha
      cases ha
    · intro a _ ha
      rw [users_of_blank hc.userHalf, hc.refcount a (hne a (h.mapped ha).1)]
      omega

/-- The tables stay, no page is given back, and pages that are taken may be reserved. -/
theorem Wf.transfer {resv' : Set ℕ} (hlayout : SameLayout m.pmm m'.pmm)
    (huse : ∀ q, InUse m.pmm q → InUse m'.pmm q)
    (hagree : ∀ r ∈ live, Agree x86 m.ram m'.ram 3 256 r)
    (hsubset : resv ⊆ resv') (hnew : ∀ q ∈ resv', q ∈ resv ∨ (IsFree m.pmm q ∧ InUse m'.pmm q))
    (hshared : Shared (slots live) (slotAt m') (fun f => (m'.pmm.pageRefcount f).toNat)
      (· < maxPages)) : Wf m' live resv' := by
  have htabs : ∀ r ∈ live, userTables m' r = userTables m r := fun r hr => (hagree r hr).tables_eq
  have hleaf : ∀ r ∈ live, ∀ l ∈ userPaths, leaf m' r l = leaf m r l := fun r hr l hl =>
    (hagree r hr).leafAt_eq hl
  refine ⟨?_, ?_, ?_, ?_, ?_, ?_, ?_, hshared⟩
  · apply h.sane.keeps hlayout.bitmapAddr hlayout.maxPageIndex (huse 0 h.sane.zero)
    exact fun q hq => huse q (h.sane.kept.inUse q hq)
  · exact fun r hr => (h.tree r hr).agree (hagree r hr) huse
  · intro r hr t ht hne
    rw [htabs r hr, htabs t ht]
    exact h.apart r hr t ht hne
  · intro r hr
    rw [htabs r hr]
    exact h.nonzero r hr
  · intro r hr l hl hpres
    rw [hleaf r hr l hl] at hpres ⊢
    obtain ⟨huser, hframe, hne, hout, htable⟩ := h.leaves r hr l hl hpres
    refine ⟨huser, huse _ hframe, hne, ?_, fun t ht => ?_⟩
    · intro hmem
      rcases hnew _ hmem with hmem | ⟨hfree, _⟩
      · exact hout hmem
      · exact hfree.not_inUse hframe
    · rw [htabs t ht]
      exact htable t ht
  · intro q hq
    rcases hnew q hq with hq | ⟨hfree, hused⟩
    · refine ⟨huse q (h.reserved q hq).1, fun r hr => ?_⟩
      rw [htabs r hr]
      exact (h.reserved q hq).2 r hr
    · refine ⟨hused, fun r hr hmem => ?_⟩
      rw [htabs r hr] at hmem
      exact hfree.not_inUse ((h.tree r hr).inUse q hmem)
  · exact fun q hq => hsubset
      (h.bitmap q ((storesBitmap_congr hlayout.bitmapAddr hlayout.maxPageIndex).mp hq))

/-- An operation beside the address spaces: their tables and counts stay. -/
theorem Wf.beside {resv' : Set ℕ} (hlayout : SameLayout m.pmm m'.pmm)
    (huse : ∀ q, InUse m.pmm q → InUse m'.pmm q)
    (hagree : ∀ r ∈ live, Agree x86 m.ram m'.ram 3 256 r)
    (hnum : ∀ f < maxPages, 0 < mappings m live f → m'.pmm.pageRefcount f = m.pmm.pageRefcount f)
    (hsubset : resv ⊆ resv')
    (hnew : ∀ q ∈ resv', q ∈ resv ∨ (IsFree m.pmm q ∧ InUse m'.pmm q)) : Wf m' live resv' := by
  refine h.transfer hlayout huse hagree hsubset hnew
    (h.shared.mono (fun x hx => ?_) fun f hf hpos => ?_)
  · obtain ⟨hr, hl⟩ := mem_slots.mp hx
    exact congrArg slotOf ((hagree _ hr).leafAt_eq hl)
  · rw [hnum f hf hpos]

theorem Wf.of_eq (hram : m'.ram = m.ram) (hpmm : m'.pmm = m.pmm) : Wf m' live resv := by
  refine h.beside ?_ (fun q hq => ?_) (fun r _ => ?_)
    (fun f _ _ => ?_) subset_rfl fun q hq => .inl hq
  · rw [hpmm]
    exact ⟨rfl, rfl⟩
  · rwa [hpmm]
  · exact agree_of_tables fun q _ => congrFun hram q
  · rw [hpmm]

theorem Wf.deny (ds : List Bool) : Wf (denying m ds) live resv := h.of_eq rfl rfl

end

structure PageMapped (m : Machine) (r : ℕ) (l : List ℕ) (f : ℕ) (write : Bool) (m' : Machine) :
    Prop where
  free : IsFree m.pmm f
  inUse : InUse m'.pmm f
  grows : Grows m m'
  elsewhere : ∀ q, InUse m.pmm q → q ∉ userTables m r → m'.ram q = m.ram q
  kernelHalf : ∀ i, 256 ≤ i → m'.ram r i = m.ram r i
  added : ∀ q ∈ userTables m' r, q ∈ userTables m r ∨ (IsFree m.pmm q ∧ InUse m'.pmm q ∧ q ≠ f)
  proper : Proper x86 UpperGood m'.ram 3 256 r
  leaves : ∀ k ∈ userPaths, k ≠ l → leaf m' r k = leaf m r k
  mapped : leaf m' r l = leafEntry (pageAddr f) (userFlags write) ∨
    (m'.oom = true ∧ leaf m r l = 0 ∧ leaf m' r l = 0)
  refcount : ∀ q, InUse m.pmm q → m'.pmm.pageRefcount q = m.pmm.pageRefcount q
  counted : f < maxPages → m'.pmm.pageRefcount f = 1

/-- Mapping a page after it was taken and perhaps filled. -/
theorem mapAt_pageMapped {m₁ m₂ : Machine} (hs : Sane m) (htree : TreeOk m 3 256 r)
    (hl : l ∈ userPaths) (write : Bool) (hnew : Fresh m f m₁) (hgrows : Grows m m₂)
    (hpmm : m₂.pmm = m₁.pmm) (hram : ∀ q, q ≠ f → m₂.ram q = m₁.ram q) :
    let m' := mapAt (leafEntry (pageAddr f) (userFlags write)) l m₂ (pageAddr r)
    PageMapped m r l f write m' ∧ m'.ram f = m₂.ram f := by
  have hne : ∀ q, InUse m.pmm q → q ≠ f := fun q hq => hnew.ne_of_inUse hq
  have hsame : ∀ q, InUse m.pmm q → m₂.ram q = m.ram q := fun q hq =>
    (hram q (hne q hq)).trans (hnew.ram_of_ne (hne q hq))
  have hagree : Agree x86 m.ram m₂.ram 3 256 r :=
    agree_of_tables fun q hq => hsame q (htree.inUse q hq)
  have htabs : userTables m₂ r = userTables m r := hagree.tables_eq
  have hf₂ : InUse m₂.pmm f := by
    rw [hpmm]
    exact hnew.inUse
  have hfout : f ∉ userTables m₂ r := by
    rw [htabs]
    exact fun hf => hnew.free.not_inUse (htree.inUse f hf)
  have hmap := mapAt_mapped (leafEntry (pageAddr f) (userFlags write)) (hs.grows hgrows)
    (htree.agree hagree hgrows.inUse) hl
  refine ⟨⟨hnew.free, hmap.grows.inUse f hf₂, hgrows.trans hmap.grows, ?_, ?_, ?_, hmap.proper,
    ?_, ?_, ?_, ?_⟩, hmap.elsewhere f hf₂ hfout⟩
  · intro q hq hout
    rw [hmap.elsewhere q (hgrows.inUse q hq) (by rwa [← htabs] at hout)]
    exact hsame q hq
  · intro i hi
    rw [hmap.rest i hi]
    exact congrFun (hsame r htree.root) i
  · intro q hq
    rcases hmap.added q hq with hq | ⟨hfree, huse⟩
    · exact .inl (htabs.subset hq)
    · refine .inr ⟨hgrows.isFree hfree, huse, ?_⟩
      intro heq
      subst q
      exact hfree.not_inUse hf₂
  · intro k hk hkl
    exact (hmap.leaves k hk hkl).trans (hagree.leafAt_eq hk)
  · rcases hmap.mapped with hdone | ⟨hoom, hpre, hafter⟩
    · exact .inl hdone
    · exact .inr ⟨hoom, (hagree.leafAt_eq hl).symm.trans hpre, hafter⟩
  · intro q hq
    rw [hmap.refcount q (hgrows.inUse q hq), hpmm, hnew.refcount_of_ne (hne q hq)]
  · intro hf
    rw [hmap.refcount f hf₂, hpmm, hnew.refcount_self hf]

theorem PageMapped.restoreCr3 {c : UInt64} (h : PageMapped (m.writeCr3 c) r l f write m') :
    PageMapped m r l f write (m'.writeCr3 m.cr3) :=
  ⟨h.free, h.inUse, h.grows.restoreCr3, h.elsewhere, h.kernelHalf, h.added, h.proper, h.leaves,
    h.mapped, h.refcount, h.counted⟩

theorem currentPml4_eq {q : ℕ} (hq : q < 2 ^ 40) (hcr3 : m.cr3 = pageAddr q) :
    m.currentPml4 = pageAddr q := by
  rw [Machine.currentPml4, hcr3, pageAddr_and_addrMask hq]

/-- `map_user_page` finds no page, or takes one and maps it. -/
theorem mapUserPage_fresh (hs : Sane m) (hr : InUse m.pmm r) (virt flags : UInt64) :
    Refused m (mapUserPage m (pageAddr r) virt flags) ∨
    ∃ f m₁, Fresh (m.writeCr3 (pageAddr r)) f m₁ ∧ mapUserPage m (pageAddr r) virt flags =
      (mapAt (leafEntry (pageAddr f) flags) (pathOf virt) m₁ (pageAddr r)).writeCr3 m.cr3 := by
  unfold mapUserPage
  rcases pmmAllocPage_cases (hs.writeCr3 (pageAddr r)) with ⟨hz, href⟩ | ⟨f, haddr, hne, hnew⟩
  · simp only [hz, if_true]
    exact .inl ⟨href.ram, href.pmm, href.oom, rfl, href.heap, href.denied, href.budget⟩
  · have hcur := currentPml4_eq (hs.lt_of_inUse hr) hnew.cr3
    simp only [haddr, hne, if_false, vmmMapPage_eq, hcur]
    exact .inr ⟨f, _, hnew, rfl⟩

section

variable (hs : Sane m) (htree : TreeOk m 3 256 r) (hvirt : pml4Index virt < 256)
include hs htree hvirt

/-- `map_user_page` finds no page, or maps a cleared one. -/
theorem mapUserPage_cleared (write : Bool) :
    let m' := mapUserPage m (pageAddr r) virt (userFlags write)
    Refused m m' ∨ ∃ f, PageMapped m r (pathOf virt) f write m' ∧ m'.ram f = fun _ => 0 := by
  rcases mapUserPage_fresh hs htree.root virt (userFlags write) with href | ⟨f, m₁, hnew, heq⟩
  · exact .inl href
  · obtain ⟨hmap, hsame⟩ :=
      mapAt_pageMapped (hs.writeCr3 (pageAddr r)) ⟨htree.proper, htree.inUse⟩ (pathOf_mem hvirt)
      write hnew hnew.grows rfl (fun _ _ => rfl)
    rw [heq]
    refine .inr ⟨f, hmap.restoreCr3, hsame.trans ?_⟩
    rw [hnew.ram]
    exact update_self _ _ _

theorem mapUserPage_cases (write : Bool) :
    let m' := mapUserPage m (pageAddr r) virt (userFlags write)
    Refused m m' ∨ ∃ f, PageMapped m r (pathOf virt) f write m' := by
  rcases mapUserPage_cleared hs htree hvirt write with href | ⟨f, hmap, _⟩
  · exact .inl href
  · exact .inr ⟨f, hmap⟩

/-- A page mapped where there was none was not the last one: there was also one for every missing
table. -/
theorem mapUserPage_needs (flags : UInt64) (habs : present (leaf m r (pathOf virt)) = false)
    (hpres : present (leaf (mapUserPage m (pageAddr r) virt flags) r (pathOf virt)) = true) :
    missing x86 m.ram r (pathOf virt) < (budget m).free := by
  rcases mapUserPage_fresh hs htree.root virt flags with href | ⟨f, m₁, hnew, heq⟩
  · rw [leaf, href.ram] at hpres
    cases habs.symm.trans hpres
  · obtain ⟨hagree, htree₁⟩ := fresh_tree hnew htree rfl rfl
    rw [heq] at hpres
    have hneeds := mapAt_needs _ ((hs.writeCr3 _).grows hnew.grows) htree₁ (pathOf_mem hvirt) hpres
    rw [hagree.missing_eq (pathOf_mem hvirt)] at hneeds
    have hspent : (budget m).free = _ := (Budget.free_of_granted hnew.granted hnew.budget).1
    omega

/-- With a page for the leaf and for every level, the page gets mapped. -/
theorem mapUserPage_affords (write : Bool) (hoom : m.oom = false) {k : ℕ} (h : Affords m (k + 4)) :
    let m' := mapUserPage m (pageAddr r) virt (userFlags write)
    ∃ f, PageMapped m r (pathOf virt) f write m' ∧
      leaf m' r (pathOf virt) = leafEntry (pageAddr f) (userFlags write) ∧ Affords m' k ∧
      m'.oom = false := by
  have h' : Affords (m.writeCr3 (pageAddr r)) (k + 4) := ⟨h.denials, h.free⟩
  intro m'
  rcases mapUserPage_cases hs htree hvirt write with href | ⟨f, hmap⟩
  · exact absurd href h.not_refused
  · rcases mapUserPage_fresh hs htree.root virt (userFlags write) with href | ⟨g, m₁, hnew, heq⟩
    · exact absurd href h.not_refused
    · have hrest : Affords m₁ (3 + k) := (h'.of_spend hnew.granted hnew.budget).mono (by omega)
      obtain ⟨_, hoom', haff⟩ := mapAt_affords (leafEntry (pageAddr g) (userFlags write))
        (pml4Index virt) ((hs.writeCr3 _).grows hnew.grows) (pageAddr r)
        (l := [pdptIndex virt, pdIndex virt, ptIndex virt]) hrest
      have hnot : m'.oom = false := by
        change (mapUserPage m (pageAddr r) virt (userFlags write)).oom = false
        rw [heq]
        exact hoom'.trans (hnew.oom.trans hoom)
      have hrest' : Affords m' k := by
        change Affords (mapUserPage m (pageAddr r) virt (userFlags write)) k
        rw [heq]
        exact ⟨haff.denials, haff.free⟩
      refine ⟨f, hmap, ?_, hrest', hnot⟩
      rcases hmap.mapped with hdone | ⟨hfull, _⟩
      · exact hdone
      · cases hnot.symm.trans hfull

end

section

variable (h : PageMapped m r l f write m')
include h

theorem PageMapped.leafEntry_spec (hs : Sane m) :
    let e := leafEntry (pageAddr f) (userFlags write)
    present e = true ∧ writable e = write ∧ user e = true ∧ frame e = f := by
  have hlt := hs.lt_of_isFree h.free
  obtain ⟨hpres, hwr, huser, hframe⟩ := PageEntries.leafEntry_spec (pageAddr f) write
  rw [pageAddr_and_addrMask hlt, pageOf_pageAddr (by omega)] at hframe
  exact ⟨hpres, hwr, huser, hframe⟩

theorem PageMapped.done (hpres : present (leaf m r l) = true) :
    leaf m' r l = leafEntry (pageAddr f) (userFlags write) := by
  rcases h.mapped with hdone | ⟨_, hz, _⟩
  · exact hdone
  · rw [hz] at hpres
    simp at hpres

theorem PageMapped.target (hs : Sane m)
    (hdone : leaf m' r l = leafEntry (pageAddr f) (userFlags write)) :
    (slotAt m' (r, l)).target = some f := by
  obtain ⟨hpres, _, huser, hframe⟩ := h.leafEntry_spec hs
  rw [slotAt, hdone]
  exact slotOf_target.mpr ⟨hpres, huser, hframe⟩

end

/-- Mapping a fresh page keeps the invariant, also over a page mapped before. -/
theorem Wf.pageMapped (h : Wf m live resv) (hr : r ∈ live) (hl : l ∈ userPaths)
    (hmap : PageMapped m r l f write m') : Wf m' live resv := by
  obtain ⟨_, _, huser, hframe⟩ := hmap.leafEntry_spec h.sane
  have hagree := h.agree_other hr hmap.elsewhere
  have hold : ∀ t ∈ live, ∀ q ∈ userTables m' t, q ∈ userTables m t ∨
      (t = r ∧ IsFree m.pmm q ∧ InUse m'.pmm q ∧ q ≠ f) := by
    intro t ht q hq
    by_cases htr : t = r
    · subst t
      rcases hmap.added q hq with hq | hq
      · exact .inl hq
      · exact .inr ⟨rfl, hq⟩
    · exact .inl ((hagree t ht htr).tables_eq.subset hq)
  have hfout : ∀ t ∈ live, f ∉ userTables m' t := by
    intro t ht hf
    rcases hold t ht f hf with hf | ⟨_, _, _, hne⟩
    · exact hmap.free.not_inUse ((h.tree t ht).inUse f hf)
    · exact hne rfl
  apply h.extend r hmap.grows
  · intro t ht
    by_cases htr : t = r
    · subst t
      refine ⟨hmap.proper, ?_⟩
      intro q hq
      rcases hmap.added q hq with hq | ⟨_, huse, _⟩
      · exact hmap.grows.inUse q ((h.tree r hr).inUse q hq)
      · exact huse
    · exact (h.tree t ht).agree (hagree t ht htr) hmap.grows.inUse
  · intro t ht q hq
    rcases hold t ht q hq with hq | ⟨htr, hfree, _⟩
    · exact .inl ⟨ht, hq⟩
    · exact .inr ⟨htr, hfree⟩
  · intro t ht k hk hpr
    -- Every other leaf is as before; the one at `l` is the new entry or, like before, blank.
    by_cases hx : (t, k) = (r, l)
    · cases hx
      rcases hmap.mapped with hdone | ⟨_, _, hafter⟩
      · rw [hdone, hframe]
        exact ⟨huser, .inr ⟨hmap.free, hmap.inUse, hfout⟩⟩
      · rw [hafter] at hpr
        simp at hpr
    · rw [h.leaf_other hr hmap.elsewhere hmap.leaves (mem_slots.mpr ⟨ht, hk⟩) hx] at hpr ⊢
      exact h.user_mapped ht hk hpr
  · have hnum : ∀ a < maxPages, 0 < users (slots live) (slotAt m) a →
        m'.pmm.pageRefcount a = m.pmm.pageRefcount a := fun a _ ha =>
      hmap.refcount a (h.mapped ha).1
    have hsame : ∀ y ∈ slots live, y ≠ (r, l) → slotAt m' y = slotAt m y :=
      fun y hy hne => congrArg slotOf (h.leaf_other hr hmap.elsewhere hmap.leaves hy hne)
    rcases hmap.mapped with hdone | ⟨_, hpre, hafter⟩
    · apply h.shared.retarget (mem_slots.mpr ⟨hr, hl⟩) hsame (hmap.target h.sane hdone)
        (h.unmapped_of_free hmap.free)
      · intro hf
        rw [hmap.counted hf]
        decide
      · intro a ha _ hpos
        rw [hnum a ha hpos]
        omega
    · refine h.shared.mono (fun y hy => ?_) fun a ha hpos => ?_
      · by_cases hx : y = (r, l)
        · rw [hx, slotAt, slotAt, hpre, hafter]
        · exact hsame y hy hx
      · rw [hnum a ha hpos]

end NexusKernel.AddressSpaces
