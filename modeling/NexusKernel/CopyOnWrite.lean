import NexusKernel.AddressSpaces

/-!
`vmm_cow_clone`, `cow_handle_fault` and `vmm_destroy_address_space` on whole address spaces: what
each does to the leaves, and that each keeps the invariant. The clone needs room in the 16-bit
reference counts.
-/

namespace NexusKernel.CopyOnWrite

open Lib.TableTree Lib.Sharing PhysicalMemory PageAllocation PageEntries Hardware
open PageSupply Vmm Walks Mapping Cloning Destruction AddressSpaces Function
open Finset (mem_erase mem_insert mem_of_mem_erase mem_product mem_singleton)

variable {m m' : Machine} {live : Finset ℕ} {resv : Set ℕ} {r z f : ℕ} {l : List ℕ}

/-- `m'` is `m` with a copy-on-write clone of `r` at `z`, less what lies behind refused tables. -/
structure SpaceCloned (m : Machine) (r z : ℕ) (m' : Machine) : Prop where
  free : IsFree m.pmm z
  grows : Grows m m'
  elsewhere : ∀ q, InUse m.pmm q → q ∉ userTables m r → m'.ram q = m.ram q
  oldTables : userTables m' r = userTables m r
  oldProper : Proper x86 UpperGood m'.ram 3 256 r
  newTables : ∀ q ∈ userTables m' z, IsFree m.pmm q ∧ InUse m'.pmm q
  newProper : Proper x86 UpperGood m'.ram 3 256 z
  leaves : ∀ l ∈ userPaths, ClonedLeaf (leaf m r l) (leaf m' r l) (leaf m' z l)
  complete : m'.oom = false → ∀ l ∈ userPaths, present (leaf m r l) = true →
    leaf m' z l = cowEntry (leaf m r l)
  gaps : m'.oom = false → ∀ l ∈ userPaths, missing x86 m'.ram z l = missing x86 m'.ram r l
  oldGaps : ∀ l ∈ userPaths, missing x86 m'.ram r l = missing x86 m.ram r l
  refcount : ∀ f, InUse m.pmm f → f < maxPages →
    m'.pmm.pageRefcount f = m.pmm.pageRefcount f + UInt16.ofNat (refs m'.ram 3 256 z f)

variable {m₁ : Machine} {x : ℕ × List ℕ}

theorem clonePre_of_created {Good : UInt64 → Prop} (hs : Sane m)
    (htree : TreeIn Good m 3 256 r) (hmade : Created m z m₁) :
    Agree x86 m.ram m₁.ram 3 256 r ∧ ClonePre Good 3 256 m₁ r z := by
  have hagree : Agree x86 m.ram m₁.ram 3 256 r := by
    apply agree_of_tables
    intro q hq
    apply hmade.other q
    intro heq
    subst q
    exact hmade.free.not_inUse (htree.inUse z hq)
  refine ⟨hagree, hs.grows hmade.grows, htree.agree hagree hmade.grows.inUse,
    (hmade.inUse_iff z).mpr (.inr rfl), hmade.userHalf, ?_⟩
  intro hz
  exact hmade.free.not_inUse (htree.inUse z (hagree.tables_eq.subset hz))

theorem spaceCloned (hs : Sane m) (htree : TreeOk m 3 256 r) (hmade : Created m z m₁) :
    SpaceCloned m r z (cloneTable vmmClonePdpt 256 m₁ (pageAddr r) (pageAddr z)) := by
  have hne : ∀ q, InUse m.pmm q → q ≠ z := fun _ => hmade.free.ne
  obtain ⟨hagree, hpre⟩ := clonePre_of_created hs htree hmade
  have htabs : userTables m₁ r = userTables m r := hagree.tables_eq
  have hclone := cloneTable_cloned vmmClonePdpt_cloned hpre
  refine ⟨hmade.free, hmade.grows.trans hclone.grows, ?_,
    hclone.oldTables.trans htabs, hclone.oldProper, ?_, hclone.newProper, ?_, ?_,
    fun hoom => hclone.gaps (fun _ => ⟨hoom, fun _ hgood => hgood.1⟩),
    fun l hl => (hclone.oldGaps l hl).trans (hagree.missing_eq hl), ?_⟩
  · intro q hq hout
    rw [hclone.elsewhere q (hmade.grows.inUse q hq) (hne q hq) (by rwa [← htabs] at hout)]
    exact hmade.other q (hne q hq)
  · intro q hq
    rcases hclone.newTables q hq with rfl | ⟨hfree, huse⟩
    · exact ⟨hmade.free, hclone.grows.inUse q ((hmade.inUse_iff q).mpr (.inr rfl))⟩
    · exact ⟨hmade.grows.isFree hfree, huse⟩
  · intro l hl
    have hcloned := hclone.leaves l hl
    rwa [show leaf m₁ r l = leaf m r l from hagree.leafAt_eq hl] at hcloned
  · intro hoom l hl hpres
    have hcloned := hclone.complete (fun _ => ⟨hoom, fun _ hgood => hgood.1⟩) l hl
    rw [show leaf m₁ r l = leaf m r l from hagree.leafAt_eq hl] at hcloned
    exact hcloned hpres
  · intro f hf hmax
    rw [hclone.refcount f (hmade.grows.inUse f hf) hmax, hmade.refcount f (hne f hf)]

theorem vmmCowClone_cases (hs : Sane m) (htree : TreeOk m 3 256 r) :
    ((vmmCowClone m (pageAddr r)).2 = 0 ∧ Refused m (vmmCowClone m (pageAddr r)).1) ∨
    ∃ z, (vmmCowClone m (pageAddr r)).2 = pageAddr z ∧ pageAddr z ≠ 0 ∧
      SpaceCloned m r z (vmmCowClone m (pageAddr r)).1 := by
  unfold vmmCowClone
  rcases vmmCloneKernelSpace_cases hs with ⟨hz, href⟩ | ⟨z, haddr, hne, hmade⟩
  · refine .inl ⟨?_, ?_⟩
    · simp [hz]
    · simpa [hz] using href
  · refine .inr ⟨z, ?_, hne, ?_⟩
    · simp [haddr, hne]
    · simp only [haddr, hne, if_false]
      exact spaceCloned hs htree hmade

theorem slotOf_cowEntry (e : UInt64) : (slotOf (cowEntry e)).target = (slotOf e).target ∧
    ((slotOf (cowEntry e)).write = true → user e = false ∧ (slotOf e).write = true) := by
  obtain ⟨hp, hu, hf, hw⟩ := cowEntry_spec e
  constructor
  · simp only [slotOf, hp, hu, hf]
  · simp only [slotOf, hw, Bool.and_eq_true, Bool.not_eq_true']
    exact And.symm

theorem refs_clone_le (hc : SpaceCloned m r z m') (f : ℕ) :
    refs m'.ram 3 256 z f ≤ refs m.ram 3 256 r f := by
  apply Finset.sum_le_sum
  intro l hl
  rcases hc.leaves l hl with ⟨hnew, _⟩ | ⟨_, _, hnew⟩
  · change (mapsUser (leaf m' z l) f).toNat ≤ _
    rw [hnew]
    simp [mapsUser]
  · change (mapsUser (leaf m' z l) f).toNat ≤ _
    rw [hnew, mapsUser_cowEntry]

def Room (m : Machine) (live : Finset ℕ) (z : ℕ) (m' : Machine) : Prop :=
  ∀ f, f < maxPages → 0 < mappings m live f →
    (m.pmm.pageRefcount f).toNat + refs m'.ram 3 256 z f < 65536

section

variable (hc : SpaceCloned m r z m')
include hc

theorem SpaceCloned.refcount_toNat (hf : InUse m.pmm f) (hmax : f < maxPages)
    (hroom : (m.pmm.pageRefcount f).toNat + refs m'.ram 3 256 z f < 65536) :
    (m'.pmm.pageRefcount f).toNat = (m.pmm.pageRefcount f).toNat + refs m'.ram 3 256 z f := by
  rw [hc.refcount f hf hmax, UInt16.toNat_add, UInt16.toNat_ofNat']
  omega

section

variable (h : Wf m live resv) (hr : r ∈ live) (hx : x ∈ slots live)
include h hr hx

/-- The leaves of existing address spaces name what they named, and lose at most their write
permission. -/
theorem SpaceCloned.old_leaf :
    leaf m' x.1 x.2 = leaf m x.1 x.2 ∨ leaf m' x.1 x.2 = cowEntry (leaf m x.1 x.2) := by
  obtain ⟨ht, hk⟩ := mem_slots.mp hx
  by_cases htr : x.1 = r
  · rw [htr]
    rcases hc.leaves x.2 hk with ⟨_, heq⟩ | ⟨_, heq, _⟩
    · exact .inl heq
    · exact .inr heq
  · exact .inl ((h.agree_other hr hc.elsewhere _ ht htr).leafAt_eq hk)

theorem SpaceCloned.old_target : (slotAt m' x).target = (slotAt m x).target := by
  rcases hc.old_leaf h hr hx with heq | heq
  · rw [slotAt, slotAt, heq]
  · rw [slotAt, slotAt, heq, (slotOf_cowEntry _).1]

end

/-- What a leaf of the clone names, the same leaf of the original named, and it lost its write
permission. -/
theorem SpaceCloned.new_target (hx : x ∈ ({z} ×ˢ userPaths : Finset (ℕ × List ℕ))) {a : ℕ}
    (ha : (slotAt m' x).target = some a) :
    (slotAt m (r, x.2)).target = some a ∧ (slotAt m' (r, x.2)).write = false := by
  obtain ⟨hxz, hxl⟩ := mem_product.mp hx
  rw [mem_singleton] at hxz
  rw [slotAt, hxz] at ha
  rcases hc.leaves x.2 hxl with ⟨hnew, _⟩ | ⟨_, hold, hnew⟩
  · rw [hnew] at ha
    cases ha
  · rw [hnew, (slotOf_cowEntry _).1] at ha
    obtain ⟨_, huser, _⟩ := slotOf_target.mp ha
    obtain ⟨_, _, _, hw⟩ := cowEntry_spec (leaf m r x.2)
    refine ⟨ha, ?_⟩
    simp only [slotAt, hold, slotOf, hw, huser, Bool.not_true, Bool.and_false]

end

theorem wf_cloned (h : Wf m live resv) (hr : r ∈ live) (hc : SpaceCloned m r z m')
    (hroom : Room m live z m') : Wf m' (insert z live) resv := by
  have hzlive := h.not_live_of_free hc.free
  have hagree := h.agree_other hr hc.elsewhere
  have htabs : ∀ t ∈ live, userTables m' t = userTables m t := by
    intro t ht
    by_cases htr : t = r
    · rw [htr, hc.oldTables]
    · exact (hagree t ht htr).tables_eq
  apply h.extend z hc.grows
  · intro t ht
    rcases mem_insert.mp ht with htz | htl
    · subst t
      exact ⟨hc.newProper, fun q hq => (hc.newTables q hq).2⟩
    · by_cases htr : t = r
      · subst t
        refine ⟨hc.oldProper, ?_⟩
        intro q hq
        exact hc.grows.inUse q ((h.tree r hr).inUse q (hc.oldTables.subset hq))
      · exact (h.tree t htl).agree (hagree t htl htr) hc.grows.inUse
  · intro t ht q hq
    rcases mem_insert.mp ht with htz | htl
    · subst t
      exact .inr ⟨rfl, (hc.newTables q hq).1⟩
    · exact .inl ⟨htl, (htabs t htl).subset hq⟩
  · intro t ht k hk hpres
    rcases mem_insert.mp ht with htz | htl
    · subst t
      rcases hc.leaves k hk with ⟨hnew, _⟩ | ⟨hp, _, hnew⟩
      · rw [hnew] at hpres
        simp at hpres
      · obtain ⟨_, hu, hf, _⟩ := cowEntry_spec (leaf m r k)
        rw [hnew, hu, hf]
        exact h.user_mapped hr hk hp
    · rcases hc.old_leaf h hr (mem_slots.mpr ⟨htl, hk⟩) with heq | heq
      · rw [heq] at hpres ⊢
        exact h.user_mapped htl hk hpres
      · obtain ⟨hp, hu, hf, _⟩ := cowEntry_spec (leaf m t k)
        rw [heq, hp] at hpres
        rw [heq, hu, hf]
        exact h.user_mapped htl hk hpres
  · rw [slots_insert]
    apply h.shared.copy (slots_disjoint hzlive)
    · intro x hx
      refine ⟨hc.old_target h hr hx, ?_⟩
      rcases hc.old_leaf h hr hx with heq | heq
      · rw [slotAt, heq]
        exact id
      · rw [slotAt, slotAt, heq]
        exact fun hw => ((slotOf_cowEntry _).2 hw).2
    · intro y hy hwrite
      obtain ⟨hyz, hyl⟩ := mem_product.mp hy
      rw [mem_singleton] at hyz
      rw [slotAt, hyz] at hwrite ⊢
      rcases hc.leaves y.2 hyl with ⟨hnew, _⟩ | ⟨_, _, hnew⟩
      · rw [hnew]
        rfl
      · rw [hnew] at hwrite ⊢
        obtain ⟨htgt, hback⟩ := slotOf_cowEntry (leaf m r y.2)
        rw [htgt]
        simp [slotOf, (hback hwrite).1]
    · intro y hy a ha
      have hyl := (mem_product.mp hy).2
      exact ⟨(r, y.2), mem_slots.mpr ⟨hr, hyl⟩, hc.new_target hy ha⟩
    · intro a ha hpos
      rw [hc.refcount_toNat (h.mapped hpos).1 ha (hroom a ha hpos), refs_eq_users]

/-- How a copy-on-write fault at path `l` of the loaded address space `r` can end. An unshared
page becomes writable; another is replaced by a private copy and loses a reference. -/
inductive CowOutcome (m : Machine) (r : ℕ) (l : List ℕ) : Machine → Prop where
  | absent (habs : present (leaf m r l) = false) : CowOutcome m r l m
  | granted (m' : Machine) (hpres : present (leaf m r l) = true)
      (hmax : frame (leaf m r l) < maxPages) (hone : m.pmm.pageRefcount (frame (leaf m r l)) = 1)
      (hmap : Mapped 3 256 m r l (withWrite (leaf m r l)) m') (hpmm : m'.pmm = m.pmm) :
      CowOutcome m r l m'
  | refused (m' : Machine) (hshared : frame (leaf m r l) < maxPages →
      m.pmm.pageRefcount (frame (leaf m r l)) ≠ 1) (href : Refused m m') : CowOutcome m r l m'
  | copied (m₁ : Machine) (f : ℕ) (hpres : present (leaf m r l) = true)
      (hshared : frame (leaf m r l) < maxPages → m.pmm.pageRefcount (frame (leaf m r l)) ≠ 1)
      (hmap : PageMapped m r l f true m₁) (hcopy : m₁.ram f = m.ram (frame (leaf m r l))) :
      CowOutcome m r l (m₁.pmmPageUnref (leaf m r l &&& addrMask))

theorem vmmGetPhys_pageBase (m : Machine) (virt : UInt64) : vmmGetPhys m (pageBase virt) =
    if present (leaf m (frame m.cr3) (pathOf virt)) then
      pageAddr (frame (leaf m (frame m.cr3) (pathOf virt)))
    else 0 := by
  rw [vmmGetPhys_eq, pathOf_pageBase, pageBase_offset, UInt64.or_zero, and_addrMask]

theorem frame_pageAddr {q : ℕ} (hq : q < 2 ^ 40) : frame (pageAddr q) = q := by
  rw [frame, pageAddr_and_addrMask hq, pageOf_pageAddr (by omega)]

variable {virt : UInt64}

theorem vmmFindPt_isSome (hpres : present (leaf m (frame m.cr3) (pathOf virt)) = true) :
    ∃ pt, vmmFindPt m virt = some pt ∧ m.entry pt (ptIndex virt) = leaf m (frame m.cr3)
      (pathOf virt) := by
  have hleaf := leaf_pathOf m virt
  cases hpt : vmmFindPt m virt with
  | none =>
    rw [hpt] at hleaf
    rw [hleaf] at hpres
    simp at hpres
  | some pt =>
    rw [hpt] at hleaf
    exact ⟨pt, rfl, hleaf.symm⟩

theorem mapAt_pmm {n w p : ℕ} {k : List ℕ} (e : UInt64) (hs : Sane m) (htree : TreeOk m n w p)
    (hk : k ∈ paths x86 n w) (hpres : present (leaf m p k) = true) :
    (mapAt e k m (pageAddr p)).pmm = m.pmm := by
  induction n generalizing w p k with
  | zero =>
    obtain ⟨i, _, rfl⟩ := mem_paths_zero.mp hk
    rfl
  | succ n ih =>
    obtain ⟨i, s, hi, hsp, rfl⟩ := mem_paths_succ.mp hk
    cases hc : x86.next (m.ram p i) with
    | none =>
      rw [leaf_cons_none (paths_ne_nil hsp) hc] at hpres
      simp at hpres
    | some c =>
      rw [leaf_cons_some (paths_ne_nil hsp) hc] at hpres
      have hrest := ih (htree.child hi hc) hsp hpres
      rcases vmmGetNextLevel_cases hs htree.root i with ⟨d, hd, heq⟩ | ⟨hnone, _⟩
      · obtain rfl : c = d := Option.some.inj (hc.symm.trans hd)
        rw [mapAt_cons (paths_ne_nil hsp), heq]
        exact hrest
      · rw [hc] at hnone
        cases hnone

theorem cowHandleFault_cases (hs : Sane m) (htree : TreeOk m 3 256 r) (hcr3 : m.cr3 = pageAddr r)
    (hvirt : pml4Index virt < 256) (hframe : present (leaf m r (pathOf virt)) = true →
      frame (leaf m r (pathOf virt)) ≠ 0 ∧ InUse m.pmm (frame (leaf m r (pathOf virt)))) :
    CowOutcome m r (pathOf virt) (cowHandleFault m (pageAddr r) virt) := by
  have hrlt := hs.lt_of_inUse htree.root
  have hl := pathOf_mem hvirt
  have hroot : frame m.cr3 = r := by rw [hcr3, frame_pageAddr hrlt]
  have hself : ∀ m' : Machine, m'.cr3 = pageAddr r → m'.writeCr3 (pageAddr r) = m' := by
    intro m' hm'
    rw [← hm']
    rfl
  have hphys := vmmGetPhys_pageBase m virt
  rw [hroot] at hphys
  unfold cowHandleFault
  rw [hphys]
  cases hpres : present (leaf m r (pathOf virt)) with
  | false =>
    exact CowOutcome.absent hpres
  | true =>
    obtain ⟨hpos, huse⟩ := hframe hpres
    set g := frame (leaf m r (pathOf virt))
    have hflt := hs.lt_of_inUse huse
    have hne : pageAddr g ≠ 0 := pageAddr_ne_zero (by omega) (by omega)
    have hnum : m.pmmPageRefcount (pageAddr g) = 1 ↔ g < maxPages ∧ m.pmm.pageRefcount g = 1 := by
      rw [Machine.pmmPageRefcount, pmmPageRefcount, pageOf_pageAddr (by omega)]
      split
      · exact iff_of_false (by decide) (by omega)
      · exact (and_iff_right (by omega)).symm
    simp only [if_true, hne, if_false, hcr3, hself m hcr3]
    by_cases hone : m.pmmPageRefcount (pageAddr g) = 1
    · obtain ⟨hmax, hrc⟩ := hnum.mp hone
      have hfound : present (leaf m (frame m.cr3) (pathOf virt)) = true := by rwa [hroot]
      obtain ⟨pt, hpt, hentry⟩ := vmmFindPt_isSome hfound
      rw [hroot] at hentry
      simp only [hone, if_true, hpt, hentry, setEntry_eq_mapAt hpt, currentPml4_eq hrlt hcr3]
      have hmap := mapAt_mapped (withWrite (leaf m r (pathOf virt))) hs htree hl
      rw [hself _ (hmap.grows.cr3.trans hcr3)]
      exact CowOutcome.granted _ hpres hmax hrc hmap (mapAt_pmm _ hs htree hl hpres)
    · have hshared : g < maxPages → m.pmm.pageRefcount g ≠ 1 :=
        fun hmax hrc => hone (hnum.mpr ⟨hmax, hrc⟩)
      simp only [hone, if_false]
      rcases pmmAllocPage_cases hs with ⟨hz, href⟩ | ⟨f, haddr, hfne, hnew⟩
      · simp only [hz, if_true]
        rw [hself _ (href.cr3.trans hcr3)]
        exact CowOutcome.refused _ hshared href
      · simp only [haddr, hfne, if_false]
        have hf := hs.lt_of_isFree hnew.free
        have hcopied : (m.pmmAllocPage.1.copyPage (pageAddr f) (pageAddr g)).ram =
            update m.pmmAllocPage.1.ram f (m.ram g) := by
          simp only [Machine.copyPage, pageOf_pageAddr (show f < 2 ^ 52 by omega),
            pageOf_pageAddr (show g < 2 ^ 52 by omega)]
          rw [hnew.ram_of_ne (hnew.ne_of_inUse huse)]
        have hgrows : Grows m (m.pmmAllocPage.1.copyPage (pageAddr f) (pageAddr g)) :=
          hnew.grows.write _
        rw [vmmMapPage_eq, pathOf_pageBase, currentPml4_eq hrlt (hgrows.cr3.trans hcr3)]
        obtain ⟨hmap, hcontent⟩ := mapAt_pageMapped hs htree hl true hnew hgrows rfl
          (fun q hq => by rw [hcopied, update_of_ne hq])
        rw [hcopied, update_self] at hcontent
        generalize mapAt (leafEntry (pageAddr f) (userFlags true)) (pathOf virt)
          (m.pmmAllocPage.1.copyPage (pageAddr f) (pageAddr g)) (pageAddr r) = m₁ at hmap hcontent ⊢
        rw [← and_addrMask, hself (m₁.pmmPageUnref _) (hmap.grows.cr3.trans hcr3)]
        exact CowOutcome.copied m₁ f hpres hshared hmap hcontent

theorem slotOf_withWrite (e : UInt64) : (slotOf (withWrite e)).target = (slotOf e).target := by
  obtain ⟨hp, _, hu, hf⟩ := withWrite_spec e
  simp only [slotOf, hp, hu, hf]

section

variable (h : Wf m live resv) (hr : r ∈ live)
include h hr

section

variable (hl : l ∈ userPaths) (hpres : present (leaf m r l) = true)
include hl hpres

/-- Giving write permission to the only mapping of a page. -/
theorem wf_granted (hmax : frame (leaf m r l) < maxPages)
    (hone : m.pmm.pageRefcount (frame (leaf m r l)) = 1)
    (hmap : Mapped 3 256 m r l (withWrite (leaf m r l)) m') (hpmm : m'.pmm = m.pmm) :
    Wf m' live resv := by
  obtain ⟨hpw, _, huw, hfw⟩ := withWrite_spec (leaf m r l)
  have hdone := hmap.done hpres
  have hagree := h.agree_other hr hmap.elsewhere
  have htabs : ∀ t ∈ live, userTables m' t ⊆ userTables m t := by
    intro t ht q hq
    by_cases htr : t = r
    · subst t
      rcases hmap.added q hq with hq | ⟨hfree, huse⟩
      · exact hq
      · rw [hpmm] at huse
        exact absurd huse hfree.not_inUse
    · exact (hagree t ht htr).tables_eq.subset hq
  apply h.extend r hmap.grows
  · intro t ht
    by_cases htr : t = r
    · subst t
      exact ⟨hmap.proper, fun q hq =>
        hmap.grows.inUse q ((h.tree r hr).inUse q (htabs r hr hq))⟩
    · exact (h.tree t ht).agree (hagree t ht htr) hmap.grows.inUse
  · exact fun t ht q hq => .inl ⟨ht, htabs t ht hq⟩
  · intro t ht k hk hp
    by_cases hx : (t, k) = (r, l)
    · obtain ⟨rfl, rfl⟩ := Prod.mk.inj hx
      rw [hdone, huw, hfw]
      exact h.user_mapped ht hk hpres
    · rw [h.leaf_other hr hmap.elsewhere hmap.leaves (mem_slots.mpr ⟨ht, hk⟩) hx] at hp ⊢
      exact h.user_mapped ht hk hp
  · rw [hpmm]
    apply h.shared.grant
    · exact fun y hy hne =>
        congrArg slotOf (h.leaf_other hr hmap.elsewhere hmap.leaves hy hne)
    · rw [slotAt, slotAt, hdone, slotOf_withWrite]
    · intro a ha
      obtain ⟨_, _, rfl⟩ := slotOf_target.mp ha
      have hnum := h.shared.counted _ hmax
      rw [hone] at hnum
      exact hnum

/-- After a copy the new page has one reference; the old one lost one. -/
theorem copied_counts (hmap : PageMapped m r l f true m₁) : (f < maxPages →
      ((m₁.pmmPageUnref (leaf m r l &&& addrMask)).pmm.pageRefcount f).toNat = 1) ∧
    ∀ a < maxPages, 0 < mappings m live a → (m.pmm.pageRefcount a).toNat =
      ((m₁.pmmPageUnref (leaf m r l &&& addrMask)).pmm.pageRefcount a).toNat + users {(r, l)}
        (slotAt m) a := by
  have hold := h.mapped (h.mapped_leaf hr hl hpres)
  obtain ⟨_, _, hnum⟩ := unref_spec m₁.pmm (leaf m r l)
  constructor
  · intro hmax
    have hne : frame (leaf m r l) ≠ f := by
      intro heq
      rw [heq] at hold
      exact hmap.free.not_inUse hold.1
    change ((pmmPageUnref m₁.pmm (leaf m r l &&& addrMask)).pageRefcount f).toNat = 1
    rw [hnum f (h.sane.ne_zero_of_isFree hmap.free) hmax, beq_false_of_ne hne, hmap.counted hmax]
    rfl
  · intro a ha hpos
    obtain ⟨haUse, ha₀, _, _⟩ := h.mapped hpos
    have hcov : mappings m live a ≤ (m.pmm.pageRefcount a).toNat := h.shared.counted a ha
    change _ = ((pmmPageUnref m₁.pmm (leaf m r l &&& addrMask)).pageRefcount a).toNat + _
    rw [hnum a ha₀ ha, hmap.refcount a haUse, users_singleton]
    by_cases hfa : frame (leaf m r l) = a
    · have htgt : (slotAt m (r, l)).target = some a :=
        slotOf_target.mpr ⟨hpres, (h.leaves r hr l hl hpres).1, hfa⟩
      rw [if_pos htgt, hfa, BEq.rfl]
      change _ = _ - 1 + 1
      omega
    · have htgt : (slotAt m (r, l)).target ≠ some a := fun heq =>
        hfa (slotOf_target.mp heq).2.2
      rw [if_neg htgt, beq_false_of_ne hfa]
      rfl

theorem wf_copied (hshared : frame (leaf m r l) < maxPages →
      m.pmm.pageRefcount (frame (leaf m r l)) ≠ 1) (hmap : PageMapped m r l f true m₁) :
    Wf (m₁.pmmPageUnref (leaf m r l &&& addrMask)) live resv := by
  have h₁ := h.pageMapped hr hl hmap
  have hold := h.mapped (h.mapped_leaf hr hl hpres)
  obtain ⟨hlayout, huse, _⟩ := unref_spec m₁.pmm (leaf m r l)
  obtain ⟨hnew, hothers⟩ := copied_counts h hr hl hpres hmap
  -- The page had another reference, so it stays in use.
  have hkeep : ∀ q, InUse m₁.pmm q → InUse (m₁.pmmPageUnref (leaf m r l &&& addrMask)).pmm q := by
    intro q hq
    refine (huse q).mpr ⟨hq, ?_⟩
    intro hlast
    obtain ⟨rfl, _, hmax, hone⟩ := hlast
    apply hshared hmax
    rw [hmap.refcount _ hold.1] at hone
    exact UInt16.toNat_inj.mp hone
  refine h₁.transfer hlayout hkeep (fun t _ => agree_of_tables fun _ _ => rfl) subset_rfl
    (fun q hq => .inl hq) ?_
  apply h.shared.retarget (mem_slots.mpr ⟨hr, hl⟩)
  · exact fun y hy hne => congrArg slotOf (h.leaf_other hr hmap.elsewhere hmap.leaves hy hne)
  · exact hmap.target h.sane (hmap.done hpres)
  · exact h.unmapped_of_free hmap.free
  · intro hmax
    rw [hnew hmax]
    exact Nat.one_pos
  · exact fun a ha _ hpos => le_of_eq (hothers a ha hpos)

end

theorem wf_cow (hl : l ∈ userPaths) (hcow : CowOutcome m r l m') : Wf m' live resv := by
  cases hcow with
  | absent => exact h
  | granted _ hpres hmax hone hmap hpmm => exact wf_granted h hr hl hpres hmax hone hmap hpmm
  | refused _ _ href => exact h.of_eq href.ram href.pmm
  | copied m₁ f hpres hshared hmap _ => exact wf_copied h hr hl hpres hshared hmap

end

theorem CowOutcome.leaf_other (h : Wf m live resv) (hr : r ∈ live) (hcow : CowOutcome m r l m')
    (hx : x ∈ slots live) (hne : x ≠ (r, l)) : leaf m' x.1 x.2 = leaf m x.1 x.2 := by
  cases hcow with
  | absent => rfl
  | granted _ _ _ _ hmap _ => exact h.leaf_other hr hmap.elsewhere hmap.leaves hx hne
  | refused _ _ href => rw [leaf, href.ram]
  | copied m₁ f _ _ hmap _ => exact h.leaf_other hr hmap.elsewhere hmap.leaves hx hne

theorem slots_erase (live : Finset ℕ) (r : ℕ) :
    slots (live.erase r) = slots live \ {r} ×ˢ userPaths := by
  ext x
  simp only [slots, mem_product, Finset.mem_sdiff, mem_erase, mem_singleton]
  constructor
  · intro hx
    obtain ⟨⟨hne, hlive⟩, hl⟩ := hx
    exact ⟨⟨hlive, hl⟩, fun h => hne h.1⟩
  · intro hx
    obtain ⟨⟨hlive, hl⟩, hne⟩ := hx
    exact ⟨⟨fun h => hne ⟨h, hl⟩, hlive⟩, hl⟩

/-- The mappings from an address space and from the others. -/
theorem mappings_erase (m : Machine) (hr : r ∈ live) (f : ℕ) :
    mappings m live f = mappings m (live.erase r) f + refs m.ram 3 256 r f := by
  rw [refs_eq_users, mappings, mappings, slots_erase]
  exact users_sdiff (Finset.product_subset_product_left (Finset.singleton_subset_iff.mpr hr)) _ _

theorem destroyPre (h : Wf m live resv) (hr : r ∈ live) : DestroyPre 3 256 m r where
  width := h.sane.width
  tree := h.tree r hr
  nonzero := h.nonzero r hr
  frames := fun f hf =>
    (h.mapped (lt_of_lt_of_le hf (refs_le_mappings hr f))).2.2.2 r hr

/-- A page in use stays so unless it is a table of the address space or all references come from
there. -/
theorem SpaceDestroyed.inUse_of_unmapped (hd : SpaceDestroyed m r m') {q : ℕ}
    (hq : InUse m.pmm q) (hout : q ∉ userTables m r) (hrefs : refs m.ram 3 256 r q = 0) :
    InUse m'.pmm q := by
  refine (hd.inUse q).mpr ⟨hq, hout, ?_⟩
  intro hrel
  obtain ⟨_, _, hpos, hle⟩ := hrel
  omega

theorem wf_destroyed (h : Wf m live resv) (hr : r ∈ live) (hd : SpaceDestroyed m r m') :
    Wf m' (live.erase r) resv := by
  have htabs : ∀ t, userTables m' t = userTables m t := by
    intro t
    simp only [userTables, hd.ram]
  have hleaf : ∀ t k, leaf m' t k = leaf m t k := by
    intro t k
    simp only [leaf, hd.ram]
  have hunmapped : ∀ q, ¬ 0 < mappings m live q → refs m.ram 3 256 r q = 0 := by
    intro q hq
    have := refs_le_mappings (m := m) hr q
    omega
  have hresv : ∀ q ∈ resv, InUse m'.pmm q := by
    intro q hq
    apply SpaceDestroyed.inUse_of_unmapped hd (h.reserved q hq).1 ((h.reserved q hq).2 r hr)
    exact hunmapped q fun hpos => (h.mapped hpos).2.2.1 hq
  -- A page that another address space maps has more references than are given up.
  have hmap : ∀ q, 0 < mappings m (live.erase r) q → InUse m'.pmm q ∧ q ≠ 0 ∧
      q ∉ userTables m r := by
    intro q hq
    have hsplit := mappings_erase m hr q
    obtain ⟨huse, hpos, _, hout⟩ := h.mapped (show 0 < mappings m live q by omega)
    refine ⟨(hd.inUse q).mpr ⟨huse, hout r hr, ?_⟩, hpos, hout r hr⟩
    intro hrel
    obtain ⟨_, hmax, _, hle⟩ := hrel
    have hnum : mappings m live q ≤ (m.pmm.pageRefcount q).toNat := h.shared.counted q hmax
    omega
  refine ⟨?_, ?_, ?_, ?_, ?_, ?_, ?_, ?_⟩
  · apply h.sane.keeps hd.layout.bitmapAddr hd.layout.maxPageIndex _ fun q hq => hresv q
      (h.bitmap q hq)
    apply SpaceDestroyed.inUse_of_unmapped hd h.sane.zero (h.nonzero r hr)
    exact hunmapped 0 fun hpos => (h.mapped hpos).2.1 rfl
  · intro t ht
    obtain ⟨htr, htl⟩ := mem_erase.mp ht
    refine ⟨by rw [hd.ram]; exact (h.tree t htl).proper, ?_⟩
    intro q hq
    rw [hd.ram] at hq
    apply SpaceDestroyed.inUse_of_unmapped hd ((h.tree t htl).inUse q hq)
    · exact Set.disjoint_left.mp (h.apart t htl r hr htr) hq
    · exact hunmapped q fun hpos => (h.mapped hpos).2.2.2 t htl hq
  · intro s hs t ht hst
    rw [htabs, htabs]
    exact h.apart s (mem_of_mem_erase hs) t (mem_of_mem_erase ht) hst
  · intro t ht
    rw [htabs]
    exact h.nonzero t (mem_of_mem_erase ht)
  · intro t ht k hk hpres
    rw [hleaf] at hpres ⊢
    obtain ⟨huser, _, hpos, hres, hout⟩ := h.leaves t (mem_of_mem_erase ht) k hk hpres
    refine ⟨huser, ?_, hpos, hres, ?_⟩
    · apply (hmap _ _).1
      exact users_pos (mem_slots.mpr ⟨ht, hk⟩) (slotOf_target.mpr ⟨hpres, huser, rfl⟩)
    · intro s hs
      rw [htabs]
      exact hout s (mem_of_mem_erase hs)
  · intro q hq
    refine ⟨hresv q hq, ?_⟩
    intro t ht
    rw [htabs]
    exact (h.reserved q hq).2 t (mem_of_mem_erase ht)
  · exact fun q hq => h.bitmap q
      ((storesBitmap_congr hd.layout.bitmapAddr hd.layout.maxPageIndex).mp hq)
  · have hslot : slotAt m' = slotAt m := by
      funext x
      rw [slotAt, slotAt, hleaf]
    rw [hslot, slots_erase]
    apply h.shared.drop (Finset.product_subset_product_left (Finset.singleton_subset_iff.mpr hr))
    intro a ha hpos
    rw [← slots_erase] at hpos
    obtain ⟨_, hne, hout⟩ := hmap a hpos
    rw [hd.refcount a hne ha hout, refs_eq_users]

end NexusKernel.CopyOnWrite
