import NexusKernel.CloneFailure
import NexusKernel.ForkLeak
import NexusKernel.Exhaustion
import NexusKernel.UserAccess

/-!
Whether an address is as good to the child of a fork as to the parent. The handler looks at the
tables, the stack, the regions and the heap; `sys_fork` hands down all but the regions, and the
tables as far as there is memory for the clone.
-/

namespace NexusKernel.ForkValidity

open Lib.TableTree PhysicalMemory PageAllocation PageEntries Hardware PageSupply Vmm Walks
open Mapping Cloning AddressSpaces CopyOnWrite CloneFailure KernelHeap HeapGrowth Processes
open ProcessTable RunningProcess FirstProcess UserAccess Exhaustion ForkLeak Budget

def permission (e : UInt64) : Option Bool := if present e then some (writable e) else none

/-- What an access of `proc` comes to: the permission of its page, at once if it is permitted and
otherwise when the handler returns. -/
def resolution (m : Machine) (proc : Process) (virt : UInt64) (write : Bool) : Option Bool :=
  let m := m.writeCr3 proc.cr3
  match userTranslate m virt write with
  | some _ => permission (leaf m (frame proc.cr3) (pathOf virt))
  | none =>
      match fault m proc virt write with
      | (m, _, .resumed) => permission (leaf m (frame proc.cr3) (pathOf virt))
      | _ => none

structure Faulting (m : Machine) (q : ℕ) : Prop where
  sane : Sane m
  denials : m.denials = []
  tree : TreeOk m 3 256 q
  leaves : ∀ l ∈ userPaths, present (leaf m q l) = true →
    user (leaf m q l) = true ∧ InUse m.pmm (frame (leaf m q l)) ∧ frame (leaf m q l) ≠ 0

variable {m m' : Machine} {live : Finset ℕ} {resv K : Set ℕ} {q r z : ℕ} {proc : Process}
variable {virt : UInt64} {write : Bool}

theorem Faulting.writeCr3 (h : Faulting m q) (cr3 : UInt64) : Faulting (m.writeCr3 cr3) q :=
  ⟨h.sane.congr rfl, h.denials, ⟨h.tree.proper, h.tree.inUse⟩, h.leaves⟩

theorem Faulting.frame_root (h : Faulting m q) : frame (pageAddr q) = q :=
  frame_pageAddr (h.sane.lt_of_inUse h.tree.root)

theorem permission_leafEntry (f : ℕ) (w : Bool) :
    permission (leafEntry (pageAddr f) (userFlags w)) = some w := by
  obtain ⟨hp, hw, _, _⟩ := leafEntry_spec (pageAddr f) w
  simp [permission, hp, hw]

/-- A page is mapped if one is left for it and for each missing table. -/
theorem mapUserPage_permission (h : Faulting m q) (hvirt : pml4Index virt < 256)
    (habs : present (leaf m q (pathOf virt)) = false) (w : Bool) :
    permission (leaf (mapUserPage m (pageAddr q) (pageBase virt) (userFlags w)) q (pathOf virt)) =
      if missing x86 m.ram q (pathOf virt) < (budget m).free then some w else none := by
  have h' := h.writeCr3 (pageAddr q)
  have hl := pathOf_mem hvirt
  rcases mapUserPage_fresh h.sane h.tree.root (pageBase virt) (userFlags w) with
    href | ⟨f, m₁, hnew, heq⟩
  · have hleaf : leaf (mapUserPage m (pageAddr q) (pageBase virt) (userFlags w)) q (pathOf virt) =
        leaf m q (pathOf virt) := by
      simp only [leaf, href.ram]
    rw [hleaf, href.free_eq_zero h.denials]
    simp [permission, habs]
  · obtain ⟨hagree, htree⟩ := fresh_tree hnew h.tree rfl rfl
    obtain ⟨hspent, htail⟩ := free_of_granted hnew.granted hnew.budget
    have hden : m₁.denials = [] := by
      rw [show (budget (m.writeCr3 (pageAddr q))).denials = [] from h'.denials] at htail
      exact htail
    have hleaf := mapAt_leaf (leafEntry (pageAddr f) (userFlags w)) (h'.sane.grows hnew.grows)
      htree hl hden
    rw [heq, pathOf_pageBase]
    change permission (leaf (mapAt (leafEntry (pageAddr f) (userFlags w)) (pathOf virt)
      m₁ (pageAddr q)) q (pathOf virt)) = _
    rw [hleaf, hagree.missing_eq hl]
    have hfree : (budget m₁).free + 1 = (budget m).free := hspent.symm
    by_cases henough : missing x86 m.ram q (pathOf virt) < (budget m).free
    · rw [if_pos (by omega), if_pos henough, permission_leafEntry]
    · rw [if_neg (by omega), if_neg henough]
      rfl

/-- Whether `cow_handle_fault` can grant the write: the page has no other owner, or there is a
page for a copy. -/
def grantsWrite (m : Machine) (e : UInt64) : Bool :=
  (frame e < maxPages && m.pmm.pageRefcount (frame e) == 1) || 0 < (budget m).free

theorem cowHandleFault_permission (h : Faulting m q) (hcr3 : m.cr3 = pageAddr q)
    (hvirt : pml4Index virt < 256) (hpres : present (leaf m q (pathOf virt)) = true)
    (hreadOnly : writable (leaf m q (pathOf virt)) = false) :
    permission (leaf (cowHandleFault m (pageAddr q) virt) q (pathOf virt)) =
      some (grantsWrite m (leaf m q (pathOf virt))) := by
  obtain ⟨_, huse, hne⟩ := h.leaves _ (pathOf_mem hvirt) hpres
  have hout := cowHandleFault_cases h.sane h.tree hcr3 hvirt fun _ => ⟨hne, huse⟩
  generalize cowHandleFault m (pageAddr q) virt = m₁ at hout ⊢
  cases hout with
  | absent habs => cases habs.symm.trans hpres
  | granted m' _ hmax hone hmap _ =>
    obtain ⟨hp, hw, _, _⟩ := withWrite_spec (leaf m q (pathOf virt))
    simp [hmap.done hpres, permission, grantsWrite, hp, hw, hpres, hmax, hone]
  | refused m' hshared href =>
    have hfree : (budget m).free = 0 := href.free_eq_zero h.denials
    have hleaf : leaf m₁ q (pathOf virt) = leaf m q (pathOf virt) := by
      simp only [leaf, href.ram]
    simpa [hleaf, permission, grantsWrite, hpres, hreadOnly, hfree] using hshared
  | copied m' f _ _ hmap _ =>
    have hleaf : leaf (m'.pmmPageUnref (leaf m q (pathOf virt) &&& addrMask)) q (pathOf virt) =
      leafEntry (pageAddr f) (userFlags true) := hmap.done hpres
    have hfree : 0 < (budget m).free := Finset.card_pos.mpr ⟨f, Bitmap.mem_clearBits.mpr hmap.free⟩
    simp [hleaf, permission_leafEntry, grantsWrite, hfree]

def absentPlan (proc : Process) (virt : UInt64) : Plan :=
  if inStackWindow proc virt then .map true else regionPlan proc virt

theorem absentPlan_ne_cow (proc : Process) (virt : UInt64) : absentPlan proc virt ≠ .cow := by
  unfold absentPlan
  split
  · exact Plan.noConfusion
  · exact regionPlan_ne_cow proc virt

theorem faultPlan_absent (hcr3 : frame m.cr3 = q)
    (habs : present (leaf m q (pathOf virt)) = false) (proc : Process) (write : Bool) :
    faultPlan m proc virt write = absentPlan proc virt := by
  have hcow : isCowPage m virt = false := by simp [isCowPage_eq, hcr3, habs]
  have hphys : vmmGetPhys m (pageBase virt) = 0 := by simp [vmmGetPhys_pageBase, hcr3, habs]
  unfold faultPlan absentPlan growsStack
  rw [hcow, hphys]
  cases inStackWindow proc virt with
  | false => simp
  | true => simp

section

variable (h : Faulting m q) (hproc : proc.cr3 = pageAddr q) (hvirt : pml4Index virt < 256)
include h hproc hvirt

theorem resolution_present {e : UInt64} (he : leaf m q (pathOf virt) = e)
    (hpres : present e = true) (write : Bool) : resolution m proc virt write =
      if write && !writable e then some (grantsWrite m e) else some (writable e) := by
  have h' := h.writeCr3 (pageAddr q)
  have hroot : frame (m.writeCr3 (pageAddr q)).cr3 = q := h.frame_root
  have hsame : leaf (m.writeCr3 (pageAddr q)) q (pathOf virt) = e := he
  have htrans := userTranslate_of_tree h'.sane h'.tree rfl hvirt write
  obtain ⟨huser, _⟩ := h.leaves _ (pathOf_mem hvirt) (he ▸ hpres)
  rw [he] at huser
  simp only [resolution, fault, pageFaultHandler_eq, hproc, htrans, h.frame_root, hsame]
  cases href : (write && !writable e) with
  | false =>
    have hperm : permits write e = true := by
      simpa [permits, hpres, huser, imp_iff_not_or] using href
    simp [hperm, permission, hpres]
  | true =>
    obtain ⟨hwrite, hreadOnly⟩ := Bool.and_eq_true_iff.mp href
    rw [Bool.not_eq_true'] at hreadOnly
    have hperm : permits write e = false := by
      simp [permits, hwrite, hreadOnly]
    have hplan : faultPlan (m.writeCr3 (pageAddr q)) proc virt write = .cow := by
      simp [faultPlan, isCowPage_eq, hroot, hsame, hwrite, hpres, huser, hreadOnly]
    simp only [hperm, hplan, Bool.false_eq_true, if_false, if_true]
    subst he
    exact cowHandleFault_permission h' rfl hvirt hpres hreadOnly

theorem resolution_absent (habs : present (leaf m q (pathOf virt)) = false) (write : Bool) :
    resolution m proc virt write =
      match absentPlan proc virt with
      | .map w =>
        if missing x86 m.ram q (pathOf virt) < (budget m).free then some w else none
      | _ => none := by
  have h' := h.writeCr3 (pageAddr q)
  have hroot : frame (m.writeCr3 (pageAddr q)).cr3 = q := h.frame_root
  have hsame : leaf (m.writeCr3 (pageAddr q)) q (pathOf virt) = leaf m q (pathOf virt) := rfl
  have htrans := userTranslate_of_tree h'.sane h'.tree rfl hvirt write
  have hperm : permits write (leaf m q (pathOf virt)) = false := by simp [permits, habs]
  simp only [resolution, fault, pageFaultHandler_eq, hproc, htrans, h.frame_root, hsame,
    faultPlan_absent hroot habs, hperm, Bool.false_eq_true, if_false]
  cases hplan : absentPlan proc virt with
  | cow => exact absurd hplan (absentPlan_ne_cow proc virt)
  | kill => rfl
  | map w => exact mapUserPage_permission h' hvirt habs w

theorem resolution_dry (habs : present (leaf m q (pathOf virt)) = false)
    (hfree : (budget m).free = 0) (write : Bool) : resolution m proc virt write = none := by
  rw [resolution_absent h hproc hvirt habs, hfree]
  split
  · exact if_neg (Nat.not_lt_zero _)
  · rfl

end

section

variable (h : Wf m live resv) (hr : r ∈ live) (hc : SpaceCloned m r z m') (hden : m'.denials = [])
include h hr hc hden

theorem faulting_parent : Faulting m' r := by
  refine ⟨h.sane.grows hc.grows, hden, ⟨hc.oldProper, ?_⟩, ?_⟩
  · exact fun q hq => hc.grows.inUse q ((h.tree r hr).inUse q (hc.oldTables.subset hq))
  · intro l hl hpres
    obtain ⟨hp, hu, hf, _⟩ := cowEntry_spec (leaf m r l)
    rcases hc.leaves l hl with ⟨_, hold⟩ | ⟨_, hold, _⟩
    · rw [hold] at hpres ⊢
      obtain ⟨huser, huse, hne, _⟩ := h.leaves r hr l hl hpres
      exact ⟨huser, hc.grows.inUse _ huse, hne⟩
    · rw [hold] at hpres ⊢
      rw [hp] at hpres
      obtain ⟨huser, huse, hne, _⟩ := h.leaves r hr l hl hpres
      rw [hu, hf]
      exact ⟨huser, hc.grows.inUse _ huse, hne⟩

theorem faulting_child : Faulting m' z := by
  have hpar := faulting_parent h hr hc hden
  refine ⟨hpar.sane, hden, ⟨hc.newProper, fun q hq => (hc.newTables q hq).2⟩, ?_⟩
  intro l hl hpres
  rcases hc.leaves l hl with ⟨hnew, _⟩ | ⟨_, hold, hnew⟩
  · rw [hnew] at hpres
    cases hpres
  · rw [hnew] at hpres ⊢
    rw [← hold] at hpres ⊢
    exact hpar.leaves l hl hpres

end

variable {b : Budget} {k : Kernel} {l : List ℕ} {child : Process} {n : ℕ}

theorem undenied_processCreate (h : Undenied k.machine) (ppid : Int32) :
    Undenied (processCreate k ppid).1.machine := by
  have hcall := h.kmalloc sizeofProcess
  unfold processCreate
  simp only [processAllocAddressSpace_eq]
  split
  · exact hcall
  · split
    · obtain ⟨blocks, heq⟩ := kfree_eq (vmmCloneKernelSpace (kmalloc k.machine sizeofProcess).1).1
        (kmalloc k.machine sizeofProcess).2
      rw [heq]
      exact hcall.cloneKernelSpace.withHeap _
    · exact hcall.cloneKernelSpace

theorem undenied_beforeClone (h : Undenied k.machine) (current : Process) :
    Undenied (beforeClone k current) := by
  have hmake := undenied_processCreate h current.pid
  unfold beforeClone
  dsimp only
  split
  · exact hmake
  · exact hmake.kmalloc _

/-- The two address spaces after a fork of `r`, as far as the page at `l` goes; `b` is what was
left for the tables of the clone. -/
structure Forked (m : Machine) (r : ℕ) (b : Budget) (l : List ℕ) (m' : Machine) (z : ℕ) : Prop where
  parent : Faulting m' r
  child : Faulting m' z
  free : (budget m').free = (spent m.ram 3 256 r b).free
  copied : present (leaf m r l) = true → reaches m.ram 3 r b l = true →
    leaf m' r l = cowEntry (leaf m r l) ∧ leaf m' z l = cowEntry (leaf m r l)
  lost : present (leaf m r l) = true → reaches m.ram 3 r b l = false →
    leaf m' r l = leaf m r l ∧ leaf m' z l = 0 ∧ (budget m').free = 0
  absent : present (leaf m r l) = false → leaf m' r l = leaf m r l ∧ leaf m' z l = 0
  gaps : missing x86 m'.ram r l = missing x86 m.ram r l ∧
    ((budget m').free = 0 ∨ missing x86 m'.ram z l = missing x86 m.ram r l)

theorem forked_of_clone (h : Wf m live resv) (hr : r ∈ live) (hundenied : Undenied m)
    (hl : l ∈ userPaths) (hne : (vmmCowClone m (pageAddr r)).2 ≠ 0) :
    ∃ z, (vmmCowClone m (pageAddr r)).2 = pageAddr z ∧
      Forked m r (budget m).spend l (vmmCowClone m (pageAddr r)).1 z := by
  have hafter := hundenied.cowClone (pageAddr r)
  rcases vmmCowClone_cases h.sane (h.tree r hr) with ⟨hzero, _⟩ | ⟨z, haddr, _, hc⟩
  · exact absurd hzero hne
  rcases vmmCowClone_traced h.sane (h.tree r hr)
    with ⟨hzero, _⟩ | ⟨z', haddr', _, hz', _, hbudget, hleaf⟩
  · exact absurd hzero hne
  have hz : z < 2 ^ 40 := h.sane.lt_of_isFree hc.free
  obtain rfl : z = z' := by
    rw [← frame_pageAddr hz, ← frame_pageAddr hz', ← haddr, haddr']
  generalize vmmCowClone m (pageAddr r) = out at hafter haddr hc hbudget hleaf ⊢
  obtain ⟨m', cr3⟩ := out
  have hold : leaf m' z l = 0 → leaf m' r l = leaf m r l := by
    intro hzero
    rcases hc.leaves l hl with ⟨_, hold⟩ | ⟨hpres, _, hnew⟩
    · exact hold
    · rw [← (cowEntry_spec _).1, ← hnew, hzero] at hpres
      cases hpres
  have hleaf := hleaf l hl
  refine ⟨z, haddr, faulting_parent h hr hc hafter.denials, faulting_child h hr hc hafter.denials,
    congrArg free hbudget, ?_, ?_, ?_, hc.oldGaps l hl, ?_⟩
  · intro hpres hreach
    simp only [hpres, hreach, Bool.and_self, if_true] at hleaf
    rcases hc.leaves l hl with ⟨hzero, _⟩ | ⟨_, hcow, _⟩
    · rw [← (cowEntry_spec _).1, ← hleaf, hzero] at hpres
      cases hpres
    · exact ⟨hcow, hleaf⟩
  · intro hpres hreach
    simp only [hreach, Bool.false_and, Bool.false_eq_true, if_false] at hleaf
    refine ⟨hold hleaf, hleaf, hafter.dry ?_⟩
    by_contra hoom
    have hall := hc.complete (by simpa using hoom) l hl hpres
    rw [← (cowEntry_spec _).1, ← hall, hleaf] at hpres
    cases hpres
  · intro habs
    simp only [habs, Bool.and_false, Bool.false_eq_true, if_false] at hleaf
    exact ⟨hold hleaf, hleaf⟩
  · cases hoom : m'.oom with
    | true => exact .inl (hafter.dry hoom)
    | false => exact .inr ((hc.gaps hoom l hl).trans (hc.oldGaps l hl))

theorem Forked.congr {m₀ : Machine} (h : Forked m r b l m' z)
    (hagree : Agree x86 m₀.ram m.ram 3 256 r) (hl : l ∈ userPaths) : Forked m₀ r b l m' z := by
  have hleaf : leaf m r l = leaf m₀ r l := hagree.leafAt_eq hl
  have hreaches := reaches_congr hagree hl
  have hspent := spent_congr hagree b
  have hmissing := hagree.missing_eq hl
  obtain ⟨hpar, hchild, hfree, hcopied, hlost, habs, hgaps⟩ := h
  rw [hspent] at hfree
  rw [hleaf, hreaches] at hcopied hlost
  rw [hleaf] at habs
  rw [hmissing] at hgaps
  exact ⟨hpar, hchild, hfree, hcopied, hlost, habs, hgaps⟩

/-- The page at `virt` stays as good as it is to `proc`, whose root in `m` is `r`, when `b` is
left for the tables of a clone: a mapped page is reached by the clone, and one that is not is no
matter of the regions, or the heap stands in for its region, or there is no memory to map it. -/
structure ValidityKept (m : Machine) (r : ℕ) (b : Budget) (proc : Process)
    (virt : UInt64) : Prop where
  mapped : present (leaf m r (pathOf virt)) = true → reaches m.ram 3 r b (pathOf virt) = true
  region : present (leaf m r (pathOf virt)) = false → inStackWindow proc virt = false →
    ∀ vma, processFindVma proc virt = some vma →
      missing x86 m.ram r (pathOf virt) < (spent m.ram 3 256 r b).free →
      inHeap proc virt = true ∧ vma.writable = true

/-- The plans for a page that is not mapped, in a child without regions. -/
theorem absentPlan_child (hbounds : SameBounds proc child) (hvmas : child.vmas = [])
    (virt : UInt64) : absentPlan child virt =
    if inStackWindow proc virt then .map true
    else if inHeap proc virt then .map true else .kill := by
  simp only [absentPlan, regionPlan, processFindVma, hvmas, List.find?_nil, inStackWindow, inHeap,
    hbounds.stackTopVirt, hbounds.heapBase, hbounds.heapEnd]
  rfl

/-- Where nothing is mapped, parent and child differ only by regions. -/
theorem planned_iff (hbounds : SameBounds proc child) (hvmas : child.vmas = [])
    {free : ℕ} : (match absentPlan child virt with
      | .map w => if n < free then some w else none
      | _ => none) =
      (match absentPlan proc virt with
      | .map w => if n < free then some w else none
      | _ => none) ↔
    (inStackWindow proc virt = false → ∀ vma, processFindVma proc virt = some vma → n < free →
      inHeap proc virt = true ∧ vma.writable = true) := by
  rw [absentPlan_child hbounds hvmas, absentPlan]
  cases inStackWindow proc virt with
  | true => simp
  | false =>
    cases hvma : processFindVma proc virt with
    | none => simp [regionPlan, hvma]
    | some vma =>
      by_cases hroom : n < free
      · cases inHeap proc virt with
        | false => simp [regionPlan, hvma, hroom]
        | true =>
          cases hwr : vma.writable with
          | false | true => simp [regionPlan, hvma, hroom, hwr]
      · cases inHeap proc virt with
        | false | true => simp [regionPlan, hvma, hroom]

theorem Forked.resolution_iff (h : Forked m r b (pathOf virt) m' z)
    (hproc : proc.cr3 = pageAddr r) (hchild : child.cr3 = pageAddr z)
    (hbounds : SameBounds proc child) (hvmas : child.vmas = []) (hvirt : pml4Index virt < 256)
    (write : Bool) : resolution m' child virt write = resolution m' proc virt write ↔
      ValidityKept m r b proc virt := by
  have hblank : present (0 : UInt64) = false := rfl
  cases hpres : present (leaf m r (pathOf virt)) with
  | true =>
    cases hreach : reaches m.ram 3 r b (pathOf virt) with
    | true =>
      obtain ⟨hold, hcopy⟩ := h.copied hpres hreach
      have hcow : present (cowEntry (leaf m r (pathOf virt))) = true :=
        (cowEntry_spec _).1.trans hpres
      apply iff_of_true
      · rw [resolution_present h.child hchild hvirt hcopy hcow,
          resolution_present h.parent hproc hvirt hold hcow]
      · exact ⟨fun _ => hreach, fun habs => Bool.noConfusion (habs.symm.trans hpres)⟩
    | false =>
      obtain ⟨hold, hlost, hfree⟩ := h.lost hpres hreach
      apply iff_of_false
      · rw [resolution_dry h.child hchild hvirt (by rw [hlost]; exact hblank) hfree,
          resolution_present h.parent hproc hvirt hold hpres]
        split
        · exact Option.some_ne_none _ ∘ Eq.symm
        · exact Option.some_ne_none _ ∘ Eq.symm
      · exact fun hkept => Bool.noConfusion (hreach.symm.trans (hkept.mapped hpres))
  | false =>
    obtain ⟨hold, hnew⟩ := h.absent hpres
    have hpar : present (leaf m' r (pathOf virt)) = false := by rw [hold]; exact hpres
    have hchild' : present (leaf m' z (pathOf virt)) = false := by rw [hnew]; exact hblank
    have hmap : present (leaf m r (pathOf virt)) = true →
        reaches m.ram 3 r b (pathOf virt) = true := fun hyes =>
      Bool.noConfusion (hpres.symm.trans hyes)
    obtain ⟨hgap, hdry | hgap'⟩ := h.gaps
    · apply iff_of_true
      · rw [resolution_dry h.child hchild hvirt hchild' hdry,
          resolution_dry h.parent hproc hvirt hpar hdry]
      · refine ⟨hmap, fun _ _ _ _ hroom => ?_⟩
        rw [← h.free, hdry] at hroom
        exact absurd hroom (Nat.not_lt_zero _)
    · rw [resolution_absent h.child hchild hvirt hchild',
        resolution_absent h.parent hproc hvirt hpar, hgap, hgap', h.free, planned_iff hbounds hvmas]
      constructor
      · exact fun hregion => ⟨hmap, fun _ => hregion⟩
      · exact fun hkept => hkept.region hpres

theorem sysFork_forked {k' : Kernel} {current : Process}
    (h : Running k.machine live resv K r) (hden : k.machine.denials = [])
    (hoom : k.machine.oom = false) (hcur : current.cr3 = pageAddr r)
    (hfork : sysFork k current = (k', some child)) (hl : l ∈ userPaths) :
    ∃ z, child.cr3 = pageAddr z ∧ SameBounds current child ∧ child.vmas = [] ∧
      Forked k.machine r (budget (beforeClone k current)).spend l k'.machine z := by
  have hundenied : Undenied k.machine :=
    ⟨h.wf.sane, hden, fun hyes => Bool.noConfusion (hoom.symm.trans hyes)⟩
  rcases processCreate_cases h.heapReady h.room current.pid with
    ⟨_, k₂, hnone, _⟩ | ⟨_, k₂, created, p₀, m₁, hmake, hvmas, _, hcall, hroom, hnew⟩
  · simp only [sysFork, hnone] at hfork
    cases (Prod.mk.inj hfork).2
  obtain ⟨k₄, proc, hresult, hclone, hsame⟩ := sysFork_created hmake
  rcases hresult with ⟨_, hfailed⟩ | ⟨hne, hdone, hbounds⟩
  · cases (Prod.mk.inj (hfork.symm.trans hfailed)).2
  obtain ⟨rfl, hchild⟩ := Prod.mk.inj (hfork.symm.trans hdone)
  cases hchild
  have horphan := orphaned_of_created h hmake hcall hroom hnew
  obtain ⟨resv', hwf, _⟩ := horphan.wf
  rw [hcur] at hclone
  have hmachine : k'.machine = (vmmCowClone (beforeClone k current) (pageAddr r)).1 :=
    congrArg Prod.fst hclone
  have hcr3 : child.cr3 = (vmmCowClone (beforeClone k current) (pageAddr r)).2 :=
    congrArg Prod.snd hclone
  obtain ⟨z, haddr, hforked⟩ := forked_of_clone hwf h.mem (undenied_beforeClone hundenied current)
    hl (by rw [← hcr3]; exact hne)
  rw [← hmachine] at hforked
  exact ⟨z, hcr3.trans haddr, hbounds, hsame.trans hvmas, hforked.congr horphan.agree hl⟩

def RecordFits (m : Machine) : Prop :=
  ∃ ptr blocks, takeBlock (rounded sizeofProcess) m.heap.blocks = some (ptr, blocks) ∧ ptr ≠ 0

theorem recordFits_first (h : m.heap.blocks = firstBlocks) : RecordFits m := by
  rw [RecordFits, h]
  exact ⟨_, _, rfl, by decide⟩

theorem processCreate_record (hs : Sane k.machine) (hfits : RecordFits k.machine)
    (haff : Affords k.machine (n + 1)) (ppid : Int32) :
    ∃ k' child, processCreate k ppid = (k', some child) ∧ Affords k'.machine n := by
  obtain ⟨ptr, blocks, hfound, hptr⟩ := hfits
  have hcall : kmalloc k.machine sizeofProcess = (withBlocks k.machine blocks, ptr) :=
    kmallocFuel_take _ (by decide) hfound
  generalize hm : withBlocks k.machine blocks = m₁ at hcall
  have hs₁ : Sane m₁ := by
    subst m₁
    exact hs.congr rfl
  have haff₁ : Affords m₁ (n + 1) := by
    subst m₁
    exact haff.congr rfl rfl
  rcases vmmCloneKernelSpace_cases hs₁ with ⟨_, href⟩ | ⟨p₀, haddr, hne, hnew⟩
  · exact absurd href haff₁.not_refused
  · simp only [processCreate, hcall, hptr, if_false, processAllocAddressSpace_eq, haddr, hne]
    exact ⟨_, _, rfl, haff₁.of_spend hnew.granted hnew.budget⟩

/-- With the record at hand, two pages are enough to fork a process without descriptors, if not
for all tables of its child. -/
theorem sysFork_some (current : Process) (h : Running k.machine live resv K r)
    (hcur : current.cr3 = pageAddr r) (hfd : current.fdTable = 0)
    (hfits : RecordFits k.machine) (haff : Affords k.machine (n + 2)) :
    (∃ k' child, sysFork k current = (k', some child)) ∧
      Affords (beforeClone k current) (n + 1) := by
  obtain ⟨k₂, created, hmake, haff₂⟩ := processCreate_record h.wf.sane hfits haff current.pid
  have hpre :
    beforeClone k current = k₂.machine := by simp only [beforeClone, hmake, hfd, if_true]
  rcases processCreate_cases h.heapReady h.room current.pid with
    ⟨_, k₃, hnone, _⟩ | ⟨_, k₃, created', p₀, m₁, hcreate', _, _, hcall, hroom, hnew⟩
  · cases (Prod.mk.inj (hmake.symm.trans hnone)).2
  obtain ⟨rfl, -⟩ := Prod.mk.inj (hmake.symm.trans hcreate')
  obtain ⟨resv', hwf, _⟩ := (orphaned_of_created h hmake hcall hroom hnew).wf
  rw [← hpre] at haff₂
  refine ⟨?_, haff₂⟩
  obtain ⟨k₄, proc, ⟨hz, _⟩ | ⟨_, hdone, _⟩, hclone, _⟩ := sysFork_created hmake
  · rw [hcur] at hclone
    rcases vmmCowClone_cases hwf.sane (hwf.tree r h.mem) with ⟨_, href⟩ | ⟨z, haddr, hne, _⟩
    · exact absurd href haff₂.not_refused
    · rw [← hclone] at haddr
      exact absurd (haddr.symm.trans hz) hne
  · exact ⟨k₄, proc, hdone⟩

theorem spent_of_blank {ram : Store UInt64} {p : ℕ} (n w : ℕ) (hblank : ∀ i < w, ram p i = 0)
    (b : Budget) : spent ram (n + 1) w p b = b := by
  induction w with
  | zero => rfl
  | succ w ih =>
    have hentry : presentUser (ram p w) = false := by
      rw [hblank w (Nat.lt_succ_self w)]
      rfl
    rw [spent_succ, ih (fun i hi => hblank i (by omega)), spentAt, hentry]
    rfl

/-- Registering a region when the heap has a block for it. -/
theorem processAddVma_take {ptr : UInt64} {blocks : List HeapBlock}
    (hfound : takeBlock (rounded 32) m.heap.blocks = some (ptr, blocks)) (hptr : ptr ≠ 0)
    (proc : Process) (start fin : UInt64) (flags : UInt32) : processAddVma m proc start fin flags =
    (withBlocks m blocks, { proc with vmas := ⟨ptr, start, fin, flags⟩ :: proc.vmas }) := by
  have hcall : kmalloc m 32 = (withBlocks m blocks, ptr) := kmallocFuel_take _ (by decide) hfound
  simp only [processAddVma, hcall, hptr, if_false]

theorem Running.withBlocks (h : Running m live resv K r) (blocks : List HeapBlock) :
    Running (withBlocks m blocks) live resv K r :=
  ⟨h.wf.of_eq rfl rfl, h.mem, h.cr3, h.tables, h.walk, h.grown, ⟨h.room.start, h.room.fits⟩⟩

/-- With a page for every table a clone reaches the first page of an address space. -/
theorem reaches_first {ram : Store UInt64} {w p : ℕ}
    (hproper : Proper x86 UpperGood ram n w p) (hw : 0 < w)
    (hden : b.denials = []) (hfree : n ≤ b.free)
    (hpres : present (leafAt x86 ram p (List.replicate (n + 1) 0)) = true) :
    reaches ram n p b (List.replicate (n + 1) 0) = true := by
  induction n generalizing w p b with
  | zero => rfl
  | succ n ih =>
    have hne : List.replicate (n + 1) 0 ≠ [] := by simp
    rw [List.replicate_succ] at hpres ⊢
    cases hr : x86.next (ram p 0) with
    | none =>
      rw [leafAt_cons_none hne hr] at hpres
      cases hpres
    | some r =>
      rw [leafAt_cons_some hne hr] at hpres
      obtain ⟨hgood, -, hlow⟩ := hproper.1 0 r hw hr
      obtain ⟨hentry, rfl⟩ := next_eq_some.mp hr
      have hgrant : b.granted = true := by
        simp [Budget.granted, hden, show b.free ≠ 0 by omega]
      obtain ⟨hspent, htail⟩ := Budget.free_of_granted hgrant rfl
      have hrest := ih hlow (by decide) (htail.trans (congrArg _ hden)) (by omega) hpres
      have huser : presentUser (ram p 0) = true := by rw [presentUser, hentry, hgood.1]; rfl
      exact Bool.and_eq_true_iff.mpr ⟨Bool.and_eq_true_iff.mpr ⟨huser, hgrant⟩, hrest⟩

/-- The first process with a region of one page. -/
theorem exists_region_process : ∃ K m z resv ptr m', processCreate bootKernel 0 =
      (⟨m, [newProcess z 0 0], 1⟩, some (newProcess z 0 0)) ∧
    processAddVma (m.writeCr3 (pageAddr z)) (newProcess z 0 0) 0x400000 0x401000 7 =
      (m', { newProcess z 0 0 with vmas := [⟨ptr, 0x400000, 0x401000, 7⟩] }) ∧
    Running m' {z} resv K z ∧ Affords m' 254 ∧ m'.oom = false ∧ RecordFits m' ∧
    ∀ i < 256, m'.ram z i = 0 := by
  obtain ⟨K, m, z, resv, hmake, h, haff, hoom, hblks, hblank⟩ := exists_first_process
  obtain ⟨ptr, blocks, hfound, hne, hrec⟩ :
      ∃ ptr blocks, takeBlock (rounded 32) firstBlocks = some (ptr, blocks) ∧ ptr ≠ 0 ∧
        ∃ ptr' blocks', takeBlock (rounded sizeofProcess) blocks =
          some (ptr', blocks') ∧ ptr' ≠ 0 := ⟨_, _, rfl, by decide, _, _, rfl, by decide⟩
  have hfound' : takeBlock (rounded 32) (m.writeCr3 (pageAddr z)).heap.blocks =
      some (ptr, blocks) := by
    rw [show (m.writeCr3 (pageAddr z)).heap.blocks = firstBlocks from hblks]
    exact hfound
  exact ⟨K, m, z, resv, ptr, _, hmake, processAddVma_take hfound' hne _ _ _ _,
    Running.withBlocks h blocks, haff.congr rfl rfl, hoom, hrec, hblank⟩

/-- In an empty user half all three tables are missing, also after a fork. -/
theorem Forked.empty (h : Forked m r b l m' z) (hl : l ∈ userPaths)
    (hblank : ∀ i < 256, m.ram r i = 0) : present (leaf m' r l) = false ∧
    present (leaf m' z l) = false ∧ missing x86 m'.ram r l = 3 ∧ (budget m').free = b.free := by
  have hz : leaf m r l = 0 := leafAt_of_blank hblank hl
  have habs : present (leaf m r l) = false := by
    rw [hz]
    rfl
  obtain ⟨hold, hnew⟩ := h.absent habs
  refine ⟨by rw [hold]; exact habs, by rw [hnew]; rfl, ?_, ?_⟩
  · rw [h.gaps.1]
    exact missing_of_blank hblank hl
  · rw [h.free, spent_of_blank 2 256 hblank]

theorem absentPlan_region (z : ℕ) (ptr : UInt64) :
    absentPlan { newProcess z 0 0 with vmas := [⟨ptr, 0x400000, 0x401000, 7⟩] } 0x400000 =
      .map true := by
  have hwr : Vma.writable ⟨ptr, 0x400000, 0x401000, 7⟩ = true := by
    change ((7 : UInt32) &&& 2 != 0) = true
    decide
  simp [absentPlan, regionPlan, processFindVma, inStackWindow, newProcess, hwr]

/-- After a fork an access comes to the same in child and parent exactly when the
validity of its address is kept. -/
theorem fork_validity_iff {k k' : Kernel} {current child : Process}
    (h : Running k.machine live resv K r) (hden : k.machine.denials = [])
    (hoom : k.machine.oom = false) (hcur : current.cr3 = pageAddr r)
    (hfork : sysFork k current = (k', some child)) (hvirt : pml4Index virt < 256) (write : Bool) :
    resolution k'.machine child virt write = resolution k'.machine current virt write ↔
      ValidityKept k.machine r (budget (beforeClone k current)).spend current virt := by
  obtain ⟨z, hchild, hbounds, hvmas, hforked⟩ :=
    sysFork_forked h hden hoom hcur hfork (pathOf_mem hvirt)
  exact hforked.resolution_iff hcur hchild hbounds hvmas hvirt write

theorem fork_validity_first : ∃ (m m₁ : Machine) (z : ℕ) (k' : Kernel) (child : Process),
    processCreate bootKernel 0 = (⟨m, [newProcess z 0 0], 1⟩, some (newProcess z 0 0)) ∧
    mapUserPage (m.writeCr3 (pageAddr z)) (pageAddr z) 0 (userFlags true) = m₁ ∧
    present (leaf m₁ z (pathOf 0)) = true ∧
    sysFork ⟨m₁, [newProcess z 0 0], 1⟩ (newProcess z 0 0) = (k', some child) ∧
    resolution k'.machine child 0 true = resolution k'.machine (newProcess z 0 0) 0 true := by
  obtain ⟨K, m, z, resv, hmake, h, haff, hoom, hblks, hblank⟩ := exists_first_process
  have hvirt : pml4Index 0 < 256 := by decide
  obtain ⟨f, hmap, hleaf, haff₁, hoom₁⟩ := mapUserPage_affords (k := 250) h.wf.sane
    (h.wf.tree z h.mem) hvirt true hoom haff
  have hpres := (hmap.leafEntry_spec h.wf.sane).1
  rw [← hleaf] at hpres
  have h₁ := h.pageMapped (pathOf_mem hvirt) hmap
  have hfits := recordFits_first ((congrArg _ hmap.grows.heap).trans hblks)
  obtain ⟨⟨k', child, hfork⟩, hpre⟩ := sysFork_some
    (k := ⟨mapUserPage _ (pageAddr z) 0 (userFlags true), [newProcess z 0 0], 1⟩) (newProcess z 0 0)
    h₁ rfl rfl hfits haff₁
  refine ⟨m, _, z, k', child, hmake, rfl, hpres, hfork,
    (fork_validity_iff h₁ haff₁.denials hoom₁ rfl hfork hvirt true).mpr ⟨fun _ => ?_, ?_⟩⟩
  · obtain ⟨hfree, htail⟩ := Budget.free_of_granted hpre.granted rfl
    exact reaches_first (h₁.wf.tree z h.mem).proper (by decide)
      (htail.trans (congrArg List.tail hpre.denials)) (by have := hpre.free; omega) hpres
  · exact fun habs => Bool.noConfusion (hpres.symm.trans habs)

/-- A page never touched in a region can be read by the parent; the child is killed for it. -/
theorem child_lacks_region :
    ∃ (m m₁ : Machine) (current : Process) (z : ℕ) (k' : Kernel) (child : Process),
    processCreate bootKernel 0 = (⟨m, [newProcess z 0 0], 1⟩, some (newProcess z 0 0)) ∧
    processAddVma (m.writeCr3 (pageAddr z)) (newProcess z 0 0) 0x400000 0x401000 7 = (m₁, current) ∧
    sysFork ⟨m₁, [current], 1⟩ current = (k', some child) ∧
    resolution k'.machine current 0x400000 false = some true ∧
    resolution k'.machine child 0x400000 false = none := by
  obtain ⟨K, m, z, resv, ptr, m₁, hmake, hadd, h, haff, hoom, hfits, hblank⟩ :=
    exists_region_process
  have hvirt : pml4Index 0x400000 < 256 := by decide
  have hl := pathOf_mem hvirt
  obtain ⟨⟨k', child, hfork⟩, hpre⟩ := sysFork_some
    (k := ⟨m₁, [{ newProcess z 0 0 with vmas := [⟨ptr, 0x400000, 0x401000, 7⟩] }], 1⟩)
    { newProcess z 0 0 with vmas := [⟨ptr, 0x400000, 0x401000, 7⟩] } h rfl rfl hfits haff
  obtain ⟨z', hchild, hbounds, hvmas, hforked⟩ := sysFork_forked h haff.denials hoom rfl hfork hl
  obtain ⟨hparentAbsent, hchildAbsent, hmissing, hfree⟩ := hforked.empty hl hblank
  have henough := hpre.free
  refine ⟨m, m₁, _, z, k', child, hmake, hadd, hfork, ?_, ?_⟩
  · rw [resolution_absent hforked.parent rfl hvirt hparentAbsent, absentPlan_region]
    have hspent : (budget (beforeClone _ _)).spend.free + 1 = (budget (beforeClone _ _)).free :=
      (free_of_granted hpre.granted rfl).1.symm
    exact if_pos (by omega)
  · rw [resolution_absent hforked.child hchild hvirt hchildAbsent, absentPlan_child hbounds hvmas]
    rfl

end NexusKernel.ForkValidity
