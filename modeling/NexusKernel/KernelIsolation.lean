import NexusKernel.ElfLoader
import NexusKernel.KernelHalf
import NexusKernel.UserAccess

/-!
The kernel half of a process and what user programs can do to it through `sys_brk`, `sys_mmap`,
`elf_load` and faults, none of which compares an address with the end of the user half. The tables
behind entries 256 to 511 stay as they are as long as every fault above that end is fatal and
every load stays below it and finds the records of its regions in the heap as it is.
-/

namespace NexusKernel.KernelIsolation

open Lib.TableTree Lib.Runs PhysicalMemory PageAllocation PageEntries Hardware
open PageSupply Vmm Walks Mapping AddressSpaces CopyOnWrite KernelHeap HeapGrowth
  KernelHalf Processes
open UserAccess ElfLoader DebuggerWalk FirstProcess UserPages

/-- The entry at which the walk of the processor ends: a leaf, a large page, or one not present. -/
def lastEntry (ram : Store UInt64) : ℕ → List ℕ → UInt64
  | _, [] => 0
  | p, [i] => ram p i
  | p, i :: j :: rest =>
      match plain.next (ram p i) with
      | some q => lastEntry ram q (j :: rest)
      | none => ram p i

def userMapped (m : Machine) (r : ℕ) (virt : UInt64) : Bool :=
  let e := lastEntry m.ram r (pathOf virt)
  present e && user e

/-- No entry reached through the upper half of the root `r` was created or overwritten. -/
structure KernelHalfKept (m : Machine) (r : ℕ) (m' : Machine) : Prop where
  root : ∀ i, 256 ≤ i → i < 512 → m'.ram r i = m.ram r i
  tables : ∀ q ∈ kernelTables m r, m'.ram q = m.ram q

variable {m m' start : Machine} {live : Finset ℕ} {resv : Set ℕ} {r : ℕ} {virt : UInt64}
variable {proc : Process}

variable {w write : Bool} {l : List ℕ} {ram : Store UInt64} {p n : ℕ}

theorem lastEntry_cons {i : ℕ} (hl : l ≠ []) : lastEntry ram p (i :: l) =
    match plain.next (ram p i) with
    | some q => lastEntry ram q l
    | none => ram p i := by
  cases l with
  | nil => exact absurd rfl hl
  | cons j rest => rfl

theorem lastEntry_congr {ram' : Store UInt64} {w : ℕ}
    (h : Agree plain ram ram' n w p) (hl : l ∈ paths plain n w) :
    lastEntry ram' p l = lastEntry ram p l := by
  induction n generalizing w p l with
  | zero =>
    obtain ⟨i, hi, rfl⟩ := mem_paths_zero.mp hl
    exact h i hi
  | succ n ih =>
    obtain ⟨i, s, hi, hs, rfl⟩ := mem_paths_succ.mp hl
    have hne := paths_ne_nil hs
    rw [lastEntry_cons hne, lastEntry_cons hne, h.1 i hi]
    cases hq : plain.next (ram p i) with
    | none => rfl
    | some q => exact ih (h.child hi hq) hs

theorem lastEntry_of_present (h : present (leafAt plain ram p l) = true) :
    lastEntry ram p l = leafAt plain ram p l := by
  induction l generalizing p with
  | nil => rfl
  | cons i rest ih =>
    by_cases hrest : rest = []
    · subst rest
      rfl
    · rw [lastEntry_cons hrest]
      cases hq : plain.next (ram p i) with
      | none =>
        rw [leafAt_cons_none hrest hq] at h
        cases h
      | some q =>
        rw [leafAt_cons_some hrest hq] at h ⊢
        exact ih h

theorem userMapped_of_leaf {f : ℕ}
    (h : leafAt plain m.ram r (pathOf virt) = leafEntry (pageAddr f) (userFlags w)) :
    userMapped m r virt = true := by
  obtain ⟨hpres, _, huser, _⟩ := leafEntry_spec (pageAddr f) w
  rw [← h] at hpres huser
  rw [userMapped, lastEntry_of_present hpres, hpres, huser]
  rfl

/-- Where no entry at all has `PAGE_USER`, no address is the user's. -/
theorem userMapped_of_supervisor (h : ∀ p i, user (m.ram p i) = false) (r : ℕ) (virt : UInt64) :
    userMapped m r virt = false := by
  have hlast : ∀ (l : List ℕ) (p : ℕ), user (lastEntry m.ram p l) = false := by
    intro l
    induction l with
    | nil =>
      intro p
      exact show user 0 = false by decide
    | cons i rest ih =>
      intro p
      by_cases hrest : rest = []
      · subst rest
        exact h p i
      · rw [lastEntry_cons hrest]
        split
        · exact ih _
        · exact h p i
  rw [userMapped, hlast, Bool.and_false]

theorem KernelHalfKept.userMapped_eq (h : KernelHalfKept m r m') (hvirt : 256 ≤ pml4Index virt) :
    userMapped m' r virt = userMapped m r virt := by
  have hentry := h.root (pml4Index virt) hvirt (pml4Index_lt virt)
  have hlast : lastEntry m'.ram r (pathOf virt) = lastEntry m.ram r (pathOf virt) := by
    rw [pathOf, lastEntry_cons (List.cons_ne_nil _ _),
      lastEntry_cons (List.cons_ne_nil _ _), hentry]
    cases hq : plain.next (m.ram r (pml4Index virt)) with
    | none => rfl
    | some c =>
      have hagree : Agree plain m.ram m'.ram 2 512 c := agree_of_tables (fun q hq' =>
        h.tables q ⟨_, c, ⟨hvirt, pml4Index_lt virt, hq⟩, hq'⟩)
      exact lastEntry_congr hagree (lowerPath_mem rfl virt)
  rw [userMapped, userMapped, hlast]

structure Session where
  machine : Machine
  proc : Process

inductive Call where
  | brk (newBrk : UInt64)
  | mmap (addr length flags : UInt64)
  | load (image : Image)
  | fault (virt : UInt64) (write : Bool)

def Session.call (s : Session) (ds : List Bool) : Call → Session
  | .brk newBrk => ⟨s.machine, (sysBrk s.proc newBrk).1⟩
  | .mmap addr length flags => ⟨s.machine, (sysMmap s.proc addr length flags).1⟩
  | .load image =>
      let out := elfLoad (denying s.machine ds) s.proc image
      ⟨out.1, out.2.1⟩
  | .fault virt write =>
      let out := fault (denying s.machine ds) s.proc virt write
      ⟨out.1, out.2.1⟩

def Possible (s : Session) : Call → Prop
  | .fault virt write => userTranslate s.machine virt write = none
  | _ => True

def recordsFit : ℕ → List HeapBlock → Bool
  | 0, _ => true
  | n + 1, blocks =>
      match takeBlock (rounded 32) blocks with
      | some (_, blocks) => recordsFit n blocks
      | none => false

/-- A load has no page to map, or it maps pages of the user half only and the heap need not grow
for it. -/
def loadsBelow (m : Machine) (image : Image) : Prop :=
  (budget m).free = 0 ∨ (recordsFit image.segments.length m.heap.blocks = true ∧
      ∀ p ∈ image.segments, ∀ j < p.filePages.toNat, pml4Index (p.pageVirt j) < 256)

def Isolating (s : Session) : Call → Prop
  | .brk _ => True
  | .mmap _ _ _ => True
  | .load image => image.accepted = true → loadsBelow s.machine image
  | .fault virt write =>
      pml4Index virt < 256 ∨ Fatal s.machine s.proc virt write ∨
        ((budget s.machine).free = 0 ∧ (write && isCowPage s.machine virt) = false)

def Move (s s' : Session) : Prop := ∃ ds c, Possible s c ∧ s' = s.call ds c

def Step (s s' : Session) : Prop :=
  ∃ ds c, Possible s c ∧ Isolating s c ∧ s' = s.call ds c

structure Isolated (start : Machine) (live : Finset ℕ) (resv : Set ℕ) (r : ℕ)
    (s : Session) : Prop where
  wf : Wf s.machine live resv
  cr3 : s.machine.cr3 = pageAddr r
  proc : s.proc.cr3 = pageAddr r
  root : ∀ i, 256 ≤ i → s.machine.ram r i = start.ram r i
  reserved : ∀ q ∈ resv, s.machine.ram q = start.ram q

section

variable (h : Isolated start live resv r ⟨m, proc⟩)
include h

theorem Isolated.of_eq (hram : m'.ram = m.ram) (hpmm : m'.pmm = m.pmm) (hcr3 : m'.cr3 = m.cr3) :
    Isolated start live resv r ⟨m', proc⟩ := by
  refine ⟨h.wf.of_eq hram hpmm, hcr3.trans h.cr3, h.proc, ?_, ?_⟩
  · intro i hi
    rw [hram]
    exact h.root i hi
  · intro q hq
    rw [hram]
    exact h.reserved q hq

/-- Writing to user tables of `r` and to pages that were free. -/
theorem Isolated.beside (hr : r ∈ live) (hwf : Wf m' live resv) (hcr3 : m'.cr3 = m.cr3)
    (helse : ∀ q, InUse m.pmm q → q ∉ userTables m r → m'.ram q = m.ram q)
    (hroot : ∀ i, 256 ≤ i → m'.ram r i = m.ram r i) : Isolated start live resv r ⟨m', proc⟩ := by
  refine ⟨hwf, hcr3.trans h.cr3, h.proc, fun i hi => (hroot i hi).trans (h.root i hi),
    fun q hq => ?_⟩
  obtain ⟨huse, hout⟩ := h.wf.reserved q hq
  exact (helse q huse (hout r hr)).trans (h.reserved q hq)

theorem Isolated.mapped {f : ℕ} (hr : r ∈ live) (hl : l ∈ userPaths)
    (hmap : PageMapped m r l f w m') : Isolated start live resv r ⟨m', proc⟩ :=
  h.beside hr (h.wf.pageMapped hr hl hmap) hmap.grows.cr3 hmap.elsewhere hmap.kernelHalf

theorem Isolated.copied (hr : r ∈ live) (hl : l ∈ userPaths)
    (hcow : CowOutcome m r l m') : Isolated start live resv r ⟨m', proc⟩ := by
  have hwf := wf_cow h.wf hr hl hcow
  cases hcow with
  | absent => exact h
  | granted _ _ _ _ hmap _ => exact h.beside hr hwf hmap.grows.cr3 hmap.elsewhere hmap.rest
  | refused _ _ href => exact h.of_eq href.ram href.pmm href.cr3
  | copied m₁ f _ _ hmap _ => exact h.beside hr hwf hmap.grows.cr3 hmap.elsewhere hmap.kernelHalf

end

theorem mapUserPage_dry (hs : Sane m) (hfree : (budget m).free = 0) (cr3 virt flags : UInt64) :
    Refused m (mapUserPage m cr3 virt flags) := by
  obtain ⟨hz, href⟩ := pmmAllocPage_dry (hs.writeCr3 cr3) hfree
  unfold Vmm.mapUserPage
  simp only [hz, if_true]
  exact ⟨href.ram, href.pmm, href.oom, rfl, href.heap, href.denied, href.budget⟩

structure Dry (start : Machine) (live : Finset ℕ) (resv : Set ℕ) (r : ℕ) (proc : Process)
    (m : Machine) : Prop where
  isolated : Isolated start live resv r ⟨m, proc⟩
  free : (budget m).free = 0

section

variable (h : Dry start live resv r proc m)
include h

theorem Dry.of_eq (hram : m'.ram = m.ram) (hpmm : m'.pmm = m.pmm)
    (hcr3 : m'.cr3 = m.cr3) : Dry start live resv r proc m' :=
  ⟨h.isolated.of_eq hram hpmm hcr3, by rw [budget, hpmm]; exact h.free⟩

theorem Dry.alloc : m.pmmAllocPage.2 = 0 ∧ Dry start live resv r proc m.pmmAllocPage.1 := by
  obtain ⟨hz, href⟩ := pmmAllocPage_dry h.isolated.wf.sane h.free
  exact ⟨hz, h.of_eq href.ram href.pmm href.cr3⟩

theorem Dry.kmalloc (size : UInt64) : Dry start live resv r proc (kmalloc m size).1 := by
  refine kmallocFuel_invariant (fun _ _ ht => ht.of_eq rfl rfl rfl) (fun t ht => ?_) h _ size
  unfold growPage
  rw [if_pos ht.alloc.1]
  exact ht.alloc.2

theorem Dry.loadPage (file : VfsNode) (p : ElfPhdr) (j : ℕ) :
    Dry start live resv r proc (loadPage file p j m).1 := by
  unfold ElfLoader.loadPage
  simp only [h.alloc.1, if_true]
  exact h.alloc.2

end

theorem faultPlan_denying (m : Machine) (ds : List Bool) (proc : Process) (virt : UInt64)
    (write : Bool) : faultPlan (denying m ds) proc virt write =
    faultPlan m proc virt write := by
  have hcow : isCowPage (denying m ds) virt = isCowPage m virt := by
    rw [isCowPage_eq, isCowPage_eq]
    rfl
  have hphys : vmmGetPhys (denying m ds) (pageBase virt) =
      vmmGetPhys m (pageBase virt) := by
    rw [vmmGetPhys_eq, vmmGetPhys_eq]
    rfl
  rw [faultPlan, faultPlan, hcow, hphys]

inductive Handled (m : Machine) (r : ℕ) (proc : Process) (virt : UInt64) (write : Bool)
    (m' : Machine) : Prop where
  | unchanged (hram : m'.ram = m.ram) (hpmm : m'.pmm = m.pmm) (hcr3 : m'.cr3 = m.cr3)
  | mapped (f : ℕ) (w : Bool) (hhalf : pml4Index virt < 256)
      (hplan : faultPlan m proc virt write = .map w) (hmap : PageMapped m r (pathOf virt) f w m')
      (hneeds : present (leaf m r (pathOf virt)) = false →
        present (leaf m' r (pathOf virt)) = true →
        missing x86 m.ram r (pathOf virt) < (budget m).free)
  | copied (hhalf : pml4Index virt < 256) (hplan : faultPlan m proc virt write = .cow)
      (hcow : CowOutcome m r (pathOf virt) m')

section

variable (hhandled : Handled m r proc virt write m') (h : Wf m live resv) (hr : r ∈ live)
include hhandled h hr

theorem Handled.leaf_other {x : ℕ × List ℕ} (hx : x ∈ slots live) (hne : x ≠ (r, pathOf virt)) :
    leaf m' x.1 x.2 = leaf m x.1 x.2 := by
  cases hhandled with
  | unchanged hram _ _ => rw [leaf, hram]
  | mapped f w _ _ hmap _ => exact h.leaf_other hr hmap.elsewhere hmap.leaves hx hne
  | copied _ _ hcow => exact hcow.leaf_other h hr hx hne

theorem Handled.wf : Wf m' live resv := by
  cases hhandled with
  | unchanged hram hpmm _ => exact h.of_eq hram hpmm
  | mapped f w hhalf _ hmap _ => exact h.pageMapped hr (pathOf_mem hhalf) hmap
  | copied hhalf _ hcow => exact wf_cow h hr (pathOf_mem hhalf) hcow

end

theorem fault_handled (ds : List Bool) (h : Wf m live resv) (hr : r ∈ live)
    (hcr3 : m.cr3 = pageAddr r) (hproc : proc.cr3 = pageAddr r)
    (hsafe : Isolating ⟨m, proc⟩ (.fault virt write)) :
    Handled (denying m ds) r proc virt write
      (fault (denying m ds) proc virt write).1 := by
  have hwf := h.deny ds
  have hplan := faultPlan_denying m ds proc virt write
  unfold fault
  rw [pageFaultHandler_eq]
  cases hcase : faultPlan (denying m ds) proc virt write with
  | kill => exact Handled.unchanged rfl rfl rfl
  | cow =>
    rcases hsafe with hhalf | hfatal | ⟨_, hnone⟩
    · have hcow := cowHandleFault_cases hwf.sane (hwf.tree r hr) hcr3 hhalf (fun hpres =>
        ⟨(hwf.leaves r hr _ (pathOf_mem hhalf) hpres).2.2.1,
          (hwf.leaves r hr _ (pathOf_mem hhalf) hpres).2.1⟩)
      rw [hproc]
      exact Handled.copied hhalf hcase hcow
    · rw [hplan, (faultPlan_kill_iff m proc virt write).mpr hfatal] at hcase
      cases hcase
    · rw [hplan] at hcase
      exact Bool.noConfusion (hnone.symm.trans ((faultPlan_cow_iff m proc virt write).mp hcase))
  | map w =>
    rw [hproc]
    rcases hsafe with hhalf | hfatal | ⟨hfree, _⟩
    · have hhalf' : pml4Index (pageBase virt) < 256 := by rwa [pml4Index_pageBase]
      rcases mapUserPage_cases hwf.sane (hwf.tree r hr) hhalf' w with href | ⟨f, hmap⟩
      · exact Handled.unchanged href.ram href.pmm href.cr3
      · have hneeds := mapUserPage_needs hwf.sane (hwf.tree r hr) hhalf' (userFlags w)
        rw [pathOf_pageBase] at hmap hneeds
        exact Handled.mapped f w hhalf hcase hmap hneeds
    · rw [hplan, (faultPlan_kill_iff m proc virt write).mpr hfatal] at hcase
      cases hcase
    · have href := mapUserPage_dry hwf.sane hfree (pageAddr r) (pageBase virt) (userFlags w)
      exact Handled.unchanged href.ram href.pmm href.cr3

theorem fault_cr3 (m : Machine) (proc : Process) (virt : UInt64) (write : Bool) :
    (fault m proc virt write).2.1.cr3 = proc.cr3 := by
  have hafter : (afterMap proc virt).cr3 = proc.cr3 := by
    unfold afterMap
    split
    · rfl
    · rfl
  unfold fault
  rw [pageFaultHandler_eq]
  cases faultPlan m proc virt write with
  | kill => rfl
  | cow => rfl
  | map w => exact hafter

theorem fault_isolated (ds : List Bool) (h : Isolated start live resv r ⟨m, proc⟩)
    (hr : r ∈ live) (hsafe : Isolating ⟨m, proc⟩ (.fault virt write)) :
    Isolated start live resv r ((⟨m, proc⟩ : Session).call ds (.fault virt write)) := by
  have h' : Isolated start live resv r ⟨denying m ds, proc⟩ := h.of_eq rfl rfl rfl
  have hend :
      Isolated start live resv r ⟨(fault (denying m ds) proc virt write).1, proc⟩ := by
    cases fault_handled ds h.wf hr h.cr3 h.proc hsafe with
    | unchanged hram hpmm hcr3 => exact h'.of_eq hram hpmm hcr3
    | mapped f w hhalf _ hmap _ => exact h'.mapped hr (pathOf_mem hhalf) hmap
    | copied hhalf _ hcow => exact h'.copied hr (pathOf_mem hhalf) hcow
  exact ⟨hend.wf, hend.cr3, (fault_cr3 _ _ _ _).trans h.proc, hend.root, hend.reserved⟩

/-- With a page for every missing table, a page is mapped for the user at any address. -/
theorem mapUserPage_userMapped (hs : Sane m) (htree : BootTree m r)
    (hopen : Unblocked plain x86 m.ram r (pathOf virt)) (hden : m.denials = [])
    (hroom : missing plain m.ram r (pathOf virt) < (budget m).free) (w : Bool) :
    userMapped (mapUserPage m (pageAddr r) virt (userFlags w)) r virt = true := by
  have hpath : pathOf virt ∈ paths plain 3 512 := pathOf_mem_paths rfl (pml4Index_lt _)
  rcases mapUserPage_fresh hs htree.root virt (userFlags w) with href | ⟨f, m₁, hnew, heq⟩
  · have hfree : (budget m).free = 0 := href.free_eq_zero hden
    omega
  · obtain ⟨hagree, htree'⟩ := fresh_tree hnew htree rfl rfl
    obtain ⟨hfree, htail⟩ := Budget.free_of_granted hnew.granted hnew.budget
    have hmissing := hagree.missing_eq hpath
    have hnone : m₁.denials = [] := by
      change _ = m.denials.tail at htail
      rw [hden] at htail
      exact htail
    obtain ⟨_, hattempt⟩ := mapAt_attempt reads_plain (fun _ _ => trivial)
      (leafEntry (pageAddr f) (userFlags w)) ((hs.writeCr3 _).grows hnew.grows) htree' hpath
      ((hagree.unblocked_iff hpath).mpr hopen) hnone
    cases hattempt with
    | filled _ hleaf _ _ =>
      rw [heq]
      exact userMapped_of_leaf hleaf
    | exhausted hshort hleaf =>
      change (budget m).free = _ at hfree
      omega

theorem fault_userMapped (hs : Sane m) (htree : BootTree m r) (hproc : proc.cr3 = pageAddr r)
    (hplan : faultPlan m proc virt write = .map w)
    (hopen : Unblocked plain x86 m.ram r (pathOf (pageBase virt)))
    (hroom : missing plain m.ram r (pathOf (pageBase virt)) < (budget m).free) :
    userMapped ((⟨m, proc⟩ : Session).call [] (.fault virt write)).machine r
      (pageBase virt) = true := by
  have hs' : Sane (denying m []) := hs.congr rfl
  have htree' : BootTree (denying m []) r := ⟨htree.proper, htree.inUse⟩
  unfold Session.call fault
  dsimp only
  rw [pageFaultHandler_eq, faultPlan_denying, hplan, hproc]
  exact mapUserPage_userMapped hs' htree' hopen rfl hroom w

/-- A record that fits is taken without a change to pages. -/
theorem kmalloc_fits (h : recordsFit (n + 1) m.heap.blocks = true) :
    ∃ blocks, (kmalloc m 32).1 = withBlocks m blocks ∧ recordsFit n blocks = true := by
  rw [recordsFit] at h
  split at h
  · rename_i ptr blocks hfound
    have hcall : kmalloc m 32 = (withBlocks m blocks, ptr) := kmallocFuel_take _ (by decide) hfound
    exact ⟨blocks, by rw [hcall], h⟩
  · cases h

structure Loading (start : Machine) (live : Finset ℕ) (resv : Set ℕ) (r : ℕ)
    (proc : Process) (n : ℕ) (m : Machine) : Prop where
  isolated : Isolated start live resv r ⟨m, proc⟩
  fits : recordsFit n m.heap.blocks = true

theorem Loading.record (h : Loading start live resv r proc (n + 1) m) :
    Loading start live resv r proc n (kmalloc m 32).1 := by
  obtain ⟨blocks, hcall, hrest⟩ := kmalloc_fits h.fits
  rw [hcall]
  exact ⟨h.isolated.of_eq rfl rfl rfl, hrest⟩

theorem Loading.page {j : ℕ} {p : ElfPhdr} (h : Loading start live resv r proc n m) (hr : r ∈ live)
    (file : VfsNode) (hhalf : pml4Index (p.pageVirt j) < 256) :
    Loading start live resv r proc n (loadPage file p j m).1 := by
  have hwf := h.isolated.wf
  rcases loadPage_cases hwf.sane (hwf.tree r hr) h.isolated.cr3 file p j hhalf with
    href | ⟨f, hmap⟩
  · refine ⟨h.isolated.of_eq href.ram href.pmm href.cr3, ?_⟩
    rw [href.heap]
    exact h.fits
  · refine ⟨h.isolated.mapped hr (pathOf_mem hhalf) hmap, ?_⟩
    rw [hmap.grows.heap]
    exact h.fits

theorem load_isolated {image : Image} (ds : List Bool)
    (h : Isolated start live resv r ⟨m, proc⟩)
    (hr : r ∈ live) (hsafe : Isolating ⟨m, proc⟩ (.load image)) :
    Isolated start live resv r ((⟨m, proc⟩ : Session).call ds (.load image)) := by
  have h' : Isolated start live resv r ⟨denying m ds, proc⟩ := h.of_eq rfl rfl rfl
  have hst : Isolated start live resv r ⟨(denying m ds).writeCr3 proc.cr3, proc⟩ :=
    h'.of_eq rfl rfl (h.proc.trans h.cr3.symm)
  have hproc : (elfLoad (denying m ds) proc image).2.1.cr3 = pageAddr r :=
    (elfLoad_cr3 _ _ _).trans h.proc
  cases hacc : image.accepted with
  | false =>
    unfold Session.call
    dsimp only
    rw [elfLoad_rejected hacc]
    exact h'
  | true =>
    obtain ⟨t, ht, heq⟩ : ∃ t, Isolated start live resv r ⟨t, proc⟩ ∧
        (elfLoad (denying m ds) proc image).1 =
          t.writeCr3 (denying m ds).cr3 := by
      rcases hsafe hacc with hfree | ⟨hfits, hlow⟩
      · obtain ⟨_, t, ht, heq⟩ := elfLoad_invariant
          (fun _ => Dry start live resv r proc) (fun _ _ ht => ht.kmalloc 32)
          (fun _ _ p j _ _ ht => ht.loadPage image.file p j) ⟨hst, hfree⟩
        exact ⟨t, ht.isolated, heq⟩
      · obtain ⟨_, t, ht, heq⟩ := elfLoad_invariant
          (Loading start live resv r proc) (fun _ _ ht => ht.record)
          (fun _ _ p j hp hj ht => ht.page hr image.file (hlow p hp j hj)) ⟨hst, hfits⟩
        exact ⟨t, ht.isolated, heq⟩
    -- the loaded root is restored at the end
    have hback : Isolated start live resv r ⟨t.writeCr3 (denying m ds).cr3, proc⟩ :=
      ht.of_eq rfl rfl (h.cr3.trans ht.cr3.symm)
    unfold Session.call
    dsimp only
    rw [heq]
    exact ⟨hback.wf, hback.cr3, hproc, hback.root, hback.reserved⟩

theorem sysBrk_cr3 (proc : Process) (newBrk : UInt64) : (sysBrk proc newBrk).1.cr3 = proc.cr3 := by
  unfold sysBrk
  split
  · rfl
  · split
    · rfl
    · rfl

theorem sysMmap_cr3 (proc : Process) (addr length flags : UInt64) :
    (sysMmap proc addr length flags).1.cr3 = proc.cr3 := by
  unfold sysMmap
  split
  · rfl
  · rfl

theorem step_isolated {s s' : Session} (hr : r ∈ live) (h : Isolated start live resv r s)
    (hstep : Step s s') : Isolated start live resv r s' := by
  obtain ⟨ds, c, _, hsafe, rfl⟩ := hstep
  obtain ⟨m, proc⟩ := s
  cases c with
  | brk newBrk => exact ⟨h.wf, h.cr3, (sysBrk_cr3 proc newBrk).trans h.proc, h.root, h.reserved⟩
  | mmap addr length flags =>
    exact ⟨h.wf, h.cr3, (sysMmap_cr3 proc addr length flags).trans h.proc, h.root, h.reserved⟩
  | load image => exact load_isolated ds h hr hsafe
  | fault virt write => exact fault_isolated ds h hr hsafe

/-- While every fault above the user half is fatal and every load keeps below its end, the tables
of the kernel half stay as they were, and no kernel address becomes the user's. -/
theorem kernel_half_isolated {s : Session} (h : Wf m live resv) (hr : r ∈ live)
    (hcr3 : m.cr3 = pageAddr r) (hproc : proc.cr3 = pageAddr r) (hkernel : kernelTables m r ⊆ resv)
    (huser : ∀ virt, 256 ≤ pml4Index virt → userMapped m r virt = false)
    (hrun : Reachable Step ⟨m, proc⟩ s) :
    KernelHalfKept m r s.machine ∧ ∀ virt, 256 ≤ pml4Index virt →
      userMapped s.machine r virt = false := by
  have hst : Isolated m live resv r ⟨m, proc⟩ := ⟨h, hcr3, hproc, fun _ _ => rfl, fun _ _ => rfl⟩
  have hend := hrun.invariant (Isolated m live resv r)
    (fun _ _ h hstep => step_isolated hr h hstep) hst
  have hkept : KernelHalfKept m r s.machine :=
    ⟨fun i hi _ => hend.root i hi, fun q hq => hend.reserved q (hkernel hq)⟩
  exact ⟨hkept, fun virt hvirt => (hkept.userMapped_eq hvirt).trans (huser virt hvirt)⟩

theorem directMap_inUse {q : ℕ} (hq : q < 512) : InUse directMap.pmm q :=
  ⟨show q < 1024 by omega, (Bitmap.test_fullBytes 64 q).trans (decide_eq_true hq)⟩

theorem directMap_sane : Sane directMap :=
  sane_of_fullBytes rfl (by decide) (by decide) (by decide) (by decide) (by decide)

def kernelPages : Set ℕ := {q | InUse directMap.pmm q ∧ q ≠ 200}

theorem directMap_wf : Wf directMap {200} kernelPages := by
  apply wf_of_blank directMap_sane (directMap_inUse (by decide)) (by decide)
  · unfold StoresBitmap
    decide
  · intro i hi
    have hne : i ≠ 256 := by omega
    simp [directMap, hne]

theorem directMap_kernelTables : kernelTables directMap 200 ⊆ kernelPages := by
  have htree := (directMap_tree rfl (fun _ hq => directMap_inUse hq)).kernelTree
  intro q hq
  refine ⟨htree.inUse hq, fun heq => ?_⟩
  subst q
  exact htree.root_outside hq

theorem directMap_supervisor (p i : ℕ) : user (directMap.ram p i) = false := by
  simp only [directMap]
  split_ifs <;> rfl

def firstSession : Session := ⟨directMap, newProcess 200 0 0⟩

/-- A page that is not mapped yet is mapped when the process reads it. -/
theorem firstSession_fault {proc : Process} {virt : UInt64} (hproc : proc.cr3 = pageAddr 200)
    (hpage : pageBase virt = virt) (hplan : faultPlan directMap proc virt false = .map w)
    (hopen : Unblocked plain x86 directMap.ram 200 (pathOf virt))
    (hmissing : missing plain directMap.ram 200 (pathOf virt) < 512) :
    userMapped ((⟨directMap, proc⟩ : Session).call [] (.fault virt false)).machine 200 virt =
      true := by
  have htree := directMap_tree rfl fun _ hq => directMap_inUse hq
  have hfree : (budget directMap).free = 512 := free_of_fullBytes (n := 64) rfl
  have hmap := fault_userMapped directMap_sane htree hproc hplan (by rwa [hpage])
    (by rwa [hpage, hfree])
  rwa [hpage] at hmap

/-- A process moves the end of its heap into the kernel half and reads there: the handler maps a
page. -/
theorem mmap_enters_kernel_half :
    Wf directMap {200} kernelPages ∧ kernelTables directMap 200 ⊆ kernelPages ∧
      (∀ virt, userMapped directMap 200 virt = false) ∧
      ∃ s, Reachable Move firstSession s ∧ userMapped s.machine 200 0xFFFF900000000000 = true ∧
        ¬ KernelHalfKept directMap 200 s.machine := by
  have huser := userMapped_of_supervisor directMap_supervisor 200
  refine ⟨directMap_wf, directMap_kernelTables, huser, ?_⟩
  have hmmap : Move firstSession (firstSession.call [] (.mmap 0xFFFF900000000000 4096 0x20)) :=
    ⟨[], .mmap 0xFFFF900000000000 4096 0x20, trivial, rfl⟩
  have hfault : Move _ ((firstSession.call [] (.mmap 0xFFFF900000000000 4096 0x20)).call []
      (.fault 0xFFFF900000000000 false)) := ⟨[], .fault 0xFFFF900000000000 false, by
        change userTranslate directMap 0xFFFF900000000000 false = none
        decide, rfl⟩
  have hmap : userMapped ((firstSession.call [] (.mmap 0xFFFF900000000000 4096 0x20)).call []
      (.fault 0xFFFF900000000000 false)).machine 200 0xFFFF900000000000 = true :=
    firstSession_fault (w := true) rfl (by decide) (by decide) (by decide) (by decide)
  refine ⟨_, (Relation.ReflTransGen.single hmmap).tail hfault, hmap, fun hkept => ?_⟩
  exact Bool.noConfusion (hmap.symm.trans ((hkept.userMapped_eq (by decide)).trans (huser _)))

/-- A process asks for five heap pages and reads the last one. -/
theorem kernel_half_isolated_heap :
    ∃ s, Reachable Step firstSession s ∧ KernelHalfKept directMap 200 s.machine ∧
      userMapped s.machine 200 0x4000 = true := by
  have hbrk : Step firstSession (firstSession.call [] (.brk 0x5000)) :=
    ⟨[], .brk 0x5000, trivial, trivial, rfl⟩
  have hfault : Step _ ((firstSession.call [] (.brk 0x5000)).call [] (.fault 0x4000 false)) :=
    ⟨[], .fault 0x4000 false, by
      change userTranslate directMap 0x4000 false = none
      decide, Or.inl (by decide), rfl⟩
  have hrun : Reachable Step firstSession _ := (Relation.ReflTransGen.single hbrk).tail hfault
  have hmap :
    userMapped ((firstSession.call [] (.brk 0x5000)).call [] (.fault 0x4000 false)).machine
      200 0x4000 = true :=
    firstSession_fault (w := true) rfl (by decide) (by decide) (by decide) (by decide)
  exact ⟨_, hrun, (kernel_half_isolated directMap_wf (Finset.mem_singleton_self 200) rfl rfl
    directMap_kernelTables (fun virt _ => userMapped_of_supervisor directMap_supervisor 200
      virt) hrun).1, hmap⟩

end NexusKernel.KernelIsolation
