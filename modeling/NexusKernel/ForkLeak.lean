import NexusKernel.FirstProcess
import NexusKernel.Reclamation

/-!
Fork and the destruction of the child. `sys_fork` overwrites the address space that
`process_create` built with the clone without giving its root back, so every fork that gets this
far leaks one page.
-/

namespace NexusKernel.ForkLeak

open Lib.TableTree PhysicalMemory PageAllocation Hardware PageSupply Vmm Walks
open Destruction AddressSpaces CopyOnWrite KernelHeap KernelTables HeapGrowth Processes ProcessTable
open RunningProcess FirstProcess Reclamation Growth

variable {m m₁ m' : Machine} {live : Finset ℕ} {resv K : Set ℕ} {r z q : ℕ} {k : Kernel}

theorem kfree_eq (m : Machine) (ptr : UInt64) : ∃ blocks, kfree m ptr = withBlocks m blocks := by
  unfold kfree
  split
  · exact ⟨m.heap.blocks, rfl⟩
  · exact ⟨_, rfl⟩

/-- What is left of a destroyed process without regions. -/
theorem processDestroy_machine (k : Kernel) (proc : Process) (hvmas : proc.vmas = []) :
    let m := if proc.cr3 = 0 then k.machine else vmmDestroyAddressSpace k.machine proc.cr3
    ∃ blocks, (processDestroy k proc).machine = withBlocks m blocks := by
  simp only [processDestroy, hvmas, List.foldl_nil]
  generalize (if proc.cr3 = 0 then k.machine else vmmDestroyAddressSpace k.machine proc.cr3) = m
  split
  · exact kfree_eq m proc.addr
  · obtain ⟨blocks, heq⟩ := kfree_eq m proc.fdTable
    rw [heq]
    exact kfree_eq _ proc.addr

def createFails (m : Machine) : Prop :=
  (kmalloc m sizeofProcess).2 = 0 ∨ (budget (kmalloc m sizeofProcess).1).granted = false

theorem processCreate_cases (h : HeapReady K r k.machine) (hroom : HeapRoom k.machine 8)
    (ppid : Int32) : (createFails k.machine ∧ ∃ k', processCreate k ppid = (k', none) ∧
      HeapCall K r k.machine k'.machine) ∨
    (¬ createFails k.machine ∧ ∃ k' child p₀ m₁, processCreate k ppid = (k', some child) ∧
      child.vmas = [] ∧ child.fdTable = 0 ∧ HeapCall K r k.machine m₁ ∧ HeapRoom m₁ 4 ∧
      Created m₁ p₀ k'.machine) := by
  obtain ⟨hcall, hroom₁⟩ := kmalloc_call h (k := 4) hroom sizeofProcess (by decide)
  have hs₁ := (hcall.growth.ready h).sane
  have hcases := vmmCloneKernelSpace_cases hs₁
  unfold createFails processCreate
  generalize kmalloc k.machine sizeofProcess = out at hcall hroom₁ hs₁ hcases ⊢
  obtain ⟨m₁, p⟩ := out
  simp only [processAllocAddressSpace_eq]
  generalize vmmCloneKernelSpace m₁ = out at hcases ⊢
  obtain ⟨m₂, cr3⟩ := out
  by_cases hp : p = 0
  · refine .inl ⟨.inl hp, ?_⟩
    rw [if_pos hp]
    exact ⟨_, rfl, hcall⟩
  · rw [if_neg hp]
    rcases hcases with ⟨hz, href⟩ | ⟨p₀, haddr, hne, hmade⟩
    · refine .inl ⟨.inr href.denied, ?_⟩
      rw [if_pos hz]
      have hsame : HeapCall (K ∪ taken k.machine m₁) r m₁ m₂ :=
        HeapCall.of_eq href.ram href.pmm href.cr3 (by rw [href.heap])
      exact ⟨_, rfl, hcall.trans (hsame.trans (kfree_call m₂ p))⟩
    · refine .inr ⟨?_, ?_⟩
      · rintro (hz | hdenied)
        · exact hp hz
        · cases hdenied.symm.trans hmade.granted
      · rw [if_neg (by rw [haddr]; exact hne)]
        exact ⟨_, _, p₀, m₁, rfl, rfl, rfl, hcall, hroom₁, hmade⟩

variable {p₀ : ℕ}

theorem wf_unused (h : Wf m live resv) (hc : Created m p₀ m') : Wf m' live (insert p₀ resv) := by
  have hne : ∀ q, InUse m.pmm q → q ≠ p₀ := fun _ => hc.free.ne
  apply h.beside ⟨hc.grows.bitmapAddr, hc.grows.maxPageIndex⟩ hc.grows.inUse
  · exact fun t ht => agree_of_tables (fun q hq => hc.other q (hne q ((h.tree t ht).inUse q hq)))
  · exact fun f _ hf => hc.refcount f (hne f (h.mapped hf).1)
  · exact Set.subset_insert p₀ resv
  · rintro q (rfl | hq)
    · exact .inr ⟨hc.free, (hc.inUse_iff q).mpr (.inr rfl)⟩
    · exact .inl hq

theorem mapped_of_cloned (hr : r ∈ live) (hc : SpaceCloned m r z m') {f : ℕ}
    (hf : 0 < refs m'.ram 3 256 z f) : 0 < mappings m live f :=
  lt_of_lt_of_le hf ((refs_clone_le hc f).trans (refs_le_mappings hr f))

section

variable (h : Wf m live resv) (hr : r ∈ live) (hc : SpaceCloned m r z m')
include h hr hc

theorem destroyPre_of_cloned : DestroyPre 3 256 m' z := by
  have hnew : ∀ t ∈ userTables m' z, IsFree m.pmm t := fun t ht => (hc.newTables t ht).1
  refine ⟨?_, ⟨hc.newProper, fun t ht => (hc.newTables t ht).2⟩, ?_, ?_⟩
  · rw [hc.grows.maxPageIndex]
    exact h.sane.width
  · exact fun hz => (hnew 0 hz).not_inUse h.sane.zero
  · exact fun f hf hmem => (hnew f hmem).not_inUse (h.mapped (mapped_of_cloned hr hc hf)).1

/-- A clone destroyed at once takes no page of the kernel with it. -/
theorem clone_destroy_keeps (hq : q ∈ resv) :
    InUse (vmmDestroyAddressSpace m' (pageAddr z)).pmm q := by
  have hpre := destroyPre_of_cloned h hr hc
  have huse := (h.reserved q hq).1
  apply SpaceDestroyed.inUse_of_unmapped (vmmDestroyAddressSpace_destroyed hpre)
    (hc.grows.inUse q huse)
  · exact fun hmem => (hc.newTables q hmem).1.not_inUse huse
  · by_contra hpos
    exact (h.mapped (mapped_of_cloned hr hc (Nat.pos_of_ne_zero hpos))).2.2.1 hq

end

structure SameBounds (parent child : Process) : Prop where
  heapBase : child.heapBase = parent.heapBase
  heapEnd : child.heapEnd = parent.heapEnd
  stackTopVirt : child.stackTopVirt = parent.stackTopVirt
  stackLimitVirt : child.stackLimitVirt = parent.stackLimitVirt

def forkAndDestroy (k : Kernel) (current : Process) : Kernel :=
  match sysFork k current with
  | (k, none) => k
  | (k, some child) => processDestroy k child

/-- The machine when `sys_fork` comes to the clone: the child's record exists, perhaps a
descriptor table. -/
def beforeClone (k : Kernel) (current : Process) : Machine :=
  let (k, _) := processCreate k current.pid
  if current.fdTable = 0 then k.machine else (kcalloc k.machine 1 sizeofFdTable).1

variable {current child : Process}

/-- Once the child's record exists: the clone, and without one the destruction of the child. -/
theorem sysFork_created {k k' : Kernel} (hmake : processCreate k current.pid = (k', some child)) :
    ∃ k₄ proc, ((proc.cr3 = 0 ∧ sysFork k current = (processDestroy k₄ proc, none)) ∨
        (proc.cr3 ≠ 0 ∧ sysFork k current = (k₄, some proc) ∧ SameBounds current proc)) ∧
      (k₄.machine, proc.cr3) = vmmCowClone (beforeClone k current) current.cr3 ∧
      proc.vmas = child.vmas := by
  have hfd : beforeClone k current = (if current.fdTable = 0 then (k'.machine, child.fdTable)
      else kcalloc k'.machine 1 sizeofFdTable).1 := by
    simp only [beforeClone, hmake]
    split
    · rfl
    · rfl
  rw [hfd]
  simp only [sysFork, hmake]
  generalize (if current.fdTable = 0 then (k'.machine, child.fdTable)
    else kcalloc k'.machine 1 sizeofFdTable) = out
  obtain ⟨m₃, fdTable⟩ := out
  by_cases hz : (vmmCowClone m₃ current.cr3).2 = 0
  · rw [if_pos hz]
    refine ⟨_, _, .inl ⟨?_, rfl⟩, rfl, rfl⟩
    exact hz
  · rw [if_neg hz]
    refine ⟨_, _, .inr ⟨?_, rfl, ?_⟩, rfl, rfl⟩
    · exact hz
    · exact ⟨rfl, rfl, rfl, rfl⟩

/-- The state in which `sys_fork` clones: the root `p₀` of `process_create` belongs to nobody. -/
structure Orphaned (m : Machine) (live : Finset ℕ) (r p₀ : ℕ) (m₃ : Machine) : Prop where
  free : ¬ InUse m.pmm p₀
  wf : ∃ resv, Wf m₃ live resv ∧ p₀ ∈ resv
  agree : Agree x86 m.ram m₃.ram 3 256 r
  grown : p₀ ∉ m₃.heap.grown

theorem orphaned_of_created {k' : Kernel}
    (h : Running k.machine live resv K r) (hmake : processCreate k current.pid = (k', some child))
    (hcall : HeapCall K r k.machine m₁) (hroom : HeapRoom m₁ 4) (hnew : Created m₁ p₀ k'.machine) :
    Orphaned k.machine live r p₀ (beforeClone k current) := by
  have hready := h.heapReady
  have hready₁ := hcall.growth.ready hready
  have hne : ∀ q, InUse m₁.pmm q → q ≠ p₀ := fun _ => hnew.free.ne
  have hwf₁ := wf hcall.growth h.wf h.mem h.tables
  have hwf₂ := wf_unused hwf₁ hnew
  have hcr3 : k'.machine.cr3 = pageAddr r := hnew.grows.cr3.trans hready₁.cr3
  have hready₂ : HeapReady (K ∪ taken k.machine m₁) r k'.machine := by
    refine heapReady_of_wf hwf₂ h.mem hcr3 ?_ (hready₁.walk.congr ?_ ?_)
    · exact (Set.union_subset_union_left _ h.tables).trans (Set.subset_insert _ _)
    · exact fun i _ => congrFun (hnew.other r (hne r hready₁.root)) i
    · exact fun q hq => hnew.other q (hne q (hready₁.inUse q hq))
  have hcall₃ : HeapCall (K ∪ taken k.machine m₁) r k'.machine (beforeClone k current) := by
    simp only [beforeClone, hmake]
    split
    · exact HeapCall.of_eq rfl rfl rfl rfl
    · refine (kmalloc_call hready₂ (k := 0) ⟨?_, ?_⟩ _ (by decide)).1
      · rw [hnew.grows.heap]
        exact hroom.start
      · rw [hnew.grows.heap]
        exact hroom.fits
  have hunused : K ∪ taken k.machine m₁ ⊆ insert p₀ (resv ∪ taken k.machine m₁) :=
    (Set.union_subset_union_left _ h.tables).trans (Set.subset_insert _ _)
  have hp₀ : InUse k'.machine.pmm p₀ := (hnew.inUse_iff p₀).mpr (.inr rfl)
  refine ⟨fun huse => hne p₀ (hcall.growth.inUse p₀ huse) rfl,
    ⟨_, wf hcall₃.growth hwf₂ h.mem hunused, .inl (Set.mem_insert p₀ _)⟩, ?_, ?_⟩
  · apply (agree hcall.growth h.wf h.mem h.tables h.mem).trans
    apply Agree.trans _ (agree hcall₃.growth hwf₂ h.mem hunused h.mem)
    exact agree_of_tables (fun q hq => hnew.other q (hne q ((hwf₁.tree r h.mem).inUse q hq)))
  · rw [hcall₃.grown, hnew.grows.heap, hcall.grown]
    rintro ((hgrown | htaken) | htaken)
    · exact hne p₀ (hcall.growth.inUse p₀ (h.wf.reserved p₀ (h.grown p₀ hgrown)).1) rfl
    · exact hne p₀ htaken.2 rfl
    · exact htaken.1.not_inUse hp₀

theorem Orphaned.leaks {m₃ : Machine} (h : Orphaned m live r p₀ m₃) (hr : r ∈ live)
    {k₄ : Kernel} {proc : Process} (hvmas : proc.vmas = [])
    (hclone : (k₄.machine, proc.cr3) = vmmCowClone m₃ (pageAddr r)) :
    InUse (processDestroy k₄ proc).machine.pmm p₀ ∧
    p₀ ∉ (processDestroy k₄ proc).machine.heap.grown := by
  obtain ⟨resv, hwf, hp₀⟩ := h.wf
  obtain ⟨blocks, heq⟩ := processDestroy_machine k₄ proc hvmas
  rw [heq]
  rcases vmmCowClone_cases hwf.sane (hwf.tree r hr) with ⟨hz, href⟩ | ⟨z, haddr, hne, hc⟩
  · rw [← hclone] at hz href
    rw [if_pos hz]
    constructor
    · rw [href.pmm]
      exact (hwf.reserved p₀ hp₀).1
    · change p₀ ∉ k₄.machine.heap.grown
      rw [href.heap]
      exact h.grown
  · rw [← hclone] at haddr hc
    dsimp only at haddr hc
    rw [haddr, if_neg hne]
    refine ⟨clone_destroy_keeps hwf hr hc hp₀, ?_⟩
    change p₀ ∉ (vmmDestroyAddressSpace k₄.machine (pageAddr z)).heap.grown
    rw [(vmmDestroyAddressSpace_destroyed (destroyPre_of_cloned hwf hr hc)).heap, hc.grows.heap]
    exact h.grown

theorem fork_leaks (current : Process) (h : Running k.machine live resv K r)
    (hcur : current.cr3 = pageAddr r) (hmake : ¬ createFails k.machine) :
    ∃ p₀, ¬ InUse k.machine.pmm p₀ ∧ InUse (forkAndDestroy k current).machine.pmm p₀ ∧
      p₀ ∉ (forkAndDestroy k current).machine.heap.grown := by
  have hready := h.heapReady
  rcases processCreate_cases hready h.room current.pid with
    ⟨hfails, _⟩ | ⟨_, k₂, child, p₀, m₁, hmade, hvmas, _, hcall, hroom₁, hnew⟩
  · exact absurd hfails hmake
  · obtain ⟨k₄, proc, hresult, hclone, hnone⟩ := sysFork_created hmade
    have horphan := orphaned_of_created h hmade hcall hroom₁ hnew
    have heq : forkAndDestroy k current = processDestroy k₄ proc := by
      rcases hresult with ⟨_, hfork⟩ | ⟨_, hfork, _⟩
      · simp only [forkAndDestroy, hfork]
      · simp only [forkAndDestroy, hfork]
    rw [hcur] at hclone
    rw [heq]
    exact ⟨p₀, horphan.free, horphan.leaks h.mem (hnone.trans hvmas) hclone⟩

/-- Between `m` and `m'` no page was lost but to the kernel heap, and the counts of the user pages
of `r` are the same. -/
structure NothingLeaked (m : Machine) (r : ℕ) (m' : Machine) : Prop where
  pages : ∀ q, q ∉ m'.heap.grown → (InUse m'.pmm q ↔ InUse m.pmm q)
  counts : ∀ f, MapsPage m r f → m'.pmm.pageRefcount f = m.pmm.pageRefcount f

theorem nothingLeaked_of_call (h : Running m live resv K r) (hcall : HeapCall K r m m') :
    NothingLeaked m r m' := by
  refine ⟨fun q hq => ⟨fun huse => ?_, hcall.growth.inUse q⟩, fun f hf => ?_⟩
  · by_contra hnot
    have hlt : q < m.pmm.maxPageIndex.toNat := by
      rw [← hcall.growth.layout.maxPageIndex]
      exact huse.1
    exact hq ((hcall.grown q).mpr (.inr ⟨isFree_of_not_inUse hlt hnot, huse⟩))
  · exact hcall.growth.refcount f (h.wf.mapped (lt_of_lt_of_le (refs_pos hf)
      (refs_le_mappings h.mem f))).1

/-- Fork and destruction leak nothing exactly when the fork fails for want of memory for the
record of the child or of a page for its root. -/
theorem fork_leaks_nothing_iff {current : Process} (h : Running k.machine live resv K r)
    (hcur : current.cr3 = pageAddr r) :
    NothingLeaked k.machine r (forkAndDestroy k current).machine ↔ createFails k.machine := by
  constructor
  · intro hnothing
    by_contra hmake
    obtain ⟨p₀, hpre, hafter, hgrown⟩ := fork_leaks current h hcur hmake
    exact hpre ((hnothing.pages p₀ hgrown).mp hafter)
  · intro hfails
    have hready := h.heapReady
    rcases processCreate_cases hready h.room current.pid with
      ⟨_, k', hnone, hcall⟩ | ⟨hmake, _⟩
    · have heq : forkAndDestroy k current = k' := by simp only [forkAndDestroy, sysFork, hnone]
      rw [heq]
      exact nothingLeaked_of_call h hcall
    · exact absurd hfails hmake

/-- With the heap of the first process only the root can be refused. -/
theorem createFails_iff (h : m.heap.blocks = firstBlocks) : createFails m ↔
    (budget m).granted = false := by
  obtain ⟨⟨ptr, blocks⟩, hfound, hne⟩ :
      ∃ found, takeBlock (rounded sizeofProcess) firstBlocks = some found ∧ found.1 ≠ 0 :=
    ⟨_, rfl, by decide⟩
  rw [← h] at hfound
  have hcall : kmalloc m sizeofProcess = (withBlocks m blocks, ptr) :=
    kmallocFuel_take _ (by decide) hfound
  rw [createFails, hcall]
  exact or_iff_right hne

/-- A fork for which the allocator has no page. -/
theorem fork_leaks_nothing_denied : ∃ (k : Kernel) (z : ℕ), createFails k.machine ∧
    NothingLeaked k.machine z (forkAndDestroy k (newProcess z 0 0)).machine := by
  obtain ⟨K, m, z, resv, -, h, -, -, hblks, -⟩ := exists_first_process
  have h' : Running (denying (m.writeCr3 (pageAddr z)) [true]) {z} resv K z :=
    ⟨h.wf.of_eq rfl rfl, h.mem, h.cr3, h.tables, h.walk, h.grown, ⟨h.room.start, h.room.fits⟩⟩
  have hfails : createFails (denying (m.writeCr3 (pageAddr z)) [true]) :=
    (createFails_iff (m := denying (m.writeCr3 (pageAddr z)) [true]) hblks).mpr rfl
  exact ⟨⟨_, [newProcess z 0 0], 1⟩, z, hfails, (fork_leaks_nothing_iff h' rfl).mpr hfails⟩

/-- The first process forks, and its child is destroyed. -/
theorem fork_leaks_root : ∃ (m : Machine) (z : ℕ),
    processCreate bootKernel 0 = (⟨m, [newProcess z 0 0], 1⟩, some (newProcess z 0 0)) ∧
    ¬ NothingLeaked (m.writeCr3 (pageAddr z)) z
      (forkAndDestroy ⟨m.writeCr3 (pageAddr z), [newProcess z 0 0], 1⟩
        (newProcess z 0 0)).machine := by
  obtain ⟨K, m, z, resv, hmake, h, haff, -, hblks, -⟩ := exists_first_process
  have hsuccess : ¬ createFails (m.writeCr3 (pageAddr z)) := by
    intro hfails
    have hgrant : (budget (m.writeCr3 (pageAddr z))).granted = true := haff.granted
    exact Bool.noConfusion
      (((createFails_iff (m := m.writeCr3 (pageAddr z)) hblks).mp hfails).symm.trans hgrant)
  obtain ⟨p₀, hpre, hafter, hgrown⟩ :=
    fork_leaks (k := ⟨m.writeCr3 (pageAddr z), [newProcess z 0 0], 1⟩)
      (newProcess z 0 0) h rfl hsuccess
  exact ⟨m, z, hmake, fun hnothing => hpre ((hnothing.pages p₀ hgrown).mp hafter)⟩

end NexusKernel.ForkLeak
