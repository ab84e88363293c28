import NexusKernel.RunningProcess
import NexusKernel.UserPages

/-!
A machine with two megabytes is booted: page allocator, heap with 64 pages, a process. The
concrete examples about processes start from its state.
-/

namespace NexusKernel.FirstProcess

open Lib.Loops PhysicalMemory PageAllocation BootMemory PageEntries Hardware
open PageSupply Vmm Walks Mapping AddressSpaces UserPages KernelHeap KernelTables HeapGrowth
open Processes ProcessTable RunningProcess

variable {m m₁ : Machine} {k n b : ℕ}

theorem growPage_affords (hs : Sane m) (h : Affords m (k + 4)) :
    (growPage m).2 = true ∧ Sane (growPage m).1 ∧ Affords (growPage m).1 k ∧
      (growPage m).1.oom = m.oom := by
  unfold growPage
  rcases pmmAllocPage_cases hs with ⟨_, href⟩ | ⟨f, haddr, hne, hnew⟩
  · exact absurd href h.not_refused
  · rw [if_neg (by rw [haddr]; exact hne)]
    have hs₁ := hs.grows hnew.grows
    have hrest : Affords m.pmmAllocPage.1 (3 + k) :=
      (h.of_spend hnew.granted hnew.budget).mono (by omega)
    obtain ⟨hgrows, hoom, haff⟩ := mapAt_affords (leafEntry m.pmmAllocPage.2 heapFlags)
      (pml4Index m.heap.virtEnd) hs₁ m.pmmAllocPage.1.currentPml4
      (l := [pdptIndex m.heap.virtEnd, pdIndex m.heap.virtEnd, ptIndex m.heap.virtEnd]) hrest
    have hs₂ := hs₁.grows hgrows
    have hmap : vmmMapPage m.pmmAllocPage.1 m.heap.virtEnd m.pmmAllocPage.2 heapFlags =
        mapAt (leafEntry m.pmmAllocPage.2 heapFlags) (pathOf m.heap.virtEnd) m.pmmAllocPage.1
          m.pmmAllocPage.1.currentPml4 := vmmMapPage_eq _ _ _ _
    rw [pathOf] at hmap
    rw [hmap]
    generalize mapAt (leafEntry m.pmmAllocPage.2 heapFlags)
      [pml4Index m.heap.virtEnd, pdptIndex m.heap.virtEnd, pdIndex m.heap.virtEnd,
        ptIndex m.heap.virtEnd] m.pmmAllocPage.1 m.pmmAllocPage.1.currentPml4 =
          m₂ at hs₂ hoom haff ⊢
    exact ⟨rfl, hs₂.congr rfl, haff.congr rfl rfl, hoom.trans hnew.oom⟩

theorem growPages_affords (hs : Sane m) (h : Affords m (4 * n + k)) :
    (forWhile (fun _ => growPage) n m).2 = true ∧ Sane (forWhile (fun _ => growPage) n m).1 ∧
      Affords (forWhile (fun _ => growPage) n m).1 k ∧
      (forWhile (fun _ => growPage) n m).1.oom = m.oom := by
  induction n generalizing k with
  | zero => exact ⟨rfl, hs, h.mono (by omega), rfl⟩
  | succ n ih =>
    obtain ⟨hdone, hs₁, haff, hoom⟩ := ih (k := k + 4) (h.mono (by omega))
    obtain ⟨hdone', hs₂, haff', hoom'⟩ := growPage_affords hs₁ haff
    rw [forWhile, if_pos hdone]
    exact ⟨hdone', hs₂, haff', hoom'.trans hoom⟩

theorem heapGrow_affords (hs : Sane m) (pages : UInt64) (h : Affords m (4 * pages.toNat + k)) :
    (heapGrow m pages).2 = true ∧ Affords (heapGrow m pages).1 k ∧
      (heapGrow m pages).1.oom = m.oom := by
  obtain ⟨hdone, _, haff, hoom⟩ := growPages_affords hs h
  exact ⟨hdone, haff.congr rfl rfl, hoom⟩

theorem heapInit_of_grow {pages : UInt64} (h : heapGrow (startHeap m) pages = (m₁, true)) :
    heapInit m pages = { m₁ with heap := { m₁.heap with
      totalSize := pages * 4096, blocks :=
        [⟨heapVirtStart, pages * 4096 - headerSize, true⟩] } } := by
  simp only [heapInit, h]

structure HeapStarted (K : Set ℕ) (b : ℕ) (m : Machine) : Prop where
  ready : HeapReady K b m
  room : HeapRoom m 1024
  grown : ∀ q ∈ m.heap.grown, InUse m.pmm q
  blocks : m.heap.blocks = [⟨heapVirtStart, 64 * 4096 - headerSize, true⟩]

theorem heapInit_started (hs : Sane m) (hroot : InUse m.pmm b) (hcr3 : m.cr3 = pageAddr b)
    (hblank : ∀ i, m.ram b i = 0) (hgrown : m.heap.grown = []) (hoom : m.oom = false)
    (h : Affords m (256 + k)) : ∃ K, HeapStarted K b (heapInit m 64) ∧ Affords (heapInit m 64) k ∧
      (heapInit m 64).oom = false := by
  let m₀ : Machine := startHeap m
  have hready : HeapReady ∅ b m₀ := by
    refine ⟨hs.congr rfl, nofun, hroot, by simp, hcr3, ?_⟩
    intro virt _ c hc
    rw [hblank] at hc
    cases hc
  have hroom : HeapRoom m₀ (64 + 1024) :=
    ⟨UInt64.le_refl _, by change 18446744071830503424 + _ < _; omega⟩
  have hsixtyFour : (64 : UInt64).toNat = 64 := rfl
  obtain ⟨hsuccess, hrest, hoom₁⟩ := heapGrow_affords hready.sane 64
    (by rw [hsixtyFour]; exact h.congr rfl rfl)
  obtain ⟨hcall, _, hlow, hhigh⟩ := heapGrow_call hready 64 (hroom.mono (by rw [hsixtyFour]; omega))
  have hroom₁ : HeapRoom (heapGrow m₀ 64).1 1024 := hroom.after hlow hhigh
  have hready₁ := hcall.growth.ready hready
  have hquiet : (heapGrow m₀ 64).1.oom = false := hoom₁.trans hoom
  have heq := heapInit_of_grow (Prod.ext rfl hsuccess)
  rw [heq]
  generalize heapGrow m₀ 64 = out at hcall hroom₁ hready₁ hrest hquiet
  refine ⟨_, ⟨⟨hready₁.sane.congr rfl, hready₁.inUse, hready₁.root,
    hready₁.apart, hready₁.cr3, hready₁.walk⟩, ⟨hroom₁.start, hroom₁.fits⟩, ?_, rfl⟩,
    hrest.congr rfl rfl, hquiet⟩
  intro q hq
  rcases (hcall.grown q).mp hq with hold | htaken
  · rw [hgrown] at hold
    simp at hold
  · exact htaken.2

def firstBlocks : List HeapBlock :=
  [⟨heapVirtStart, 128, false⟩, ⟨heapVirtStart + headerSize + 128,
    64 * 4096 - headerSize - 128 - headerSize, true⟩]

def newProcess (z : ℕ) (pid ppid : Int32) : Process where
  addr := heapVirtStart + headerSize
  pid := pid
  ppid := ppid
  state := .alive
  cr3 := pageAddr z
  fdTable := 0
  exitCode := 0
  heapBase := 0
  heapEnd := 0
  stackTopVirt := 0
  stackLimitVirt := 0
  vmas := []

theorem heapWalk_created {K : Set ℕ} {z : ℕ} (h : HeapReady K b m) (hc : Created m z m₁) :
    HeapWalk K m₁.ram z := by
  have hne : ∀ q, InUse m.pmm q → q ≠ z := fun _ => hc.free.ne
  have hframe : frame m.cr3 = b := by
    rw [h.cr3, CopyOnWrite.frame_pageAddr (h.sane.lt_of_inUse h.root)]
  intro virt hvirt c hc'
  have hlow := pml4Index_heap hvirt
  have hhigh : pml4Index virt < 512 := by
    rw [pml4Index_eq]
    omega
  rw [hc.kernelHalf (by rw [hframe]; exact hne b h.root) _ hlow hhigh, hframe] at hc'
  exact (h.walk virt hvirt c hc').congr subset_rfl (fun q hq => hc.other q (hne q (h.inUse q hq)))

/-- The process runs on an empty user half, memory to spare. -/
theorem processCreate_first {K : Set ℕ} {s : Kernel} (h : HeapStarted K b s.machine)
    (haff : Affords s.machine (n + 1)) (hoom : s.machine.oom = false) (ppid : Int32) :
    ∃ m' z resv, processCreate s ppid =
      (⟨m', newProcess z s.nextPid ppid :: s.procTable, s.nextPid + 1⟩,
          some (newProcess z s.nextPid ppid)) ∧
      Running (m'.writeCr3 (pageAddr z)) {z} resv K z ∧ Affords (m'.writeCr3 (pageAddr z)) n ∧
      m'.oom = false ∧ m'.heap.blocks = firstBlocks ∧ ∀ i < 256, m'.ram z i = 0 := by
  let m₁ : Machine := { s.machine with heap := { s.machine.heap with blocks := firstBlocks } }
  have htake : takeBlock (rounded sizeofProcess) s.machine.heap.blocks =
      some (heapVirtStart + headerSize, firstBlocks) := by
    rw [h.blocks]
    decide
  have hcall : kmalloc s.machine sizeofProcess = (m₁, heapVirtStart + headerSize) :=
    kmallocFuel_take _ (by decide) htake
  have hready : HeapReady K b m₁ := by
    refine ⟨h.ready.sane.congr rfl, h.ready.inUse, h.ready.root,
      h.ready.apart, h.ready.cr3, h.ready.walk⟩
  have hafford₁ : Affords m₁ (n + 1) := haff.congr rfl rfl
  rcases vmmCloneKernelSpace_cases hready.sane with ⟨_, href⟩ | ⟨z, haddr, hne, hc⟩
  · exact absurd href hafford₁.not_refused
  · have hz := Finset.mem_singleton_self z
    have hwalk := heapWalk_created hready hc
    refine ⟨(vmmCloneKernelSpace m₁).1, z, {q | InUse m₁.pmm q}, ?_, ?_, ?_, ?_, ?_, hc.userHalf⟩
    · simp only [processCreate, hcall, processAllocAddressSpace_eq, haddr, hne,
        if_false, newProcess]
      rw [if_neg (by decide)]
    · have hwf : Wf (vmmCloneKernelSpace m₁).1 {z} {q | InUse m₁.pmm q} :=
        (start_wf (s := ⟨m₁, ∅⟩) hready.sane rfl).created hc
      refine ⟨hwf.of_eq rfl rfl, hz, rfl, hready.inUse, hwalk, ?_, ⟨?_, ?_⟩⟩
      · intro q hq
        change q ∈ (vmmCloneKernelSpace m₁).1.heap.grown at hq
        rw [hc.grows.heap] at hq
        exact h.grown q hq
      · change heapVirtStart ≤ (vmmCloneKernelSpace m₁).1.heap.virtEnd
        rw [hc.grows.heap]
        exact h.room.start
      · change (vmmCloneKernelSpace m₁).1.heap.virtEnd.toNat + _ < _
        rw [hc.grows.heap]
        exact (h.room.mono (by omega)).fits
    · exact (hafford₁.of_spend hc.granted hc.budget).congr rfl rfl
    · exact hc.oom.trans hoom
    · rw [hc.grows.heap]

def bootMap : List MemmapEntry := [⟨0x1000, 0x1000, .other⟩, ⟨0x2000, 0x200000, .usable⟩]

theorem bootMap_usable : UsableMap bootMap := by
  refine ⟨?_, ?_, ⟨0x2000, 0x200000, .usable⟩, by simp [bootMap], rfl, by decide, by decide⟩
  · intro e he husable
    simp only [bootMap, List.mem_cons, List.not_mem_nil, or_false] at he
    rcases he with rfl | rfl
    · cases husable
    · decide
  · simp [bootMap]

def bootPmm : Pmm := (pmmInit (fun _ => 0) bootMap).get (by decide)

theorem bootPmm_booted : Booted bootMap bootPmm := by
  obtain ⟨s₀, hinit, hbooted⟩ := pmmInit_booted bootMap_usable fun _ => 0
  obtain rfl : bootPmm = s₀ := Option.some.inj ((Option.some_get _).trans hinit)
  exact hbooted

-- It is a table of 514 bits, which must not be computed on the way.
attribute [irreducible] bootPmm

def bootMachine : Machine where
  ram := fun _ _ => 0
  pmm := bootPmm
  cr3 := 0x1000
  heap := ⟨[], 0, 0, 0, []⟩
  denials := []
  oom := false

theorem bootMachine_affords : Affords bootMachine 511 :=
  ⟨rfl, (bootPmm_booted.free_card (by decide +kernel)).ge⟩

def bootKernel : Kernel := ⟨heapInit bootMachine 64, [], 0⟩

theorem sane_boot : Sane bootMachine := sane_of_booted bootPmm_booted (by decide +kernel)
    (by decide +kernel)

theorem boot_started :
    ∃ K, HeapStarted K 1 (heapInit bootMachine 64) ∧ Affords (heapInit bootMachine 64) 255 ∧
      (heapInit bootMachine 64).oom = false :=
  heapInit_started sane_boot ⟨by decide +kernel, by decide +kernel⟩ (by decide)
    (fun _ => rfl) rfl rfl bootMachine_affords

theorem exists_first_process :
    ∃ K m z resv, processCreate bootKernel 0 = (⟨m, [newProcess z 0 0], 1⟩,
      some (newProcess z 0 0)) ∧
      Running (m.writeCr3 (pageAddr z)) {z} resv K z ∧ Affords (m.writeCr3 (pageAddr z)) 254 ∧
      m.oom = false ∧ m.heap.blocks = firstBlocks ∧ ∀ i < 256, m.ram z i = 0 := by
  obtain ⟨K, hstarted, haff, hoom⟩ := boot_started
  have hmachine : bootKernel.machine = heapInit bootMachine 64 := by simp only [bootKernel]
  rw [← hmachine] at hstarted haff hoom
  obtain ⟨m, z, resv, hmake, hrest⟩ := processCreate_first hstarted haff hoom 0
  exact ⟨K, m, z, resv, hmake, hrest⟩

end NexusKernel.FirstProcess
