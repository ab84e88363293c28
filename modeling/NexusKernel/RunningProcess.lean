import NexusKernel.ProcessTable
import NexusKernel.HeapGrowth

/-!
The state in which a process runs, as far as its memory goes. The kernel heap
can grow in it without disturbing any address space.
-/

namespace NexusKernel.RunningProcess

open Lib.TableTree PhysicalMemory Hardware Walks Vmm AddressSpaces KernelTables
open HeapGrowth ProcessTable

/-- A state in which the process with root `r` runs: the address spaces in `live` are well formed,
the pages in `resv` belong to the kernel, among them the heap and, in `K`, its tables, and the
heap has room for two calls. -/
structure Running (m : Machine) (live : Finset ℕ) (resv K : Set ℕ) (r : ℕ) : Prop where
  wf : Wf m live resv
  mem : r ∈ live
  cr3 : m.cr3 = pageAddr r
  tables : K ⊆ resv
  walk : HeapWalk K m.ram r
  grown : ∀ q ∈ m.heap.grown, q ∈ resv
  room : HeapRoom m 8

variable {m : Machine} {live : Finset ℕ} {resv K : Set ℕ} {r : ℕ}

theorem heapReady_of_wf (hwf : Wf m live resv) (hr : r ∈ live) (hcr3 : m.cr3 = pageAddr r)
    (hK : K ⊆ resv) (hwalk : HeapWalk K m.ram r) : HeapReady K r m := by
  refine ⟨hwf.sane, fun q hq => (hwf.reserved q (hK hq)).1, (hwf.tree r hr).root, ?_, hcr3, hwalk⟩
  exact fun hmem => (hwf.reserved r (hK hmem)).2 r hr root_mem_tables

theorem Running.heapReady (h : Running m live resv K r) : HeapReady K r m :=
  heapReady_of_wf h.wf h.mem h.cr3 h.tables h.walk

theorem HeapWalk.pageMapped {m' : Machine} {l : List ℕ} {f : ℕ} {w : Bool} (h : HeapWalk K m.ram r)
    (hwf : Wf m live resv) (hr : r ∈ live) (hK : K ⊆ resv) (hmap : PageMapped m r l f w m') :
    HeapWalk K m'.ram r := by
  refine h.congr hmap.kernelHalf fun q hq => ?_
  obtain ⟨huse, hout⟩ := hwf.reserved q (hK hq)
  exact hmap.elsewhere q huse (hout r hr)

/-- The process has a page more. -/
theorem Running.pageMapped {m' : Machine} {l : List ℕ} {f : ℕ} {w : Bool}
    (h : Running m live resv K r) (hl : l ∈ userPaths) (hmap : PageMapped m r l f w m') :
    Running m' live resv K r := by
  have hheap := hmap.grows.heap
  exact ⟨h.wf.pageMapped h.mem hl hmap, h.mem, hmap.grows.cr3.trans h.cr3, h.tables,
    HeapWalk.pageMapped h.walk h.wf h.mem h.tables hmap, hheap ▸ h.grown,
    ⟨hheap ▸ h.room.start, hheap ▸ h.room.fits⟩⟩

theorem processAllocAddressSpace_eq (m : Machine) :
    processAllocAddressSpace m = vmmCloneKernelSpace m := by
  unfold processAllocAddressSpace vmmCloneKernelSpace Machine.pmmAllocPage
  by_cases href : m.denials.head? = some true ∨ (PhysicalMemory.pmmAllocPage m.pmm).2 = 0
  · simp [href]
  · simp [href, Machine.zeroPage, Machine.currentPml4]

end NexusKernel.RunningProcess
