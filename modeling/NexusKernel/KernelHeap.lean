import NexusKernel.Vmm

/-!
The kernel heap of mm/heap.c: blocks in address order, first fit with splitting, growth by whole
pages. Only the headers are modelled; the contents are values elsewhere. `kmalloc` is meant for
the time after `heap_init`.
-/

namespace NexusKernel.KernelHeap

open Lib.Loops PageEntries Hardware Vmm

def headerSize : UInt64 := 24
def minBlock : UInt64 := 32
def heapVirtStart : UInt64 := 0xFFFFFFFF90000000

def heapFlags : UInt64 := pagePresent ||| pageWritable ||| pageNx

def growPage (m : Machine) : Machine × Bool :=
  if m.pmmAllocPage.2 = 0 then (m.pmmAllocPage.1, false)
  else
    let mapped := vmmMapPage m.pmmAllocPage.1 m.heap.virtEnd m.pmmAllocPage.2 heapFlags
    ({ mapped with heap := { mapped.heap with virtEnd := mapped.heap.virtEnd + 4096 } }, true)

def takenPages (m m' : Machine) : List ℕ :=
  (List.range m.pmm.maxPageIndex.toNat).filter
    (fun q => Bitmap.bitmapTest m'.pmm.bitmap q && !Bitmap.bitmapTest m.pmm.bitmap q)

def heapGrow (m : Machine) (pages : UInt64) : Machine × Bool :=
  let (m', done) := forWhile (fun _ => growPage) pages.toNat m
  ({ m' with heap := { m'.heap with grown := takenPages m m' ++ m'.heap.grown } }, done)

def heapInit (m : Machine) (initialPages : UInt64) : Machine :=
  let m := { m with heap := { m.heap with virtBase := heapVirtStart, virtEnd := heapVirtStart } }
  match heapGrow m initialPages with
  | (m, false) => m
  | (m, true) =>
      { m with
        heap := { m.heap with
          totalSize := initialPages * 4096
          blocks := [⟨heapVirtStart, initialPages * 4096 - headerSize, true⟩] } }

abbrev startHeap (m : Machine) : Machine :=
  { m with heap := { m.heap with virtBase := heapVirtStart, virtEnd := heapVirtStart } }

abbrev withBlocks (m : Machine) (blocks : List HeapBlock) : Machine :=
    { m with heap := { m.heap with blocks := blocks } }

/-- First fit: the address behind the header of the block taken, and the list with it split if
enough remains. -/
def takeBlock (size : UInt64) : List HeapBlock → Option (UInt64 × List HeapBlock)
  | [] => none
  | b :: rest =>
      if b.free && b.size ≥ size then
        if b.size ≥ size + headerSize + minBlock then
          some (b.addr + headerSize, { b with size := size, free := false } ::
              { addr := b.addr + headerSize + size
                size := b.size - size - headerSize
                free := true } :: rest)
        else some (b.addr + headerSize, { b with free := false } :: rest)
      else (takeBlock size rest).map (fun found => (found.1, b :: found.2))

def growthFor (size : UInt64) : UInt64 :=
  let pages := (size + headerSize + 4095) / 4096
  if pages < 4 then 4 else pages

/-- `kmalloc`, whose last line calls it again after the growth; a null pointer is 0. Each round
takes at least four pages, so `fuel` rounds are enough when there are fewer pages. -/
def kmallocFuel : ℕ → Machine → UInt64 → Machine × UInt64
  | 0, m, _ => (m, 0)
  | fuel + 1, m, request =>
      if request = 0 then (m, 0)
      else
        let size := (request + 15) &&& ~~~15
        match takeBlock size m.heap.blocks with
        | some (ptr, blocks) => ({ m with heap := { m.heap with blocks := blocks } }, ptr)
        | none =>
            match heapGrow m (growthFor size) with
            | (m', false) => (m', 0)
            | (m', true) =>
                let block : HeapBlock :=
                  { addr := m.heap.virtEnd
                    size := growthFor size * 4096 - headerSize
                    free := true }
                kmallocFuel fuel { m' with
                    heap := { m'.heap with
                      blocks := m'.heap.blocks ++ [block]
                      totalSize := m'.heap.totalSize + growthFor size * 4096 } }
                  size

def kmalloc (m : Machine) (size : UInt64) : Machine × UInt64 :=
  kmallocFuel (m.pmm.maxPageIndex.toNat + 1) m size

/-- `kcalloc`; the cleared contents are not modelled. -/
def kcalloc (m : Machine) (count size : UInt64) : Machine × UInt64 := kmalloc m (count * size)

def coalesce : List HeapBlock → List HeapBlock
  | [] => []
  | [b] => [b]
  | b :: c :: rest =>
      if b.free && c.free then coalesce ({ b with size := b.size + (headerSize + c.size) } :: rest)
      else b :: coalesce (c :: rest)
  termination_by blocks => blocks.length

def kfree (m : Machine) (ptr : UInt64) : Machine :=
  if ptr = 0 then m
  else
    let freed := m.heap.blocks.map (fun b =>
      if b.addr = ptr - headerSize then { b with free := true } else b)
    { m with heap := { m.heap with blocks := coalesce freed } }

section

variable {P : Machine → Prop} {m : Machine} (hheap : ∀ m heap, P m → P { m with heap := heap })
variable (hgrow : ∀ m, P m → P (growPage m).1)
include hheap hgrow

theorem heapGrow_invariant (h : P m) (pages : UInt64) : P (heapGrow m pages).1 :=
  hheap _ _ (forWhile_invariant P h (fun _ t _ ht => hgrow t ht))

/-- A heap call keeps what each page of growth keeps, the heap apart. -/
theorem kmallocFuel_invariant (h : P m) (fuel : ℕ) (request : UInt64) :
    P (kmallocFuel fuel m request).1 := by
  fun_induction kmallocFuel fuel m request with
  | case1 | case2 => exact h
  | case3 => exact hheap _ _ h
  | case4 fuel m request _ size _ m' heq =>
    have hgrown := heapGrow_invariant hheap hgrow h (growthFor size)
    rwa [heq] at hgrown
  | case5 fuel m request _ size _ m' heq block ih =>
    have hgrown := heapGrow_invariant hheap hgrow h (growthFor size)
    rw [heq] at hgrown
    exact ih (hheap _ _ hgrown)

end

end NexusKernel.KernelHeap
