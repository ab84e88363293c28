import NexusKernel.FirstProcess
import NexusKernel.Lib.FreeList

/-!
The representation invariant of the kernel heap over runs of `kmalloc` and `kfree`. The block list
is seen as a list of blocks with numbers; as long as the heap ends below the top of the address
space, which `heap_grow` never checks, nothing wraps. A growth that fails half-way leaves pages
that belong to no block, so later blocks may have a gap before them.
-/

namespace NexusKernel.HeapInvariant

open Lib.Loops Lib.Runs Lib.FreeList PageAllocation PageEntries Hardware PageSupply
open KernelHeap HeapGrowth FirstProcess Block
open UInt64 (le_iff_toNat_le toNat_add toNat_inj toNat_mul)
open List (map_append map_cons map_map mem_map mem_map_of_mem)

def view (b : HeapBlock) : Block := ⟨b.addr.toNat, b.size.toNat, b.free⟩

variable {m : Machine} {lo hi : ℕ} {size request ptr : UInt64} {blocks blocks' : List HeapBlock}

theorem view_injective {b c : HeapBlock} (h : view b = view c) : b = c := by
  obtain ⟨haddr, hsize, hfree⟩ := mk.inj h
  cases b
  cases c
  simp_all [toNat_inj]

theorem toNat_sub_header (h : 24 ≤ size.toNat) : (size - headerSize).toNat = size.toNat - 24 :=
  UInt64.toNat_sub_of_le _ _ (le_iff_toNat_le.mpr h)

theorem takeBlock_view (size : UInt64) (hsize : size.toNat < 2 ^ 63) (hhi : hi < 2 ^ 64)
    (h : Laid 24 lo hi (blocks.map view)) :
    (takeBlock size blocks).map (fun found => (found.1.toNat, found.2.map view)) =
      (take 24 32 size.toNat (blocks.map view)).map (fun found => (found.1 + 24, found.2)) := by
  induction blocks generalizing lo with
  | nil => rfl
  | cons b rest ih =>
    have hstop := (h.inside List.mem_cons_self).2
    change b.addr.toNat + 24 + b.size.toNat ≤ hi at hstop
    have hneed : (size + headerSize + minBlock).toNat = size.toNat + 24 + 32 := by
      simp only [toNat_add, headerSize, minBlock, UInt64.reduceToNat]
      omega
    have hptr : (b.addr + headerSize).toNat = b.addr.toNat + 24 := by
      simp only [toNat_add, headerSize, UInt64.reduceToNat]
      omega
    have hfit : (b.free && decide (b.size ≥ size)) =
      ((view b).free && decide (size.toNat ≤ (view b).size)) :=
      congrArg (b.free && ·) (decide_eq_decide.mpr le_iff_toNat_le)
    rw [takeBlock, map_cons, take, hfit]
    by_cases hfits : ((view b).free && decide (size.toNat ≤ (view b).size)) = true
    · rw [if_pos hfits, cut]
      simp only [ge_iff_le, le_iff_toNat_le, hneed]
      change Option.map _ (if size.toNat + 24 + 32 ≤ (view b).size then _ else _) = _
      split
      · rename_i hroom
        change size.toNat + 24 + 32 ≤ b.size.toNat at hroom
        have hnext : (b.addr + headerSize + size).toNat = b.addr.toNat + 24 + size.toNat := by
          rw [toNat_add]
          omega
        have hrest : (b.size - size - headerSize).toNat = b.size.toNat - size.toNat - 24 := by
          have hle : size ≤ b.size := le_iff_toNat_le.mpr (by omega)
          have hdiff : (b.size - size).toNat = b.size.toNat - size.toNat :=
            UInt64.toNat_sub_of_le _ _ hle
          rw [toNat_sub_header (by omega), hdiff]
        simp [view, hptr, hnext, hrest]
      · simp [view, hptr]
    · have hrest := ih h.2
      rw [if_neg hfits, if_neg hfits]
      simpa [Function.comp_def] using congrArg (Option.map fun found => (found.1,
        view b :: found.2)) hrest

theorem coalesce_view (hhi : hi < 2 ^ 64) (h : Laid 24 lo hi (blocks.map view)) :
    (coalesce blocks).map view = merge 24 (blocks.map view) := by
  fun_induction coalesce blocks generalizing lo with
  | case1 | case2 b => simp [merge]
  | case3 b c rest hboth ih =>
    simp only [map_cons] at h ⊢
    obtain ⟨hlow, hc, hrest⟩ := h
    have hle := hrest.le
    simp only [view] at hlow hc hle
    have hsum : (b.size + (headerSize + c.size)).toNat = b.size.toNat + (24 + c.size.toNat) := by
      simp only [toNat_add, headerSize, UInt64.reduceToNat]
      omega
    rw [merge, if_pos (by simpa only [view] using hboth)]
    simp only [Bool.and_eq_true] at hboth
    have hview : view { b with size := b.size + (headerSize + c.size) } =
        ⟨b.addr.toNat, b.size.toNat + (24 + c.size.toNat), true⟩ := by
      simp only [view, hsum, hboth.1]
    have hmerged :
        Laid 24 lo hi (({ b with size := b.size + (headerSize + c.size) } :: rest).map view) := by
      refine ⟨hlow, hrest.mono ?_ le_rfl⟩
      simp only [view]
      omega
    rw [ih hmerged, map_cons, hview]
    rfl
  | case4 b c rest hnot ih =>
    simp only [map_cons] at h ⊢
    rw [merge, if_neg (by simpa only [view] using hnot), ih h.2, map_cons]

theorem rounded_eq (request : UInt64) : (rounded request).toNat = (request + 15).toNat / 16 * 16 :=
  toNat_and_high _ 4 (by decide)

theorem rounded_toNat (request : UInt64) (h : request.toNat + 15 < 2 ^ 64) :
    (rounded request).toNat = (request.toNat + 15) / 16 * 16 := by
  rw [rounded_eq, toNat_add]
  simp only [UInt64.reduceToNat]
  rw [Nat.mod_eq_of_lt h]

theorem rounded_ne_zero (hne : request ≠ 0) (hsize : request.toNat + 15 < 2 ^ 64) :
    rounded request ≠ 0 := by
  have hround := rounded_toNat request hsize
  have hpos : request.toNat ≠ 0 := fun h => hne (toNat_inj.mp h)
  intro hz
  rw [hz, UInt64.toNat_zero] at hround
  omega

theorem rounded_mod (request : UInt64) : (rounded request).toNat % 16 = 0 := by
  rw [rounded_eq]
  omega

@[simp] theorem rounded_rounded (request : UInt64) :
    rounded (rounded request) = rounded request := by
  have hmod := rounded_mod request
  have hlt := (rounded request).toNat_lt
  apply toNat_inj.mp
  rw [rounded_toNat _ (by omega)]
  omega

/-- The heap grows by enough pages for the request and its header. -/
theorem growthFor_toNat (hsize : size.toNat + 4119 < 2 ^ 64) :
    (growthFor size).toNat = max 4 ((size.toNat + 24 + 4095) / 4096) := by
  have hpages : ((size + headerSize + 4095) / 4096).toNat = (size.toNat + 24 + 4095) / 4096 := by
    simp only [UInt64.toNat_div, toNat_add, headerSize, UInt64.reduceToNat]
    omega
  simp only [growthFor, UInt64.lt_iff_toNat_lt, apply_ite UInt64.toNat, hpages, UInt64.reduceToNat]
  split <;> omega

theorem growthFor_bytes (hsize : size.toNat + 4119 < 2 ^ 64) :
    (growthFor size * 4096).toNat = (growthFor size).toNat * 4096 := by
  have := growthFor_toNat hsize
  simp only [toNat_mul, UInt64.reduceToNat]
  omega

def newBlock (m : Machine) (size : UInt64) : HeapBlock :=
  ⟨m.heap.virtEnd, growthFor size * 4096 - headerSize, true⟩

theorem newBlock_size (m : Machine) (hsize : size.toNat + 4119 < 2 ^ 64) :
    (newBlock m size).size.toNat = (growthFor size).toNat * 4096 - 24 := by
  have hbytes := growthFor_bytes hsize
  have hpages := growthFor_toNat hsize
  change (growthFor size * 4096 - headerSize).toNat = _
  rw [toNat_sub_header (by omega), hbytes]

theorem size_le_newBlock (m : Machine) (hsize : size.toNat + 4119 < 2 ^ 64) :
    size ≤ (newBlock m size).size := by
  have hpages := growthFor_toNat hsize
  rw [le_iff_toNat_le, newBlock_size m hsize]
  omega

def extended (heap : HeapState) (j : ℕ) : HeapState :=
  { heap with virtEnd := heap.virtEnd + UInt64.ofNat j * 4096 }

theorem extended_zero (heap : HeapState) : extended heap 0 = heap := by simp [extended]

theorem growPage_extended {t : Machine} {j : ℕ} (h : t.heap = extended heap j) :
    (growPage t).1.heap = extended heap (if (growPage t).2 then j + 1 else j) := by
  rw [growPage_heap, h]
  cases (growPage t).2 with
  | false => simp
  | true =>
    simp only [extended, if_true, UInt64.ofNat_add, UInt64.add_mul, UInt64.add_assoc]
    rfl

theorem growPages_heap (m : Machine) (n : ℕ) :
    ∃ j, j ≤ n ∧ ((forWhile (fun _ => growPage) n m).2 = true → j = n) ∧
    (forWhile (fun _ => growPage) n m).1.heap = extended m.heap j := by
  refine forWhile_successes (fun j (t : Machine) => t.heap = extended m.heap j)
    (extended_zero m.heap).symm ?_ ?_
  · intro j t ht hgo
    rw [growPage_extended ht, hgo, if_pos rfl]
  · intro j t ht hstop
    rw [growPage_extended ht, hstop, if_neg Bool.false_ne_true]

/-- `heap_grow` moves the end of the heap by the pages it mapped. -/
theorem heapGrow_heap (m : Machine) (pages : UInt64) :
    ∃ j grown, j ≤ pages.toNat ∧ ((heapGrow m pages).2 = true → j = pages.toNat) ∧
      (heapGrow m pages).1.heap =
        { m.heap with virtEnd := m.heap.virtEnd + UInt64.ofNat j * 4096, grown := grown } := by
  obtain ⟨j, hj, hdone, hheap⟩ := growPages_heap m pages.toNat
  refine ⟨j, (heapGrow m pages).1.heap.grown, hj, hdone, ?_⟩
  simp only [heapGrow, hheap, extended]

/-- A growth that succeeds has found a page, so there are pages. -/
theorem maxPageIndex_pos (pages : UInt64) (hpages : 0 < pages.toNat)
    (h : (heapGrow m pages).2 = true) : 0 < m.pmm.maxPageIndex.toNat := by
  by_contra hnone
  have hz : m.pmm.maxPageIndex.toNat - 1 = 0 := by omega
  have href : m.pmmAllocPage.2 = 0 := by
    simp [Machine.pmmAllocPage, PhysicalMemory.pmmAllocPage, hz, List.find?_nil]
  have hpage : (growPage m).2 = false := by
    rw [growPage, if_pos href]
  obtain ⟨n, hn⟩ := Nat.exists_eq_add_of_lt hpages
  have hfirst : (forWhile (fun _ => growPage) pages.toNat m).2 = false := by
    rwa [hn, forWhile_first hpage]
  exact Bool.noConfusion (hfirst.symm.trans h)

def afterGrowth (m : Machine) (size : UInt64) : Machine :=
  { (heapGrow m (growthFor size)).1 with
    heap := { (heapGrow m (growthFor size)).1.heap with
      blocks := (heapGrow m (growthFor size)).1.heap.blocks ++ [newBlock m size]
      totalSize := (heapGrow m (growthFor size)).1.heap.totalSize + growthFor size * 4096 } }

/-- One round of `kmalloc` for which no block is found. -/
theorem kmallocFuel_grow (fuel : ℕ) (hne : request ≠ 0)
    (hnone : takeBlock (rounded request) m.heap.blocks = none) : kmallocFuel (fuel + 1) m request =
      if (heapGrow m (growthFor (rounded request))).2 then
        kmallocFuel fuel (afterGrowth m (rounded request)) (rounded request)
      else ((heapGrow m (growthFor (rounded request))).1, 0) := by
  unfold rounded at hnone ⊢
  rw [kmallocFuel, if_neg hne, afterGrowth]
  simp only [hnone]
  generalize heapGrow m (growthFor ((request + 15) &&& ~~~15)) = out
  obtain ⟨m₁, done⟩ := out
  cases done <;> rfl

theorem heapGrow_blocks (m : Machine) (pages : UInt64) :
    (heapGrow m pages).1.heap.blocks = m.heap.blocks := by
  obtain ⟨j, grown, _, _, hheap⟩ := heapGrow_heap m pages
  rw [hheap]

theorem afterGrowth_blocks (m : Machine) (size : UInt64) :
    (afterGrowth m size).heap.blocks = m.heap.blocks ++ [newBlock m size] :=
  congrArg (· ++ _) (heapGrow_blocks m _)

/-- `kmalloc` takes a block, fails to grow the heap, or grows it and takes the new block. -/
theorem kmalloc_cases (m : Machine) (hne : request ≠ 0) (hne' : rounded request ≠ 0)
    (hsize : (rounded request).toNat + 4119 < 2 ^ 64) :
    let grown := heapGrow m (growthFor (rounded request))
    (∃ ptr blocks, takeBlock (rounded request) m.heap.blocks = some (ptr, blocks) ∧
      kmalloc m request = (withBlocks m blocks, ptr)) ∨
    (takeBlock (rounded request) m.heap.blocks = none ∧ grown.2 = false ∧ kmalloc m request =
      (grown.1, 0)) ∨
    (takeBlock (rounded request) m.heap.blocks = none ∧ grown.2 = true ∧
      ∃ ptr blocks, takeBlock (rounded request) (m.heap.blocks ++ [newBlock m (rounded request)]) =
          some (ptr, blocks) ∧ kmalloc m request = ({ afterGrowth m (rounded request) with
              heap := { (afterGrowth m (rounded request)).heap with blocks := blocks }
                }, ptr)) := by
  dsimp only
  cases hfound : takeBlock (rounded request) m.heap.blocks with
  | some found =>
    obtain ⟨ptr, blocks⟩ := found
    exact .inl ⟨ptr, blocks, rfl, kmallocFuel_take m.pmm.maxPageIndex.toNat hne hfound⟩
  | none =>
    rw [kmalloc, kmallocFuel_grow _ hne hfound]
    cases hdone : (heapGrow m (growthFor (rounded request))).2 with
    | false => exact .inr (.inl ⟨rfl, rfl, rfl⟩)
    | true =>
      -- The second round rounds a rounded size and finds the new block.
      have hpages := growthFor_toNat hsize
      have hpos := maxPageIndex_pos _ (by omega) hdone
      obtain ⟨n, hn⟩ : ∃ n, m.pmm.maxPageIndex.toNat = n + 1 :=
        ⟨m.pmm.maxPageIndex.toNat - 1, by omega⟩
      obtain ⟨⟨ptr, blocks⟩, hnew⟩ := takeBlock_append (rounded request) m.heap.blocks
        (b := newBlock m (rounded request)) rfl (size_le_newBlock m hsize)
      have hfound' : takeBlock (rounded (rounded request))
          (afterGrowth m (rounded request)).heap.blocks = some (ptr, blocks) := by
        rwa [rounded_rounded, afterGrowth_blocks]
      rw [hn, kmallocFuel_take n hne' hfound']
      exact .inr (.inr ⟨rfl, rfl, ptr, blocks, hnew, rfl⟩)

theorem kmalloc_heap (hne : request ≠ 0) (hsize : request.toNat + 15 < 2 ^ 63) :
    (∃ blocks, takeBlock (rounded request) m.heap.blocks = some ((kmalloc m request).2, blocks) ∧
      (kmalloc m request).1.heap = { m.heap with blocks := blocks }) ∨
    (takeBlock (rounded request) m.heap.blocks = none ∧
      (heapGrow m (growthFor (rounded request))).2 = false ∧ (kmalloc m request).2 = 0 ∧
      ∃ j grown, j ≤ (growthFor (rounded request)).toNat ∧ (kmalloc m request).1.heap =
          { m.heap with virtEnd := m.heap.virtEnd + UInt64.ofNat j * 4096, grown := grown }) ∨
    (takeBlock (rounded request) m.heap.blocks = none ∧
      (heapGrow m (growthFor (rounded request))).2 = true ∧
      ∃ blocks grown, takeBlock (rounded request)
        (m.heap.blocks ++ [newBlock m (rounded request)]) = some ((kmalloc m request).2, blocks) ∧
        (kmalloc m request).1.heap = { m.heap with
            blocks := blocks
            virtEnd := m.heap.virtEnd + growthFor (rounded request) * 4096
            totalSize := m.heap.totalSize + growthFor (rounded request) * 4096
            grown := grown }) := by
  have hround := rounded_toNat request (by omega)
  obtain ⟨j, grown, hj, hdone, hheap⟩ := heapGrow_heap m (growthFor (rounded request))
  rcases kmalloc_cases m hne (rounded_ne_zero hne (by omega)) (by omega)
    with ⟨ptr, blocks, htake, heq⟩ | ⟨hnone, hfailed, heq⟩ |
    ⟨hnone, hgrown, ptr, blocks, htake, heq⟩
  · rw [heq]
    exact .inl ⟨blocks, htake, rfl⟩
  · rw [heq]
    exact .inr (.inl ⟨hnone, hfailed, rfl, j, grown, hj, hheap⟩)
  · rw [heq]
    refine .inr (.inr ⟨hnone, hgrown, blocks, grown, htake, ?_⟩)
    rw [hdone hgrown, UInt64.ofNat_toNat] at hheap
    simp only [afterGrowth, hheap]

structure Allocation where
  ptr : UInt64
  requested : UInt64
  deriving DecidableEq, Repr

structure HeapUse where
  machine : Machine
  live : List Allocation

/-- The state after `kmalloc`; a null pointer is not an allocation. -/
def HeapUse.afterKmalloc (s : HeapUse) (request : UInt64) : HeapUse :=
  ⟨(kmalloc s.machine request).1,
    if (kmalloc s.machine request).2 = 0 then s.live
    else ⟨(kmalloc s.machine request).2, request⟩ :: s.live⟩

/-- A call of `kmalloc` for a request that `ok` allows and whose rounded size is below 2^63, a
call of `kfree` on a live pointer, or anything that leaves the heap alone. -/
inductive Step (ok : HeapState → UInt64 → Prop) : HeapUse → HeapUse → Prop
  | kmalloc (s : HeapUse) (request : UInt64) (hsize : (request.toNat + 15) / 16 * 16 < 2 ^ 63)
      (hok : ok s.machine.heap request) : Step ok s (s.afterKmalloc request)
  | kfree (s : HeapUse) (a : Allocation) (ha : a ∈ s.live) :
      Step ok s ⟨kfree s.machine a.ptr, s.live.erase a⟩
  | other (s : HeapUse) (m' : Machine) (hheap : m'.heap = s.machine.heap) : Step ok s ⟨m', s.live⟩

/-- A request that no free block can serve finds room for the growth below the top. -/
def Roomy (heap : HeapState) (request : UInt64) : Prop :=
  (∀ b ∈ heap.blocks, ¬ (b.free = true ∧ rounded request ≤ b.size)) →
    heap.virtEnd.toNat + 4096 * (growthFor (rounded request)).toNat < 2 ^ 64

structure Serves (blocks : List HeapBlock) (a : Allocation) (b : HeapBlock) : Prop where
  mem : b ∈ blocks
  used : b.free = false
  ptr : a.ptr.toNat = b.addr.toNat + 24
  large : a.requested ≤ b.size

structure HeapOk (s : HeapUse) : Prop where
  ascending : s.machine.heap.blocks.IsChain
    (fun b c => b.addr < c.addr ∧ b.addr.toNat + 24 + b.size.toNat ≤ c.addr.toNat)
  inside : ∀ b ∈ s.machine.heap.blocks, s.machine.heap.virtBase ≤ b.addr ∧
    b.addr.toNat + 24 + b.size.toNat ≤ s.machine.heap.virtEnd.toNat
  coalesced : s.machine.heap.blocks.IsChain (fun b c => ¬ (b.free = true ∧ c.free = true))
  total : (s.machine.heap.blocks.map (fun b => b.size.toNat + 24)).sum =
    s.machine.heap.totalSize.toNat
  served : ∀ a ∈ s.live, ∃ b, Serves s.machine.heap.blocks a b
  disjoint : s.live.Pairwise fun a a' => ∀ b b', Serves s.machine.heap.blocks a b →
    Serves s.machine.heap.blocks a' b' → b.addr.toNat + 24 + b.size.toNat ≤ b'.addr.toNat + 24 ∨
      b'.addr.toNat + 24 + b'.size.toNat ≤ b.addr.toNat + 24

structure Kept (heap : HeapState) (live : List Allocation) : Prop where
  laid : Laid 24 heap.virtBase.toNat heap.virtEnd.toNat (heap.blocks.map view)
  settled : Settled (heap.blocks.map view)
  total : total 24 (heap.blocks.map view) = heap.totalSize.toNat
  served : ∀ a ∈ live, ∃ b, Serves heap.blocks a b
  nodup : (live.map (·.ptr)).Nodup

variable {heap : HeapState} {live : List Allocation} {s t : HeapUse} {a a' : Allocation}
  {b b' : HeapBlock}

theorem same_block (h : Laid 24 lo hi (blocks.map view)) (hb : b ∈ blocks) (hb' : b' ∈ blocks)
    (haddr : b.addr.toNat = b'.addr.toNat) : view b = view b' := by
  by_contra hne
  have hle := h.apart (mem_map_of_mem hb) (mem_map_of_mem hb') hne
  simp only [view] at hle
  omega

/-- An allocation is served by any list with a block at the place of its own. -/
theorem Serves.of_view (h : Serves blocks a b) (hmem : view b ∈ blocks'.map view) :
    ∃ b', Serves blocks' a b' := by
  obtain ⟨b', hb', hview⟩ := mem_map.mp hmem
  simp only [view, mk.injEq] at hview
  have hlarge := le_iff_toNat_le.mp h.large
  exact ⟨b', hb',
    hview.2.2.trans h.used, by rw [hview.1]; exact h.ptr, le_iff_toNat_le.mpr (by omega)⟩

theorem Kept.apart (h : Kept heap live) (hb : Serves heap.blocks a b)
    (hb' : Serves heap.blocks a' b') (hne : a.ptr ≠ a'.ptr) :
    b.addr.toNat + 24 + b.size.toNat ≤ b'.addr.toNat ∨
      b'.addr.toNat + 24 + b'.size.toNat ≤ b.addr.toNat := by
  refine h.laid.apart (mem_map_of_mem hb.mem) (mem_map_of_mem hb'.mem) fun heq => ?_
  have haddr : b.addr.toNat = b'.addr.toNat := congrArg start heq
  exact hne (toNat_inj.mp (by rw [hb.ptr, hb'.ptr, haddr]))

theorem Kept.heapOk (h : Kept s.machine.heap s.live) : HeapOk s where
  ascending := by
    have hchain := (List.isChain_map view).mp h.laid.isChain
    refine hchain.imp fun b c hbc => ?_
    simp only [view] at hbc
    exact ⟨UInt64.lt_iff_toNat_lt.mpr (by omega), hbc⟩
  inside := by
    intro b hb
    obtain ⟨hlow, hhigh⟩ := h.laid.inside (mem_map_of_mem hb)
    exact ⟨le_iff_toNat_le.mpr hlow, hhigh⟩
  coalesced := (List.isChain_map view).mp h.settled
  total := by
    rw [← h.total, Lib.FreeList.total, map_map]
    rfl
  served := h.served
  disjoint := by
    have hne := List.pairwise_map.mp h.nodup
    refine hne.imp fun {a a'} hptr b b' hb hb' => ?_
    have hapart := h.apart hb hb' hptr
    omega

theorem Kept.take (h : Kept heap live) (heap' : HeapState) (hsize : request.toNat + 15 < 2 ^ 63)
    (hblks : heap'.blocks = blocks') (hbase : heap'.virtBase = heap.virtBase)
    (hlaid : Laid 24 heap.virtBase.toNat heap'.virtEnd.toNat (blocks.map view))
    (hold : ∀ b ∈ heap.blocks, b ∈ blocks)
    (hset : ∀ start l, Lib.FreeList.take 24 32 (rounded request).toNat (blocks.map view) =
      some (start, l) → Settled l)
    (htotal : Lib.FreeList.total 24 (blocks.map view) = heap'.totalSize.toNat)
    (htake : takeBlock (rounded request) blocks = some (ptr, blocks')) :
    ptr ≠ 0 ∧ Kept heap' (⟨ptr, request⟩ :: live) := by
  have hround := rounded_toNat request (by omega)
  have hview := takeBlock_view (rounded request) (by omega) heap'.virtEnd.toNat_lt hlaid
  rw [htake] at hview
  obtain ⟨⟨start, blocks₁⟩, htake', heq⟩ := Option.map_eq_some_iff.mp hview.symm
  simp only [Prod.mk.injEq] at heq
  obtain ⟨hptr, rfl⟩ := heq
  obtain ⟨⟨n, hn, hserves⟩, c, hc, hst, hfree⟩ := take_served htake'
  obtain ⟨b, hb, hbview⟩ := mem_map.mp hserves
  obtain ⟨d, hd, rfl⟩ := mem_map.mp hc
  simp only [view, mk.injEq] at hbview hst hfree
  obtain ⟨haddr, hbsize, hused⟩ := hbview
  refine ⟨?_, ?_, ?_, ?_, ?_, ?_⟩
  · intro hz
    rw [hz] at hptr
    simp only [UInt64.reduceToNat] at hptr
    omega
  · rw [hblks, hbase]
    exact take_laid htake' hlaid
  · rw [hblks]
    exact hset start _ htake'
  · rw [hblks, take_total htake', htotal]
  · intro a ha
    rw [hblks]
    rcases List.mem_cons.mp ha with rfl | ha
    · exact ⟨b, hb, hused, by dsimp only; omega, le_iff_toNat_le.mpr (by dsimp only; omega)⟩
    · obtain ⟨e, he⟩ := h.served a ha
      exact he.of_view (take_kept htake' (mem_map_of_mem (hold e he.mem)) he.used)
  · -- The block was free, so no live pointer leads to it.
    refine List.nodup_cons.mpr ⟨?_, h.nodup⟩
    intro hmem
    obtain ⟨a, ha, haptr⟩ := mem_map.mp hmem
    obtain ⟨e, he⟩ := h.served a ha
    have heptr := he.ptr
    rw [haptr] at heptr
    dsimp only at heptr
    have hsame := same_block hlaid hd (hold e he.mem) (by omega)
    exact Bool.noConfusion (hfree.symm.trans ((congrArg free hsame).trans he.used))

/-- A growth that fails moves only the end. -/
theorem Kept.extended (h : Kept heap live) {j : ℕ} (hroom : heap.virtEnd.toNat + 4096 * j < 2 ^ 64)
    (grown : List ℕ) : Kept { HeapInvariant.extended heap j with grown := grown } live := by
  have hend : heap.virtEnd.toNat ≤ (heap.virtEnd + UInt64.ofNat j * 4096).toNat := by
    rw [toNat_add, toNat_mul, UInt64.toNat_ofNat']
    simp only [UInt64.reduceToNat]
    omega
  exact ⟨h.laid.mono le_rfl hend, h.settled, h.total, h.served, h.nodup⟩

theorem kmalloc_kept (h : Kept m.heap live) (hsize : request.toNat + 15 < 2 ^ 63)
    (hok : Roomy m.heap request) : Kept (kmalloc m request).1.heap
      (if (kmalloc m request).2 = 0 then live else ⟨(kmalloc m request).2, request⟩ :: live) := by
  have hround := rounded_toNat request (by omega)
  have hsmall : (rounded request).toNat + 4119 < 2 ^ 64 := by omega
  by_cases hz : request = 0
  · have hnothing : kmalloc m request = (m, 0) := by
      rw [kmalloc, kmallocFuel, if_pos hz]
    simpa only [hnothing, if_true] using h
  rcases kmalloc_heap hz hsize with ⟨blocks, htake, hheap⟩ |
    ⟨hnone, _, hnull, j, grown, hj, hheap⟩ | ⟨hnone, _, blocks, grown, htake, hheap⟩
  · obtain ⟨hptr, hkept⟩ := h.take (kmalloc m request).1.heap hsize (by rw [hheap])
      (by rw [hheap]) (by rw [hheap]; exact h.laid) (fun _ hb => hb)
      (fun _ _ htake' => take_settled htake' h.settled) (by rw [hheap]; exact h.total) htake
    rw [if_neg hptr]
    exact hkept
  · have hroom := hok (takeBlock_eq_none.mp hnone)
    rw [hnull, hheap]
    exact h.extended (by omega) grown
  · have hroom := hok (takeBlock_eq_none.mp hnone)
    have hbytes := growthFor_bytes hsmall
    have hpages := growthFor_toNat hsmall
    have hnew := newBlock_size m hsmall
    have hend : (m.heap.virtEnd + growthFor (rounded request) * 4096).toNat =
        m.heap.virtEnd.toNat + (growthFor (rounded request)).toNat * 4096 := by
      rw [toNat_add]
      omega
    have hlaid :
      Laid 24 m.heap.virtBase.toNat (m.heap.virtEnd + growthFor (rounded request) * 4096).toNat
        ((m.heap.blocks ++ [newBlock m (rounded request)]).map view) := by
      rw [map_append, laid_append]
      refine ⟨m.heap.virtEnd.toNat, h.laid, le_rfl, ?_⟩
      change m.heap.virtEnd.toNat + 24 + (newBlock m (rounded request)).size.toNat ≤ _
      omega
    have htotal :
      Lib.FreeList.total 24 ((m.heap.blocks ++ [newBlock m (rounded request)]).map view) =
        (m.heap.totalSize + growthFor (rounded request) * 4096).toNat := by
      have hlast : Lib.FreeList.total 24 ([newBlock m (rounded request)].map view) =
          (newBlock m (rounded request)).size.toNat + 24 := by
        simp [Lib.FreeList.total, view]
      have hsum := hlaid.total_le
      rw [map_append, total_append, h.total] at hsum ⊢
      rw [toNat_add]
      omega
    have hset : ∀ start l, Lib.FreeList.take 24 32 (rounded request).toNat
        ((m.heap.blocks ++ [newBlock m (rounded request)]).map view) = some (start, l) →
        Settled l := by
      intro start l htake'
      have hsuit : ∀ c ∈ m.heap.blocks.map view,
          ¬ (c.free = true ∧ (rounded request).toNat ≤ c.size) := by
        intro c hc
        obtain ⟨b, hb, rfl⟩ := mem_map.mp hc
        intro hboth
        exact takeBlock_eq_none.mp hnone b hb ⟨hboth.1, le_iff_toNat_le.mpr hboth.2⟩
      have htaken := take_append 24 32 hsuit (b := view (newBlock m (rounded request))) rfl
        (le_iff_toNat_le.mp (size_le_newBlock m hsmall))
      rw [map_append, List.map_singleton, htaken] at htake'
      simp only [Option.some.injEq, Prod.mk.injEq] at htake'
      rw [← htake'.2, ← List.append_nil (cut 24 32 _ _)]
      exact Settled.append_cut h.settled (settled_cut rfl (List.isChain_singleton _))
    obtain ⟨hptr, hkept⟩ := h.take (kmalloc m request).1.heap hsize (by rw [hheap])
      (by rw [hheap]) (by rw [hheap]; exact hlaid) (fun _ hb => List.mem_append_left _ hb)
      hset (by rw [hheap]; exact htotal) htake
    rw [if_neg hptr]
    exact hkept

theorem kfree_kept (h : Kept m.heap live) (ha : a ∈ live) :
    Kept (kfree m a.ptr).heap (live.erase a) := by
  obtain ⟨b, hb⟩ := h.served a ha
  have hptr := hb.ptr
  have hne : a.ptr ≠ 0 := by
    intro hz
    rw [hz] at hptr
    simp only [UInt64.reduceToNat] at hptr
    omega
  let release : HeapBlock → HeapBlock := fun b =>
    if b.addr = a.ptr - headerSize then { b with free := true } else b
  have hheap : (kfree m a.ptr).heap =
      { m.heap with blocks := coalesce (m.heap.blocks.map release) } := by
    rw [kfree, if_neg hne]
  have hst : ∀ c, (view c).start = (view (release c)).start := by grind [view]
  have hsize : ∀ c, (view c).size = (view (release c)).size := by grind [view]
  have hlaid : Laid 24 m.heap.virtBase.toNat m.heap.virtEnd.toNat
      ((m.heap.blocks.map release).map view) := by
    rw [map_map]
    exact laid_map_congr hst hsize h.laid
  have hview := coalesce_view m.heap.virtEnd.toNat_lt hlaid
  rw [hheap]
  refine ⟨?_, ?_, ?_, ?_, ?_⟩
  · rw [hview]
    exact merge_laid hlaid
  · rw [hview]
    exact merge_settled
  · rw [hview, merge_total, ← h.total]
    simp only [Lib.FreeList.total, map_map]
    congr 1
    apply List.map_congr_left
    intro c _
    exact congrArg (· + 24) (hsize c).symm
  · -- The other allocations are served by other blocks, which keep their place.
    intro a' ha'
    have hmem := List.mem_of_mem_erase ha'
    obtain ⟨c, hc⟩ := h.served a' hmem
    have hother : a'.ptr ≠ a.ptr := by
      intro heq
      obtain rfl := List.inj_on_of_nodup_map h.nodup hmem ha heq
      exact h.nodup.of_map.not_mem_erase ha'
    have hstill : release c = c := by
      apply if_neg
      intro haddr
      have hcptr := hc.ptr
      rw [haddr, toNat_sub_header (by omega)] at hcptr
      exact hother (toNat_inj.mp (by omega))
    have hcmem : view c ∈ merge 24 ((m.heap.blocks.map release).map view) := by
      rw [merge_used hc.used]
      exact mem_map_of_mem (mem_map.mpr ⟨c, hc.mem, hstill⟩)
    rw [← hview] at hcmem
    exact hc.of_view hcmem
  · exact (h.nodup.sublist ((List.erase_sublist).map _))

theorem step_kept (h : Kept s.machine.heap s.live) (hstep : Step Roomy s t) :
    Kept t.machine.heap t.live := by
  cases hstep with
  | kmalloc request hsize hok => exact kmalloc_kept h (by omega) hok
  | kfree a ha => exact kfree_kept h ha
  | other m' hheap =>
    rw [hheap]
    exact h

variable {pages : UInt64}

theorem heapInit_heap (hfit : heapVirtStart.toNat + 4096 * pages.toNat < 2 ^ 64)
    (hgrow : (heapGrow (startHeap m) pages).2 = true) :
    (heapInit m pages).heap.blocks = [⟨heapVirtStart, pages * 4096 - headerSize, true⟩] ∧
      (heapInit m pages).heap.virtBase = heapVirtStart ∧
      (heapInit m pages).heap.virtEnd.toNat = heapVirtStart.toNat + 4096 * pages.toNat ∧
      (heapInit m pages).heap.totalSize.toNat = 4096 * pages.toNat := by
  obtain ⟨j, grown, _, hdone, hheap⟩ := heapGrow_heap (startHeap m) pages
  obtain rfl := hdone hgrow
  rw [heapInit_of_grow (Prod.ext rfl hgrow)]
  rw [hheap]
  refine ⟨rfl, rfl, ?_, ?_⟩
  · simp only [UInt64.ofNat_toNat, toNat_add, toNat_mul, UInt64.reduceToNat]
    omega
  · simp only [toNat_mul, UInt64.reduceToNat]
    omega

theorem heapInit_kept (hpages : pages ≠ 0)
    (hfit : heapVirtStart.toNat + 4096 * pages.toNat < 2 ^ 64)
    (hgrow : (heapGrow (startHeap m) pages).2 = true) : Kept (heapInit m pages).heap [] := by
  obtain ⟨hblks, hbase, hend, htotal⟩ := heapInit_heap hfit hgrow
  have hpos : pages.toNat ≠ 0 := fun h => hpages (toNat_inj.mp h)
  have hbytes : (pages * 4096).toNat = 4096 * pages.toNat := by
    simp only [toNat_mul, UInt64.reduceToNat]
    omega
  have hsize : (pages * 4096 - headerSize).toNat = _ := toNat_sub_header (by omega)
  refine ⟨?_, ?_, ?_, fun a ha => absurd ha List.not_mem_nil, List.nodup_nil⟩
  · rw [hblks, hbase]
    refine ⟨le_rfl, ?_⟩
    change heapVirtStart.toNat + 24 + (pages * 4096 - headerSize).toNat ≤ _
    omega
  · rw [hblks]
    exact List.isChain_singleton _
  · rw [hblks]
    simp only [Lib.FreeList.total, view, map_cons, List.map_nil,
      List.sum_cons, List.sum_nil]
    omega

/-- After `heap_init` has mapped its pages, the representation invariant holds in every run in
which the heap does not grow beyond the top of the address space. -/
theorem heap_invariant {pages : UInt64} (hpages : pages ≠ 0)
    (hfit : heapVirtStart.toNat + 4096 * pages.toNat < 2 ^ 64)
    (hgrow : (heapGrow { m with heap := { m.heap with
      virtBase := heapVirtStart, virtEnd := heapVirtStart } } pages).2 = true)
    (hrun : Reachable (Step Roomy) ⟨heapInit m pages, []⟩ s) : HeapOk s :=
  Kept.heapOk (Reachable.invariant (fun s => Kept s.machine.heap s.live)
    (fun _ _ h hstep => step_kept h hstep) (heapInit_kept hpages hfit hgrow) hrun)

theorem heapGrow_from_start (hs : Sane m) (pages : UInt64) (h : Affords m (4 * pages.toNat)) :
    (heapGrow (startHeap m) pages).2 = true :=
  (heapGrow_affords (k := 0) (m := startHeap m) (hs.congr rfl) pages (h.congr rfl rfl)).1

def firstBlock : HeapBlock := ⟨heapVirtStart, 64 * 4096 - headerSize, true⟩

theorem roomy_of_firstBlock (request : UInt64) (h : heap.blocks = [firstBlock])
    (hfit : rounded request ≤ firstBlock.size) : Roomy heap request := by
  intro hnone
  refine absurd ⟨rfl, hfit⟩ (hnone firstBlock ?_)
  rw [h]
  exact List.mem_singleton_self _

theorem boot_grows : (heapGrow (startHeap bootMachine) 64).2 = true :=
  heapGrow_from_start sane_boot 64 (bootMachine_affords.mono (by decide))

theorem heap_invariant_bootMachine :
    HeapOk ((⟨heapInit bootMachine 64, []⟩ : HeapUse).afterKmalloc 100) := by
  have hroomy := roomy_of_firstBlock 100 (heapInit_heap (by decide) boot_grows).1 (by decide)
  exact heap_invariant (by decide) (by decide) boot_grows
    (.single (Step.kmalloc _ 100 (by decide) hroomy))

/-- With memory for it, a request of almost the whole region moves the end of a heap of 64 pages
past the top. -/
theorem kmalloc_past_top (hs : Sane m) (hblks : m.heap.blocks = [firstBlock])
    (hend : m.heap.virtEnd = heapVirtStart + 64 * 4096) (h : Affords m (4 * 458689)) :
    ¬ HeapOk ((⟨m, []⟩ : HeapUse).afterKmalloc 0x6FFC0000) := by
  have hgrow : (heapGrow m (growthFor (rounded 0x6FFC0000))).2 = true :=
    (heapGrow_affords (k := 0) hs _ (h.mono (by decide))).1
  have hnone : takeBlock (rounded 0x6FFC0000) m.heap.blocks = none := by
    rw [hblks]
    decide
  intro hok
  rcases kmalloc_heap (show (0x6FFC0000 : UInt64) ≠ 0 by decide) (by decide) with
    ⟨blocks, htake, _⟩ | ⟨_, hfail, _⟩ | ⟨_, _, blocks, grown, htake, hheap⟩
  · exact absurd (hnone.symm.trans htake) (by simp)
  · exact Bool.noConfusion (hfail.symm.trans hgrow)
  · have hfirst : firstBlock ∈ blocks := by
      rw [hblks, List.singleton_append, takeBlock, if_neg (by decide)] at htake
      obtain ⟨found, _, heq⟩ := Option.map_eq_some_iff.mp htake
      rw [← (Prod.mk.inj heq).2]
      exact List.mem_cons_self
    have hheap' : ((⟨m, []⟩ : HeapUse).afterKmalloc 0x6FFC0000).machine.heap = _ := hheap
    have hin := (hok.inside firstBlock (by rw [hheap']; exact hfirst)).2
    rw [hheap', hend] at hin
    dsimp only at hin
    exact absurd hin (by decide)

def wideMachine : Machine where
  ram := fun _ _ => 0
  pmm := {
    bitmap := Bitmap.fullBytes 64
    bitmapAddr := 0x1000
    maxPageIndex := 4194304
    usablePages := 4193792
    usedPages := 0
    pageRefcount := fun _ => 0
    maxPageIndex_lt := by decide }
  cr3 := 0xC8000
  heap := ⟨[], 0, 0, 0, []⟩
  denials := []
  oom := false

/-- The heap is started with 64 pages, and a request for 1.75 GiB succeeds: its block runs past
the last address. -/
theorem heap_passes_top : Reachable (Step fun _ _ => True) ⟨heapInit wideMachine 64, []⟩
      ((⟨heapInit wideMachine 64, []⟩ : HeapUse).afterKmalloc 0x6FFC0000) ∧
    ¬ HeapOk ((⟨heapInit wideMachine 64, []⟩ : HeapUse).afterKmalloc 0x6FFC0000) := by
  have hs : Sane wideMachine :=
    sane_of_fullBytes rfl (by decide) (by decide) (by decide) (by decide) (by decide)
  have hroot : InUse wideMachine.pmm 200 :=
    ⟨by decide, (Bitmap.test_fullBytes 64 200).trans (by decide)⟩
  have haff : Affords wideMachine (256 + 4 * 458689) :=
    (affords_of_fullBytes rfl rfl).mono (by decide)
  have hgrow := heapGrow_from_start hs 64 (haff.mono (by decide))
  obtain ⟨hblks, _, hend, _⟩ := heapInit_heap (by decide) hgrow
  obtain ⟨K, hstarted, hrest, _⟩ := heapInit_started hs hroot (by decide)
    (fun _ => rfl) rfl rfl haff
  refine ⟨.single (Step.kmalloc _ _ (by decide) trivial), ?_⟩
  exact kmalloc_past_top hstarted.ready.sane hblks
    (toNat_inj.mp (hend.trans (by decide))) hrest

end NexusKernel.HeapInvariant
