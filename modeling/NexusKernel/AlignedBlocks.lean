import NexusKernel.HeapBytes

/-!
Aligned allocations. Up to an alignment of 16 `kmalloc_aligned` returns what `kmalloc` does, the
address behind a header of 24 bytes; headers are at multiples of 8, no more.
-/

namespace NexusKernel.AlignedBlocks

open Lib.Runs PageEntries Hardware KernelHeap HeapGrowth FirstProcess HeapInvariant HeapBytes
open UInt64 (le_iff_toNat_le toNat_add toNat_inj toNat_sub_of_le)

/-- `kmalloc_aligned`. The word before the result, with the pointer of `kmalloc`, is part of the
block's contents. -/
def kmallocAligned (m : Machine) (size align : UInt64) : Machine × UInt64 :=
  if align ≤ 16 then kmalloc m size
  else
    match kmalloc m (size + align + 8) with
    | (m', 0) => (m', 0)
    | (m', raw) => (m', (raw + 8 + align - 1) &&& ~~~(align - 1))

def request (size align : UInt64) : UInt64 := if align ≤ 16 then size else size + align + 8

/-- The result is aligned, and its bytes are inside a block in use. -/
def Delivers (m : Machine) (size align : UInt64) : Prop :=
  (kmallocAligned m size align).2 ≠ 0 → (kmallocAligned m size align).2.toNat % align.toNat = 0 ∧
    ∃ b ∈ (kmallocAligned m size align).1.heap.blocks, b.free = false ∧
      b.addr.toNat + 24 ≤ (kmallocAligned m size align).2.toNat ∧
      (kmallocAligned m size align).2.toNat + size.toNat ≤ b.addr.toNat + 24 + b.size.toNat

def Spaced (blocks : List HeapBlock) : Prop := ∀ b ∈ blocks, b.addr.toNat % 8 = 0 ∧
    b.size.toNat % 8 = 0

variable {m : Machine} {size ptr align : UInt64} {blocks blocks' : List HeapBlock} {k : ℕ}

theorem toNat_add_mod (a b : UInt64) : (a + b).toNat % 8 = (a.toNat + b.toNat) % 8 := by
  rw [toNat_add]
  omega

theorem toNat_sub_mod (a b : UInt64) : (a - b).toNat % 8 = (a.toNat + (8 - b.toNat % 8)) % 8 := by
  have hb := b.toNat_lt
  rw [UInt64.toNat_sub]
  omega

theorem toNat_pages_mod (pages : UInt64) : (pages * 4096).toNat % 8 = 0 := by
  rw [UInt64.toNat_mul]
  simp only [UInt64.reduceToNat]
  omega

theorem toNat_headerSize : headerSize.toNat = 24 := rfl

theorem Spaced.take (h : Spaced blocks) (hsize : size.toNat % 8 = 0)
    (htake : takeBlock size blocks = some (ptr, blocks')) : Spaced blocks' ∧ ptr.toNat % 8 = 0 := by
  obtain ⟨before, b, after, rfl, -, rfl, rfl⟩ := takeBlock_eq_some htake
  obtain ⟨hpre, hrest⟩ := List.forall_mem_append.mp h
  obtain ⟨hb, hafter⟩ := List.forall_mem_cons.mp hrest
  have hptr := toNat_add_mod b.addr headerSize
  rw [toNat_headerSize] at hptr
  have hcut : Spaced (cutBlock size b) := by
    have hnext := toNat_add_mod (b.addr + headerSize) size
    have hleft := toNat_sub_mod (b.size - size) headerSize
    have hdiff := toNat_sub_mod b.size size
    rw [toNat_headerSize] at hleft
    unfold cutBlock
    split
    · refine List.forall_mem_cons.mpr ⟨⟨hb.1, hsize⟩, List.forall_mem_singleton.mpr ?_⟩
      dsimp only
      omega
    · exact List.forall_mem_singleton.mpr hb
  exact ⟨List.forall_mem_append.mpr ⟨hpre, List.forall_mem_append.mpr ⟨hcut, hafter⟩⟩, by omega⟩

theorem Spaced.coalesce (h : Spaced blocks) : Spaced (coalesce blocks) := by
  fun_induction KernelHeap.coalesce blocks with
  | case1 | case2 b => exact h
  | case3 b c rest hboth ih =>
    obtain ⟨hb, hc, hrest⟩ : _ ∧ _ ∧ _ := by simpa [Spaced] using h
    refine ih (List.forall_mem_cons.mpr ⟨⟨hb.1, ?_⟩, hrest⟩)
    have hinner := toNat_add_mod headerSize c.size
    have hsum := toNat_add_mod b.size (headerSize + c.size)
    rw [toNat_headerSize] at hinner
    dsimp only
    omega
  | case4 b c rest hnot ih =>
    obtain ⟨hb, hrest⟩ := List.forall_mem_cons.mp h
    exact List.forall_mem_cons.mpr ⟨hb, ih hrest⟩

theorem Spaced.kfree (h : Spaced m.heap.blocks) (ptr : UInt64) :
    Spaced (kfree m ptr).heap.blocks := by
  unfold KernelHeap.kfree
  split
  · exact h
  · refine Spaced.coalesce fun b hb => ?_
    obtain ⟨c, hc, rfl⟩ := List.mem_map.mp hb
    have hspaced := h c hc
    split <;> exact hspaced

def HeapSpaced (heap : HeapState) : Prop := Spaced heap.blocks ∧ heap.virtEnd.toNat % 8 = 0

theorem HeapSpaced.kmalloc (h : HeapSpaced m.heap) {request : UInt64}
    (hsize : request.toNat + 15 < 2 ^ 63) :
    HeapSpaced (kmalloc m request).1.heap ∧ (kmalloc m request).2.toNat % 8 = 0 := by
  by_cases hz : request = 0
  · have hnothing :
      KernelHeap.kmalloc m request = (m, 0) := by rw [KernelHeap.kmalloc, kmallocFuel, if_pos hz]
    rw [hnothing]
    exact ⟨h, rfl⟩
  have hround := rounded_mod request
  have hend (j : UInt64) : (m.heap.virtEnd + j * 4096).toNat % 8 = 0 := by
    have hsum := toNat_add_mod m.heap.virtEnd (j * 4096)
    have hj := toNat_pages_mod j
    have hvirt := h.2
    omega
  rcases kmalloc_heap hz hsize with ⟨blocks, htake, hheap⟩ |
    ⟨-, -, hnull, j, grown, -, hheap⟩ | ⟨-, -, blocks, grown, htake, hheap⟩
  · obtain ⟨hspaced, hptr⟩ := h.1.take (by omega) htake
    rw [hheap]
    exact ⟨⟨hspaced, h.2⟩, hptr⟩
  · rw [hheap, hnull]
    exact ⟨⟨h.1, hend _⟩, rfl⟩
  · have hnew : Spaced [newBlock m (rounded request)] := by
      have hsub := toNat_sub_mod (growthFor (rounded request) * 4096) headerSize
      have hbytes := toNat_pages_mod (growthFor (rounded request))
      rw [toNat_headerSize] at hsub
      exact List.forall_mem_singleton.mpr ⟨h.2, by dsimp only [newBlock]; omega⟩
    obtain ⟨hspaced, hptr⟩ := Spaced.take (List.forall_mem_append.mpr ⟨h.1, hnew⟩) (by omega) htake
    rw [hheap]
    exact ⟨⟨hspaced, hend _⟩, hptr⟩

theorem heapSpaced_run {s t : HeapUse} (h : HeapSpaced s.machine.heap)
    (hrun : Reachable (Step Roomy) s t) : HeapSpaced t.machine.heap := by
  refine hrun.invariant (fun s => HeapSpaced s.machine.heap) (fun a b ha hab => ?_) h
  cases hab with
  | kmalloc request hsize hok => exact (ha.kmalloc (by omega)).1
  | kfree alloc _ => exact ⟨ha.1.kfree alloc.ptr, by simpa [kfree, apply_ite] using ha.2⟩
  | other m' hheap =>
    rw [hheap]
    exact ha

theorem toNat_align_up (x : UInt64) (hk : k < 64) (halign : align.toNat = 2 ^ k) :
    (x &&& ~~~(align - 1)).toNat = x.toNat / 2 ^ k * 2 ^ k := by
  have hpos : 1 ≤ 2 ^ k := Nat.one_le_two_pow
  have hpred : (align - 1).toNat = 2 ^ k - 1 := by
    rw [toNat_sub_of_le _ _ (le_iff_toNat_le.mpr (by rw [halign]; exact hpos)),
      halign]
    rfl
  refine toNat_and_high x k fun j hj => ?_
  have hlt : 2 ^ k - 1 < 2 ^ 64 := (Nat.sub_le _ _).trans_lt (Nat.pow_lt_pow_right (by decide) hk)
  have hmask : (~~~(align - 1)).toNat = 2 ^ 64 - (2 ^ k - 1 + 1) := by
    have hwide : UInt64.size = 2 ^ 64 := rfl
    rw [UInt64.toNat_not]
    omega
  rw [hmask, Nat.testBit_two_pow_sub_succ hlt]
  by_cases hlow : k ≤ j
  · simp [hj, hlow, Nat.not_lt.mpr hlow]
  · simp [hj, hlow, Nat.lt_of_not_le hlow]

variable {live : List Allocation}

theorem exists_serves {asked : UInt64} (h : Kept m.heap live)
    (hsize : asked.toNat + 15 < 2 ^ 63) (hok : Roomy m.heap asked)
    (hptr : (kmalloc m asked).2 ≠ 0) :
    ∃ b, Serves (kmalloc m asked).1.heap.blocks ⟨(kmalloc m asked).2, asked⟩ b ∧
      b.addr.toNat + 24 + b.size.toNat < 2 ^ 64 := by
  have hkept := kmalloc_kept h hsize hok
  rw [if_neg hptr] at hkept
  obtain ⟨b, hb⟩ := hkept.served _ List.mem_cons_self
  refine ⟨b, hb, lt_of_le_of_lt (hkept.laid.inside (List.mem_map_of_mem hb.mem)).2
    (UInt64.toNat_lt _)⟩

theorem delivers (h : Kept m.heap live) (hspaced : HeapSpaced m.heap) (hk : k ≤ 32)
    (hsixteen : k ≠ 4) (halign : align.toNat = 2 ^ k) (hsize : size.toNat ≤ 2 ^ 32)
    (hok : Roomy m.heap (request size align)) : Delivers m size align := by
  have hsmall : align ≤ 16 ↔ k ≤ 4 := by
    rw [le_iff_toNat_le, halign]
    exact Nat.pow_le_pow_iff_right (m := 4) (by decide)
  by_cases hfast : align ≤ 16
  · have hcall : kmallocAligned m size align = kmalloc m size := if_pos hfast
    rw [request, if_pos hfast] at hok
    intro hptr
    rw [hcall] at hptr ⊢
    obtain ⟨b, hb, -⟩ := exists_serves h (by omega) hok hptr
    have hmod : (kmalloc m size).2.toNat % 8 = 0 := (hspaced.kmalloc (by omega)).2
    have hlarge := le_iff_toNat_le.mp hb.large
    have hst := hb.ptr
    dsimp only at hlarge hst
    have hk3 : k ≤ 3 := by
      have := hsmall.mp hfast
      omega
    refine ⟨?_, b, hb.mem, hb.used, by omega, by omega⟩
    rw [halign]
    exact Nat.mod_eq_zero_of_dvd ((pow_dvd_pow 2 hk3).trans (Nat.dvd_of_mod_eq_zero hmod))
  · have htop : 2 ^ k ≤ 2 ^ 32 := Nat.pow_le_pow_right (by decide) hk
    have hasked : (size + align + 8).toNat = size.toNat + 2 ^ k + 8 := by
      simp only [toNat_add, halign, UInt64.reduceToNat]
      omega
    rw [request, if_neg hfast] at hok
    unfold Delivers kmallocAligned
    rw [if_neg hfast]
    split
    · exact fun hptr => absurd rfl hptr
    · rename_i m' raw hraw hcall
      intro _
      obtain ⟨b, hb, hend⟩ := exists_serves h (by omega) hok (by rwa [hcall])
      rw [hcall] at hb
      have hlarge := le_iff_toNat_le.mp hb.large
      have hst := hb.ptr
      dsimp only at hlarge hst ⊢
      have hsum : (raw + 8 + align - 1).toNat = raw.toNat + 7 + 2 ^ k := by
        rw [toNat_sub_of_le]
        · simp only [toNat_add, halign, UInt64.reduceToNat]
          omega
        · rw [le_iff_toNat_le]
          simp only [toNat_add, halign, UInt64.reduceToNat]
          omega
      have hround := Nat.div_add_mod (raw.toNat + 7 + 2 ^ k) (2 ^ k)
      rw [toNat_align_up _ (by omega) halign, hsum, halign]
      rw [Nat.mul_comm] at hround
      exact ⟨Nat.mul_mod_left _ _, b, hb.mem, hb.used, by omega, by omega⟩

/-- The states of the heap behind `heap_init`, while it stays below the top of the address space. -/
def HeapReached (s : HeapUse) : Prop :=
  ∃ (m : Machine) (pages : UInt64), pages ≠ 0 ∧ heapVirtStart.toNat + 4096 * pages.toNat < 2 ^ 64 ∧
    (heapGrow { m with heap := { m.heap with virtBase := heapVirtStart, virtEnd := heapVirtStart } }
      pages).2 = true ∧ Reachable (Step Roomy) ⟨heapInit m pages, []⟩ s

theorem HeapReached.kept {s : HeapUse} (h : HeapReached s) : Kept s.machine.heap s.live := by
  obtain ⟨m, pages, hpages, hfit, hgrow, hrun⟩ := h
  exact hrun.invariant (fun s => Kept s.machine.heap s.live) (fun _ _ h hstep => step_kept h hstep)
    (heapInit_kept hpages hfit hgrow)

theorem boot_blocks : (heapInit bootMachine 64).heap.blocks = [firstBlock] :=
    (heapInit_heap (by decide) boot_grows).1

/-- A first block of the size of the heap at its start serves every request that fits. -/
theorem kmalloc_first (request : UInt64) {left : List HeapBlock}
    (h : m.heap.blocks = firstBlock :: left)
    (hne : request ≠ 0) (hfit : rounded request ≤ firstBlock.size) :
    takeBlock (rounded request) m.heap.blocks ≠ none ∧ kmalloc m request =
      (withBlocks m (cutBlock (rounded request) firstBlock ++ left),
        heapVirtStart + headerSize) := by
  have htake : takeBlock (rounded request) m.heap.blocks =
      some (heapVirtStart + headerSize, cutBlock (rounded request) firstBlock ++ left) := by
    rw [h, takeBlock_cons, if_pos ⟨rfl, hfit⟩]
    rfl
  exact ⟨by simp [htake], kmallocFuel_take _ hne htake⟩

theorem kmalloc_firstBlock (h : m.heap.blocks = [firstBlock]) :
    (kmallocAligned m 1 16).2 = heapVirtStart + headerSize :=
  congrArg Prod.snd (kmalloc_first 1 h (by decide) (by decide)).2

/-- The first block of the heap is not at a multiple of 16. -/
theorem not_delivers_firstBlock (h : m.heap.blocks = [firstBlock]) : ¬ Delivers m 1 16 := by
  intro hdelivers
  rw [Delivers, kmalloc_firstBlock h] at hdelivers
  exact absurd (hdelivers (by decide)).1 (by decide)

theorem heapReached_boot : HeapReached ⟨heapInit bootMachine 64, []⟩ :=
  ⟨bootMachine, 64, by decide, by decide, boot_grows, .refl⟩

theorem exists_boot : ∃ m, HeapReached ⟨m, []⟩ ∧ m.heap.blocks = [firstBlock] :=
  ⟨_, heapReached_boot, boot_blocks⟩

/-- After `heap_init`, one byte with an alignment of 16 is put at no multiple of 16. -/
theorem first_block_unaligned : HeapReached ⟨heapInit bootMachine 64, []⟩ ∧
    Roomy (heapInit bootMachine 64).heap (request 1 16) ∧
      ¬ Delivers (heapInit bootMachine 64) 1 16 :=
  ⟨heapReached_boot, roomy_of_firstBlock _ boot_blocks (by decide),
    not_delivers_firstBlock boot_blocks⟩

/-- In every state of the heap aligned allocations are right exactly if the alignment is not 16. -/
theorem kmalloc_aligned_iff (hk : k ≤ 32) (halign : align.toNat = 2 ^ k) :
    (∀ s size, HeapReached s → size.toNat ≤ 2 ^ 32 → Roomy s.machine.heap (request size align) →
      Delivers s.machine size align) ↔ align ≠ 16 := by
  constructor
  · rintro h rfl
    obtain ⟨m, hreach, hblks⟩ := exists_boot
    have hone : (1 : UInt64).toNat ≤ 2 ^ 32 := Nat.one_le_two_pow
    exact not_delivers_firstBlock hblks
      (h ⟨m, []⟩ 1 hreach hone (roomy_of_firstBlock _ hblks (by decide)))
  · intro hne s size hreach hsize hok
    have hsixteen : k ≠ 4 := by
      rintro rfl
      exact hne (toNat_inj.mp halign)
    have hkept := hreach.kept
    obtain ⟨m, pages, hpages, hfit, hgrow, hrun⟩ := hreach
    obtain ⟨hblks, -, hend, -⟩ := heapInit_heap hfit hgrow
    have hst : HeapSpaced (heapInit m pages).heap := by
      have hvirt : heapVirtStart.toNat % 8 = 0 := by decide
      have hsub := toNat_sub_mod (pages * 4096) headerSize
      have hmul := toNat_pages_mod pages
      rw [toNat_headerSize] at hsub
      refine ⟨?_, by omega⟩
      rw [hblks]
      exact List.forall_mem_singleton.mpr ⟨hvirt, by dsimp only; omega⟩
    exact delivers hkept (heapSpaced_run hst hrun) hk hsixteen halign hsize hok

/-- Whole pages. -/
theorem kmalloc_aligned_iff_page : (UInt64.toNat 4096 = 2 ^ 12 ∧ ∀ s size, HeapReached s →
      size.toNat ≤ 2 ^ 32 →
    Roomy s.machine.heap (request size 4096) → Delivers s.machine size 4096) :=
  ⟨rfl, (kmalloc_aligned_iff (k := 12) (by decide) rfl).mpr (by decide)⟩

/-- `block->free = 1` is four bytes at the pointer less 16. They may be part of a header that is not
the one meant. -/
def strayStore (m : Machine) (ptr : UInt64) : Bool :=
  m.heap.blocks.any fun b => b.addr != ptr - headerSize &&
    decide (b.addr.toNat < ptr.toNat - 12 ∧ ptr.toNat - 16 < b.addr.toNat + 24)

/-- A stray store leaves no list of blocks to walk. -/
def kfreeCall (m : Machine) (ptr : UInt64) : Option Machine :=
  if ptr ≠ 0 && strayStore m ptr then none else some (kfree m ptr)

/-- `kfree` marks the block in use that holds the pointer and no other, merges free neighbours and
stores to no byte of a live allocation. -/
structure GivenBack (live : List Allocation) (out : Machine × UInt64) : Prop where
  freed : ∃ b ∈ out.1.heap.blocks, b.free = false ∧ b.addr.toNat + 24 ≤ out.2.toNat ∧
    out.2.toNat < b.addr.toNat + 24 + b.size.toNat ∧ kfreeCall out.1 out.2 = some (withBlocks out.1
      (coalesce (out.1.heap.blocks.map fun c => if c = b then { c with free := true } else c)))
  payload : ∀ a ∈ live, ∀ i < a.requested.toNat,
    ¬ HeapStored out.1.heap (kfree out.1 out.2).heap (a.ptr + UInt64.ofNat i)

theorem mem_coalesce {c : HeapBlock} (hused : c.free = false) :
    c ∈ coalesce blocks ↔ c ∈ blocks := by
  fun_induction KernelHeap.coalesce blocks with
  | case1 | case2 b => rfl
  | case3 b d rest hboth ih =>
    have hne : ∀ e : HeapBlock, e.free = true → c ≠ e := by
      rintro e hfree rfl
      exact absurd (hfree.symm.trans hused) (by decide)
    obtain ⟨hb, hd⟩ := Bool.and_eq_true_iff.mp hboth
    simp [ih, hne b hb, hne d hd, hne { b with size := b.size + (headerSize + d.size) } hb]
  | case4 b d rest hnot ih => rw [List.mem_cons, List.mem_cons, ih]

theorem toNat_and_not (x y : UInt64) : (x &&& y).toNat + (x &&& ~~~y).toNat = x.toNat := by
  have hapart : (x.toBitVec &&& y.toBitVec) &&& (x.toBitVec &&& ~~~y.toBitVec) = 0#64 := by
    ext i
    simp
    tauto
  have hsum := BitVec.toNat_add_of_and_eq_zero hapart
  rw [BitVec.add_eq_or_of_and_eq_zero _ _ hapart, ← BitVec.and_or_distrib_left,
    BitVec.or_not_self, BitVec.and_allOnes] at hsum
  exact hsum.symm

section

variable {s : HeapUse} (hs : HeapReached s) (hsize : size.toNat + align.toNat + 23 < 2 ^ 63)
  (hok : Roomy s.machine.heap (request size align))
  (hptr : (kmallocAligned s.machine size align).2 ≠ 0)
include hs hsize hok hptr

/-- The header is found at its fixed distance where the pointer is that of `kmalloc`. -/
theorem givenBack (halign : align ≤ 16) :
    GivenBack s.live (kmallocAligned s.machine size align) := by
  rw [request, if_pos halign] at hok
  rw [kmallocAligned, if_pos halign] at hptr ⊢
  have hz : size ≠ 0 := by
    rintro rfl
    exact hptr (by rw [kmalloc, kmallocFuel, if_pos rfl])
  have hkept := kmalloc_kept hs.kept (by omega) hok
  rw [if_neg hptr] at hkept
  obtain ⟨b, hb⟩ := hkept.served _ List.mem_cons_self
  have hpos : size.toNat ≠ 0 := fun h => hz (toNat_inj.mp h)
  have hlarge := le_iff_toNat_le.mp hb.large
  have hst := hb.ptr
  dsimp only at hlarge hst
  have hhead : (kmalloc s.machine size).2 - headerSize = b.addr :=
    toNat_inj.mp (by rw [toNat_sub_header (by omega)]; omega)
  have hfit : strayStore (kmalloc s.machine size).1 (kmalloc s.machine size).2 = false := by
    refine List.any_eq_false.mpr fun c hc hstray => ?_
    obtain ⟨hother, hstray⟩ := Bool.and_eq_true_iff.mp hstray
    have hviews : view c ≠ view b := fun h => bne_iff_ne.mp hother
      ((congrArg HeapBlock.addr (view_injective h)).trans hhead.symm)
    have hapart := hkept.laid.apart (List.mem_map_of_mem hc) (List.mem_map_of_mem hb.mem) hviews
    have hboth := of_decide_eq_true hstray
    simp only [view] at hapart
    omega
  refine ⟨⟨b, hb.mem, hb.used, by omega, by omega, ?_⟩, fun a ha i hi => ?_⟩
  · rw [kfreeCall, hfit, Bool.and_false, if_neg (by decide), kfree, if_neg hptr, hhead]
    refine congrArg (fun blocks => some (withBlocks _ (coalesce blocks)))
      (List.map_congr_left fun c hc => ?_)
    -- blocks in address order differ in their addresses
    have hsame : c.addr = b.addr ↔ c = b :=
      ⟨fun h => view_injective (same_block hkept.laid hc hb.mem (congrArg UInt64.toNat h)),
        congrArg HeapBlock.addr⟩
    simp only [hsame]
  · have hfreed := kfree_kept hkept List.mem_cons_self
    rw [List.erase_cons_head] at hfreed
    exact not_heapStored hkept hfreed (List.mem_cons_of_mem _ ha) ha hi

/-- Otherwise the pointer is at least eight bytes behind it, and what is taken for a header is part
of the block. -/
theorem not_givenBack (halign : ¬ align ≤ 16) :
    ¬ GivenBack s.live (kmallocAligned s.machine size align) := by
  have htop : 16 < align.toNat := UInt64.lt_iff_toNat_lt.mp (UInt64.not_le.mp halign)
  have hasked : (size + align + 8).toNat = size.toNat + align.toNat + 8 := by
    simp only [toNat_add, UInt64.reduceToNat]
    omega
  rw [request, if_neg halign] at hok
  revert hptr
  rw [kmallocAligned, if_neg halign]
  split
  · exact fun h => absurd rfl h
  rename_i m' raw hraw hcall
  intro hptr
  have hkept := kmalloc_kept hs.kept (by omega) hok
  rw [hcall, if_neg hraw] at hkept
  obtain ⟨b, hb⟩ := hkept.served _ List.mem_cons_self
  have hin := hkept.laid.inside (List.mem_map_of_mem hb.mem)
  have hend := m'.heap.virtEnd.toNat_lt
  have hlarge := le_iff_toNat_le.mp hb.large
  have hst := hb.ptr
  simp only [view] at hlarge hst hin
  have hpred : (align - 1).toNat = align.toNat - 1 :=
    toNat_sub_of_le _ _ (le_iff_toNat_le.mpr (le_trans (by decide) htop.le))
  have hover : (raw + 8 + align).toNat = raw.toNat + 8 + align.toNat := by
    simp only [toNat_add, UInt64.reduceToNat]
    omega
  have hsum : (raw + 8 + align - 1).toNat = raw.toNat + 8 + align.toNat - 1 := by
    rw [toNat_sub_of_le _ _ (le_iff_toNat_le.mpr ?_), hover]
    · rfl
    · rw [hover]
      exact Nat.le_add_right_of_le (Nat.le_add_left_of_le (by decide))
  have hparts := toNat_and_not (raw + 8 + align - 1) (align - 1)
  have hlow : ((raw + 8 + align - 1) &&& (align - 1)).toNat ≤ align.toNat - 1 := by
    rw [UInt64.toNat_and, ← hpred]
    exact Nat.and_le_right
  generalize (raw + 8 + align - 1) &&& ~~~(align - 1) = p at hparts hptr
  have hhead : (p - headerSize).toNat = p.toNat - 24 := toNat_sub_header (by omega)
  have hnone : ∀ c ∈ m'.heap.blocks, c.addr ≠ p - headerSize := by
    intro c hc heq
    have haddr := congrArg UInt64.toNat heq
    have hviews : view c ≠ view b := fun h => by
      have hsame : c.addr.toNat = b.addr.toNat := congrArg Lib.FreeList.Block.start h
      omega
    have hapart := hkept.laid.apart (List.mem_map_of_mem hc) (List.mem_map_of_mem hb.mem) hviews
    simp only [view] at hapart
    omega
  have hunmarked : m'.heap.blocks.map
      (fun c => if c.addr = p - headerSize then { c with free := true } else c) = m'.heap.blocks :=
    (List.map_congr_left fun d hd => if_neg (hnone d hd)).trans (List.map_id _)
  rintro ⟨⟨c, hc, hused, -, -, hfree⟩, -⟩
  rw [kfreeCall, kfree, if_neg hptr, hunmarked] at hfree
  have hblks := congrArg (fun m => m.heap.blocks)
    (Option.some.inj (Option.ite_none_left_eq_some.mp hfree).2)
  dsimp only at hblks
  have hstays := (mem_coalesce hused).mpr hc
  rw [hblks, mem_coalesce hused] at hstays
  obtain ⟨d, -, hd⟩ := List.mem_map.mp hstays
  split at hd
  · exact absurd (congrArg HeapBlock.free hd) (by simp [hused])
  · rename_i hne
    exact hne hd

/-- `kfree` undoes an aligned allocation exactly for alignments up to 16. -/
theorem kfree_undoes_kmalloc_aligned_iff :
    GivenBack s.live (kmallocAligned s.machine size align) ↔ align ≤ 16 :=
  ⟨fun h => by_contra fun halign => not_givenBack hs hsize hok hptr halign h,
    givenBack hs hsize hok hptr⟩

end

theorem kfree_undoes_kmalloc_aligned_iff_boot :
    ∃ m, (kmallocAligned m 1 16).2 ≠ 0 ∧ GivenBack [] (kmallocAligned m 1 16) := by
  obtain ⟨m, hreach, hblks⟩ := exists_boot
  have hptr : (kmallocAligned m 1 16).2 ≠ 0 := by
    rw [kmalloc_firstBlock hblks]
    decide
  have hok : Roomy m.heap (request 1 16) :=
    roomy_of_firstBlock _ hblks (show rounded 1 ≤ firstBlock.size by decide)
  exact ⟨m, hptr, (kfree_undoes_kmalloc_aligned_iff hreach (by decide) hok hptr).mpr (by decide)⟩

/-- For an alignment of 64 the pointer may be 40 bytes behind that of `kmalloc`. What `kfree` takes
for a header there is part of the block, which stays in use. -/
theorem aligned_block_stays_used : ∃ m, HeapReached ⟨m, []⟩ ∧
    (kmallocAligned m 1 64).2 = heapVirtStart + 64 ∧ ¬ GivenBack [] (kmallocAligned m 1 64) := by
  obtain ⟨m, hreach, hblks⟩ := exists_boot
  have hptr : (kmallocAligned m 1 64).2 = heapVirtStart + 64 := by
    rw [kmallocAligned, show (1 : UInt64) + 64 + 8 = 73 by decide,
      (kmalloc_first 73 hblks (by decide) (by decide)).2]
    rfl
  have hok : Roomy m.heap (request 1 64) :=
    roomy_of_firstBlock _ hblks (show rounded 73 ≤ firstBlock.size by decide)
  exact ⟨m, hreach, hptr, not_givenBack hreach (by decide) hok
    (fun h => absurd (hptr.symm.trans h) (by decide)) (by decide)⟩

end NexusKernel.AlignedBlocks
