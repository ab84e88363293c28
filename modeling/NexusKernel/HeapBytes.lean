import NexusKernel.HeapMapped
import NexusKernel.Lib.ByteMemory

/-!
The bytes in the blocks of the kernel heap. Live allocations are kept as long as the heap stays
below the top of the address space, also by a growth that fails. Their bytes do not meet, and heap
calls do not store to them.
-/

namespace NexusKernel.HeapBytes

open Lib.ByteMemory Lib.Loops Lib.Runs Lib.FreeList PageAllocation
  Hardware PageSupply KernelHeap HeapGrowth
open HeapInvariant HeapMapped Mapping

variable {m t : Machine} {request : UInt64} {live live' : List Allocation} {heap heap' : HeapState}
variable {a a' : Allocation} {i : ℕ}

theorem pmmAllocPage_free (hs : Sane m) : Sane m.pmmAllocPage.1 ∧
    (budget m.pmmAllocPage.1).free ≤ (budget m).free ∧
    (m.pmmAllocPage.2 ≠ 0 → (budget m.pmmAllocPage.1).free + 1 = (budget m).free) := by
  rcases pmmAllocPage_cases hs with ⟨hz, href⟩ | ⟨q, _, _, hnew⟩
  · refine ⟨hs.grows href.grows, ?_, fun hne => absurd hz hne⟩
    rw [href.budget, Budget.spend, href.denied]
    exact le_rfl
  · obtain ⟨hfree, -⟩ := Budget.free_of_granted hnew.granted hnew.budget
    exact ⟨hs.grows hnew.grows, by omega, fun _ => hfree.symm⟩

theorem growPage_free (hs : Sane m) : Sane (growPage m).1 ∧
    (budget (growPage m).1).free + (if (growPage m).2 then 1 else 0) ≤ (budget m).free := by
  obtain ⟨hs₁, hle, htaken⟩ := pmmAllocPage_free hs
  unfold growPage
  split
  · exact ⟨hs₁, by simpa using hle⟩
  · rename_i hne
    have hfree := htaken hne
    have hmap :=
      mapAt_invariant (P := fun t => Sane t ∧ (budget t).free ≤ (budget m.pmmAllocPage.1).free)
      (fun t ht => ⟨(pmmAllocPage_free ht.1).1, (pmmAllocPage_free ht.1).2.1.trans ht.2⟩)
      (fun t ram ht => ⟨ht.1.congr rfl, ht.2⟩) ⟨hs₁, le_rfl⟩
      (PageEntries.leafEntry m.pmmAllocPage.2 heapFlags) (Walks.pathOf m.heap.virtEnd)
      m.pmmAllocPage.1.currentPml4
    rw [← vmmMapPage_eq] at hmap
    refine ⟨hmap.1.congr rfl, ?_⟩
    have hlast := hmap.2
    rw [if_pos rfl]
    simp only [budget] at hlast hfree ⊢
    omega

theorem growPages_free (hs : Sane m) (n : ℕ) :
    ∃ j ≤ n, ((forWhile (fun _ => growPage) n m).2 = true → j = n) ∧
    (forWhile (fun _ => growPage) n m).1.heap = extended m.heap j ∧
    Sane (forWhile (fun _ => growPage) n m).1 ∧
    (budget (forWhile (fun _ => growPage) n m).1).free + j ≤ (budget m).free := by
  refine forWhile_successes (fun j (t : Machine) => t.heap = extended m.heap j ∧ Sane t ∧
    (budget t).free + j ≤ (budget m).free) ⟨(extended_zero m.heap).symm, hs, le_rfl⟩ ?_ ?_
  · rintro j t ⟨hheap, ht, hfree⟩ hgo
    obtain ⟨ht', hcost⟩ := growPage_free ht
    rw [hgo, if_pos rfl] at hcost
    refine ⟨?_, ht', by omega⟩
    rw [growPage_extended hheap, hgo, if_pos rfl]
  · rintro j t ⟨hheap, ht, hfree⟩ hstop
    obtain ⟨ht', hcost⟩ := growPage_free ht
    refine ⟨?_, ht', by omega⟩
    rw [growPage_extended hheap, hstop, if_neg Bool.false_ne_true]

theorem kmalloc_sane (hs : Sane m) (request : UInt64) : Sane (kmalloc m request).1 :=
  kmalloc_invariant (P := Sane) (fun _ ht => (pmmAllocPage_free ht).1)
    (fun _ _ ht => ht.congr rfl) (fun _ _ ht => ht.congr rfl) hs request

/-- A request that no free block can serve does not take the heap over the top, with the pages
there are. -/
def Fits (m : Machine) (request : UInt64) : Prop :=
  (∀ b ∈ m.heap.blocks, ¬ (b.free = true ∧ rounded request ≤ b.size)) →
    m.heap.virtEnd.toNat + 4096 * min (growthFor (rounded request)).toNat (budget m).free < 2 ^ 64

/-- A growth without enough pages leaves a gap at the end of the heap. -/
theorem kmalloc_fails (hs : Sane m) (hne : request ≠ 0) (hsize : request.toNat + 8192 < 2 ^ 64)
    (hnone : ∀ b ∈ m.heap.blocks, ¬ (b.free = true ∧ rounded request ≤ b.size))
    (hless : (budget m).free < (growthFor (rounded request)).toNat) : (kmalloc m request).2 = 0 ∧
    ∃ j grown, j ≤ (budget m).free ∧ (kmalloc m request).1.heap =
      { extended m.heap j with grown := grown } := by
  have hround := rounded_toNat request (by omega)
  have hne' := rounded_ne_zero hne (by omega)
  obtain ⟨j, hj, hdone, hheap, -, hfree⟩ := growPages_free hs (growthFor (rounded request)).toNat
  have hgrow : (heapGrow m (growthFor (rounded request))).2 =
      (forWhile (fun _ => growPage) (growthFor (rounded request)).toNat m).2 := rfl
  rcases kmalloc_cases m hne hne' (by omega)
    with ⟨ptr, blocks, htake, _⟩ | ⟨_, _, heq⟩ | ⟨_, hgrown, _⟩
  · exact absurd (htake.symm.trans (takeBlock_eq_none.mpr hnone)) (by simp)
  · rw [heq]
    refine ⟨rfl, j, (heapGrow m (growthFor (rounded request))).1.heap.grown, by omega, ?_⟩
    simp only [heapGrow, hheap]
  · have hall := hdone (hgrow.symm.trans hgrown)
    omega

/-- `kmalloc` keeps the heap while it stays below the top. -/
theorem kmalloc_kept_fits (hs : Sane m) (h : Kept m.heap live)
    (hbase : 2 ^ 63 ≤ m.heap.virtBase.toNat) (hne : request ≠ 0)
    (hsize : request.toNat + 8192 < 2 ^ 64) (hfits : Fits m request) :
    Kept (kmalloc m request).1.heap
    (if (kmalloc m request).2 = 0 then live else ⟨(kmalloc m request).2, request⟩ :: live) := by
  have hround := rounded_toNat request (by omega)
  have hgrowth := @growthFor_toNat (rounded request) (by omega)
  have hend := h.laid.le
  have htop := m.heap.virtEnd.toNat_lt
  by_cases hfound : ∃ b ∈ m.heap.blocks, b.free = true ∧ rounded request ≤ b.size
  · obtain ⟨b, hb, hfree, hlarge⟩ := hfound
    have hin := h.laid.inside (List.mem_map_of_mem hb)
    rw [UInt64.le_iff_toNat_le] at hlarge
    simp only [view] at hin
    exact kmalloc_kept h (by omega) fun hnone => absurd ⟨hfree,
      UInt64.le_iff_toNat_le.mpr hlarge⟩ (hnone b hb)
  · have hnone : ∀ b ∈ m.heap.blocks, ¬ (b.free = true ∧ rounded request ≤ b.size) :=
      fun b hb hfit => hfound ⟨b, hb, hfit⟩
    have hroom := hfits hnone
    by_cases henough : (growthFor (rounded request)).toNat ≤ (budget m).free
    · rw [min_eq_left henough] at hroom
      exact kmalloc_kept h (by omega) fun _ => hroom
    · obtain ⟨hnull, j, grown, hj, hheap⟩ := kmalloc_fails hs hne hsize hnone (by omega)
      rw [if_pos hnull, hheap]
      exact h.extended (by omega) grown

theorem kmalloc_virtBase (m : Machine) (hne : request ≠ 0) (hsize : request.toNat + 8192 < 2 ^ 64) :
    (kmalloc m request).1.heap.virtBase = m.heap.virtBase := by
  have hround := rounded_toNat request (by omega)
  have hne' := rounded_ne_zero hne (by omega)
  obtain ⟨j, grown, -, -, hheap⟩ := heapGrow_heap m (growthFor (rounded request))
  rcases kmalloc_cases m hne hne' (by omega)
    with ⟨_, _, _, heq⟩ | ⟨_, _, heq⟩ | ⟨_, _, _, _, _, heq⟩
  · rw [heq]
  · rw [heq, hheap]
  · rw [heq]
    simp only [afterGrowth, hheap]

/-- Where a heap call may store: the headers of the blocks before and after it, and the pages
added at the end. -/
def HeapStored (before after : HeapState) (a : UInt64) : Prop :=
  (∃ b ∈ before.blocks ++ after.blocks, InRange b.addr 24 a) ∨
    (before.virtEnd ≤ a ∧ a < after.virtEnd)

instance (before after : HeapState) : DecidablePred (HeapStored before after) := fun _ =>
  inferInstanceAs (Decidable (_ ∨ _))

section

variable (h : Kept heap live) (ha : a ∈ live)
include h ha

theorem kept_range : heap.virtBase.toNat + 24 ≤ a.ptr.toNat ∧
    a.ptr.toNat + a.requested.toNat ≤ heap.virtEnd.toNat := by
  obtain ⟨b, hmem, -, hptr, hlarge⟩ := h.served a ha
  have hin := h.laid.inside (List.mem_map_of_mem hmem)
  rw [UInt64.le_iff_toNat_le] at hlarge
  simp only [view] at hin
  omega

theorem kept_ptr_ne_zero : a.ptr ≠ 0 := by
  intro hz
  have hrange := (kept_range h ha).1
  rw [hz, UInt64.toNat_zero] at hrange
  omega

theorem kept_apart (ha' : a' ∈ live) (hne : a.ptr ≠ a'.ptr) :
    Apart a.ptr a.requested.toNat a'.ptr a'.requested.toNat := by
  obtain ⟨b, hb⟩ := h.served a ha
  obtain ⟨b', hb'⟩ := h.served a' ha'
  have hapart := h.apart hb hb' hne
  obtain ⟨-, -, hptr, hlarge⟩ := hb
  obtain ⟨-, -, hptr', hlarge'⟩ := hb'
  have hrange := kept_range h ha
  have hrange' := kept_range h ha'
  have htop := heap.virtEnd.toNat_lt
  rw [UInt64.le_iff_toNat_le] at hlarge hlarge'
  exact ⟨by omega, by omega, by omega⟩

/-- The header of a block is apart from an allocation's bytes. -/
theorem kept_header_apart {b : HeapBlock} (hb : b ∈ heap.blocks) :
    Apart b.addr 24 a.ptr a.requested.toNat := by
  obtain ⟨c, hmem, -, hptr, hlarge⟩ := h.served a ha
  have hrange := kept_range h ha
  have htop := heap.virtEnd.toNat_lt
  have hin := h.laid.inside (List.mem_map_of_mem hb)
  rw [UInt64.le_iff_toNat_le] at hlarge
  simp only [view] at hin
  refine ⟨by omega, by omega, ?_⟩
  by_cases hviews : view b = view c
  · have haddr : b.addr.toNat = c.addr.toNat := congrArg Block.start hviews
    omega
  · have hapart := h.laid.apart (List.mem_map_of_mem hb) (List.mem_map_of_mem hmem) hviews
    simp only [view] at hapart
    omega

end

/-- A heap call does not store to an allocation live before and after it. -/
theorem not_heapStored (h : Kept heap live) (h' : Kept heap' live') (ha : a ∈ live)
    (ha' : a ∈ live')
    (hi : i < a.requested.toNat) : ¬ HeapStored heap heap' (a.ptr + UInt64.ofNat i) := by
  rintro (⟨b, hb, hrange⟩ | ⟨hlow, -⟩)
  · rcases List.mem_append.mp hb with hb | hb
    · exact (kept_header_apart h ha hb).not_inRange hi hrange
    · exact (kept_header_apart h' ha' hb).not_inRange hi hrange
  · have hin := (kept_range h ha).2
    have htop := heap.virtEnd.toNat_lt
    rw [UInt64.le_iff_toNat_le, toNat_add_ofNat (by omega) hi] at hlow
    omega

/-! ### Calls that run out of pages -/

def RunsOut (m : Machine) (request : UInt64) : Prop :=
  request ≠ 0 ∧ takeBlock (rounded request) m.heap.blocks = none ∧ (kmalloc m request).2 = 0

structure Traceless (m m' : Machine) : Prop where
  blocks : m'.heap.blocks = m.heap.blocks
  virtEnd : m'.heap.virtEnd = m.heap.virtEnd
  totalSize : m'.heap.totalSize = m.heap.totalSize
  isFree : ∀ q, IsFree m'.pmm q ↔ IsFree m.pmm q

def Accounted (heap : HeapState) : Prop := heap.virtEnd - heap.virtBase = heap.totalSize

/-- No call runs out of pages after it has taken one. -/
inductive Call : Machine → Machine → Prop
  | kmalloc (m : Machine) (request : UInt64) (h : RunsOut m request → m.pmmAllocPage.2 = 0) :
      Call m (kmalloc m request).1
  | kfree (m : Machine) (ptr : UInt64) : Call m (kfree m ptr)
  | other (m m' : Machine) (h : m'.heap = m.heap) : Call m m'

theorem growthFor_succ (size : UInt64) : ∃ n, (growthFor size).toNat = n + 1 := by
  apply Nat.exists_eq_succ_of_ne_zero
  unfold growthFor
  dsimp only
  split
  · decide
  · rename_i hmany
    intro hz
    rw [UInt64.toNat_inj.mp (hz.trans UInt64.toNat_zero.symm)] at hmany
    exact hmany (by decide)

/-- Refused its first page, a growth changes no variable of the heap. -/
theorem kmalloc_refused (hne : request ≠ 0)
    (hnone : takeBlock (rounded request) m.heap.blocks = none)
    (hz : m.pmmAllocPage.2 = 0) : ∃ grown,
    kmalloc m request = ({ m.pmmAllocPage.1 with heap := { m.heap with grown := grown } }, 0) := by
  have hgrow : growPage m = (m.pmmAllocPage.1, false) := by rw [growPage, if_pos hz]
  obtain ⟨n, hn⟩ := growthFor_succ (rounded request)
  have hloop : forWhile (fun _ => growPage) (n + 1) m = growPage m :=
    forWhile_first (by rw [hgrow]) n
  rw [kmalloc, kmallocFuel_grow _ hne hnone]
  simp only [heapGrow, hn, hloop, hgrow, pmmAllocPage_heap]
  exact ⟨_, rfl⟩

/-- A growth takes the first page that it gets, and the call does not give it back. -/
theorem kmalloc_takes (hs : Sane m) (hne : request ≠ 0)
    (hnone : takeBlock (rounded request) m.heap.blocks = none)
    (hpage : m.pmmAllocPage.2 ≠ 0) : (budget (kmalloc m request).1).free < (budget m).free := by
  let P : Machine → Prop := fun t => Sane t ∧ (budget t).free < (budget m).free
  have hheap : ∀ t heap, P t → P { t with heap := heap } := fun _ _ ht => ⟨ht.1.congr rfl, ht.2⟩
  have hstep : ∀ t, P t → P (growPage t).1 := fun _ ht =>
    ⟨(growPage_free ht.1).1, (Nat.le_of_add_right_le (growPage_free ht.1).2).trans_lt ht.2⟩
  have hfirst : P (growPage m).1 := by
    obtain ⟨hs', hfree⟩ := growPage_free hs
    rw [show (growPage m).2 = true by rw [growPage, if_neg hpage]] at hfree
    exact ⟨hs', hfree⟩
  have hloop : ∀ n, P (forWhile (fun _ => growPage) (n + 1) m).1 := by
    intro n
    induction n with
    | zero => exact hfirst
    | succ n ih =>
      rw [forWhile]
      split
      · exact hstep _ ih
      · exact ih
  obtain ⟨n, hn⟩ := growthFor_succ (rounded request)
  have hgrown : P (heapGrow m (growthFor (rounded request))).1 := by
    refine hheap _ _ ?_
    rw [hn]
    exact hloop n
  rw [kmalloc, kmallocFuel_grow _ hne hnone]
  split
  · exact (kmallocFuel_invariant hheap hstep (hheap _ _ hgrown) _ _).2
  · exact hgrown.2

theorem traceless_iff (hs : Sane m) (h : RunsOut m request) :
    Traceless m (kmalloc m request).1 ↔ m.pmmAllocPage.2 = 0 := by
  obtain ⟨hne, hnone, -⟩ := h
  constructor
  · intro hsame
    by_contra hpage
    refine (kmalloc_takes hs hne hnone hpage).ne ?_
    simp only [budget]
    refine congrArg Finset.card (Finset.ext fun q => ?_)
    exact Bitmap.mem_clearBits.trans ((hsame.isFree q).trans Bitmap.mem_clearBits.symm)
  · intro hz
    obtain ⟨grown, hcall⟩ := kmalloc_refused hne hnone hz
    rcases pmmAllocPage_cases hs with ⟨-, href⟩ | ⟨q, haddr, hpage, -⟩
    · rw [hcall]
      exact ⟨rfl, rfl, rfl, fun _ => by rw [href.pmm]⟩
    · exact absurd (haddr.symm.trans hz) hpage

theorem heapGrow_end {pages : UInt64} (hdone : (heapGrow m pages).2 = true) :
    (heapGrow m pages).1.heap.virtEnd - (heapGrow m pages).1.heap.virtBase =
      m.heap.virtEnd - m.heap.virtBase + pages * 4096 ∧
    (heapGrow m pages).1.heap.totalSize = m.heap.totalSize := by
  obtain ⟨j, grown, -, hj, hheap⟩ := heapGrow_heap m pages
  rw [hheap, hj hdone, UInt64.ofNat_toNat]
  exact ⟨by grind, rfl⟩

/-- What a call that does not run out adds to the heap, it adds to both variables. -/
theorem kmallocFuel_accounted (fuel : ℕ) (h : Accounted m.heap)
    (hptr : request ≠ 0 → takeBlock (rounded request) m.heap.blocks = none →
      (kmallocFuel fuel m request).2 ≠ 0) : Accounted (kmallocFuel fuel m request).1.heap := by
  induction fuel generalizing m request with
  | zero => exact h
  | succ fuel ih =>
    by_cases hne : request = 0
    · rw [kmallocFuel, if_pos hne]
      exact h
    · cases hfound : takeBlock (rounded request) m.heap.blocks with
      | some found =>
        rw [kmallocFuel_take fuel hne hfound]
        exact h
      | none =>
        have hsome := hptr hne hfound
        rw [kmallocFuel_grow fuel hne hfound] at hsome ⊢
        split at hsome
        · rename_i hdone
          rw [if_pos hdone]
          obtain ⟨hend, htotal⟩ := heapGrow_end hdone
          refine ih ?_ (fun _ _ => hsome)
          rw [Accounted, afterGrowth, hend, htotal, h]
        · exact absurd rfl hsome

theorem call_accounted (hcall : Call m t) (h : Accounted m.heap) : Accounted t.heap := by
  cases hcall with
  | kmalloc request hout =>
    by_cases hrunsOut : RunsOut m request
    · obtain ⟨grown, heq⟩ := kmalloc_refused hrunsOut.1 hrunsOut.2.1 (hout hrunsOut)
      rw [heq]
      exact h
    · exact kmallocFuel_accounted _ h fun hne hnone hptr => hrunsOut ⟨hne, hnone, hptr⟩
  | kfree ptr =>
    unfold kfree
    split
    · exact h
    · exact h
  | other _ hheap =>
    rw [hheap]
    exact h

/-- A call that runs out of pages leaves no trace exactly if it was refused its first page, and the
heap ends where its size says as long as all such calls are. -/
theorem failed_kmalloc_traceless_iff (hs : Sane m) (h : RunsOut m request) {boot : Machine}
    {pages : UInt64} (hgrow : (heapGrow (startHeap boot) pages).2 = true)
    (hrun : Reachable Call (heapInit boot pages) t) :
    (Traceless m (kmalloc m request).1 ↔ m.pmmAllocPage.2 = 0) ∧ Accounted t.heap := by
  refine ⟨traceless_iff hs h, ?_⟩
  refine hrun.invariant (fun t => Accounted t.heap) (fun _ _ ht hcall => call_accounted hcall ht) ?_
  have hend := (heapGrow_end hgrow).1
  rw [UInt64.sub_self, UInt64.zero_add] at hend
  rw [FirstProcess.heapInit_of_grow (Prod.ext rfl hgrow)]
  exact hend

/-- Four pages are taken before the fifth is refused. -/
theorem edge_fails : (kmalloc edgeMachine 20000).2 = 0 ∧
    (kmalloc edgeMachine 20000).1.heap.virtEnd ≠ edgeMachine.heap.virtEnd ∧
    ¬ Accounted (kmalloc edgeMachine 20000).1.heap := by
  unfold Accounted
  decide +kernel

theorem edge_runsOut : RunsOut edgeMachine 20000 := ⟨by decide, rfl, edge_fails.1⟩

theorem failed_kmalloc_traceless_iff_edge : RunsOut edgeMachine 20000 ∧
    (Traceless edgeMachine (kmalloc edgeMachine 20000).1 ↔ edgeMachine.pmmAllocPage.2 = 0) :=
  ⟨edge_runsOut, (failed_kmalloc_traceless_iff edge_sane edge_runsOut boot_grows .refl).1⟩

theorem failed_growth_kept : RunsOut edgeMachine 20000 ∧ Accounted edgeMachine.heap ∧
    ¬ Traceless edgeMachine (kmalloc edgeMachine 20000).1 ∧
      ¬ Accounted (kmalloc edgeMachine 20000).1.heap :=
  ⟨edge_runsOut, by unfold Accounted; decide, fun h => edge_fails.2.1 h.virtEnd, edge_fails.2.2⟩

end NexusKernel.HeapBytes
