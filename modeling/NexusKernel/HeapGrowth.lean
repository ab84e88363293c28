import NexusKernel.KernelTables

/-!
What heap calls do to memory. `HeapCall` says it for one call or several: the pages taken are
recorded as pages of the heap, and the address spaces do not notice. Small requests grow the heap
at most once.
-/

namespace NexusKernel.HeapGrowth

open Lib.TableTree Lib.Loops PageAllocation Hardware
open Mapping AddressSpaces KernelHeap KernelTables

/-- The heap lies in its region, and `k` more pages fit below the top. -/
structure HeapRoom (m : Machine) (k : ℕ) : Prop where
  start : heapVirtStart ≤ m.heap.virtEnd
  fits : m.heap.virtEnd.toNat + 4096 * k < 2 ^ 64

variable {K : Set ℕ} {m m₁ m₂ : Machine} {r k n : ℕ}

theorem HeapRoom.mono {j : ℕ} (h : HeapRoom m k) (hj : j ≤ k) : HeapRoom m j :=
  ⟨h.start, by have := h.fits; omega⟩

theorem HeapRoom.after (h : HeapRoom m (n + k)) (hlow : m.heap.virtEnd ≤ m₁.heap.virtEnd)
    (hhigh : m₁.heap.virtEnd.toNat ≤ m.heap.virtEnd.toNat + 4096 * n) : HeapRoom m₁ k := by
  refine ⟨UInt64.le_trans h.start hlow, ?_⟩
  have := h.fits
  omega

theorem pmmAllocPage_heap (m : Machine) : m.pmmAllocPage.1.heap = m.heap := by
  unfold Machine.pmmAllocPage
  split <;> rfl

theorem mapAt_heap (e : UInt64) (l : List ℕ) (m : Machine) (table : UInt64) :
    (mapAt e l m table).heap = m.heap :=
  mapAt_invariant (fun m' h => (pmmAllocPage_heap m').trans h) (fun _ _ h => h) rfl e l table

theorem growPage_heap (m : Machine) : (growPage m).1.heap =
    { m.heap with virtEnd := m.heap.virtEnd + if (growPage m).2 then 4096 else 0 } := by
  unfold growPage
  by_cases hz : m.pmmAllocPage.2 = 0
  · simp [hz, pmmAllocPage_heap]
  · simp [hz, vmmMapPage_eq, mapAt_heap, pmmAllocPage_heap]

theorem growPages_growth (h : HeapReady K r m) (hroom : HeapRoom m n) :
    let m' := (forWhile (fun _ => growPage) n m).1
    Growth K r m m' ∧ m'.heap = { m.heap with virtEnd := m'.heap.virtEnd } ∧
      m.heap.virtEnd.toNat ≤ m'.heap.virtEnd.toNat ∧
      m'.heap.virtEnd.toNat ≤ m.heap.virtEnd.toNat + 4096 * n := by
  induction n with
  | zero => exact ⟨Growth.of_eq rfl rfl rfl, rfl, le_rfl, by simp [forWhile]⟩
  | succ n ih =>
    obtain ⟨hgrowth, hheap, hlow, hhigh⟩ := ih (hroom.mono (by omega))
    unfold forWhile
    generalize forWhile (fun _ => growPage) n m = out at hgrowth hheap hlow hhigh
    split
    · have hend : heapVirtStart ≤ out.1.heap.virtEnd :=
        UInt64.le_trans hroom.start (UInt64.le_iff_toNat_le.mpr hlow)
      have hfits := hroom.fits
      have hlast := growPage_heap out.1
      have hadd : (out.1.heap.virtEnd + if (growPage out.1).2 then 4096 else 0).toNat =
          out.1.heap.virtEnd.toNat + if (growPage out.1).2 then 4096 else 0 := by
        rw [UInt64.toNat_add]
        split
        · rw [show (4096 : UInt64).toNat = 4096 from rfl]
          omega
        · rw [show (0 : UInt64).toNat = 0 from rfl]
          omega
      refine ⟨hgrowth.trans (growPage_growth (hgrowth.ready h) hend), ?_, ?_, ?_⟩
      · rw [hlast, hheap]
      · rw [hlast, hadd]
        omega
      · rw [hlast, hadd]
        split <;> omega
    · exact ⟨hgrowth, hheap, hlow, by omega⟩

structure HeapCall (K : Set ℕ) (r : ℕ) (m m' : Machine) : Prop where
  growth : Growth K r m m'
  grown : ∀ q, q ∈ m'.heap.grown ↔ q ∈ m.heap.grown ∨ q ∈ taken m m'

theorem HeapCall.of_eq (hram : m₁.ram = m.ram) (hpmm : m₁.pmm = m.pmm) (hcr3 : m₁.cr3 = m.cr3)
    (hgrown : m₁.heap.grown = m.heap.grown) : HeapCall K r m m₁ := by
  refine ⟨Growth.of_eq hram hpmm hcr3, fun q => ?_⟩
  rw [hgrown]
  refine ⟨Or.inl, fun hq => hq.resolve_right (fun htaken => ?_)⟩
  exact htaken.1.not_inUse (hpmm ▸ htaken.2)

theorem HeapCall.trans (h : HeapCall K r m m₁) (h' : HeapCall (K ∪ taken m m₁) r m₁ m₂) :
    HeapCall K r m m₂ := by
  refine ⟨h.growth.trans h'.growth, fun q => ?_⟩
  rw [h'.grown, h.grown, h.growth.taken_iff h'.growth.inUse, or_assoc]

theorem HeapCall.withHeap (h : HeapCall K r m m₁) {heap : HeapState}
    (hgrown : heap.grown = m₁.heap.grown) : HeapCall K r m { m₁ with heap := heap } := by
  refine ⟨h.growth.withHeap heap, fun q => ?_⟩
  rw [hgrown]
  exact h.grown q

theorem mem_takenPages (hmax : m₁.pmm.maxPageIndex = m.pmm.maxPageIndex) (q : ℕ) :
    q ∈ takenPages m m₁ ↔ q ∈ taken m m₁ := by
  simp only [takenPages, List.mem_filter, List.mem_range, Bool.and_eq_true, Bool.not_eq_true',
    taken, Set.mem_ofPred_eq, IsFree, InUse, hmax]
  tauto

theorem heapGrow_call (h : HeapReady K r m) (pages : UInt64) (hroom : HeapRoom m pages.toNat) :
    let m' := (heapGrow m pages).1
    HeapCall K r m m' ∧ m'.heap.blocks = m.heap.blocks ∧ m.heap.virtEnd ≤ m'.heap.virtEnd ∧
      m'.heap.virtEnd.toNat ≤ m.heap.virtEnd.toNat + 4096 * pages.toNat := by
  obtain ⟨hgrowth, hheap, hlow, hhigh⟩ := growPages_growth h hroom
  simp only [heapGrow]
  generalize forWhile (fun _ => growPage) pages.toNat m = out at hgrowth hheap hlow hhigh
  have hgrown : out.1.heap.grown = m.heap.grown := by rw [hheap]
  refine ⟨⟨hgrowth.withHeap _, fun q => ?_⟩, ?_, UInt64.le_iff_toNat_le.mpr hlow, hhigh⟩
  · rw [List.mem_append, mem_takenPages hgrowth.layout.maxPageIndex, hgrown]
    exact or_comm
  · rw [hheap]

section

variable {size ptr : UInt64} {blocks blocks' : List HeapBlock}

def cutBlock (size : UInt64) (b : HeapBlock) : List HeapBlock :=
  if b.size ≥ size + headerSize + minBlock then
    [{ b with size := size, free := false },
      { addr := b.addr + headerSize + size, size := b.size - size - headerSize, free := true }]
  else [{ b with free := false }]

theorem takeBlock_cons (size : UInt64) (b : HeapBlock) (rest : List HeapBlock) :
    takeBlock size (b :: rest) =
    if b.free = true ∧ size ≤ b.size then some (b.addr + headerSize, cutBlock size b ++ rest)
    else (takeBlock size rest).map (fun found => (found.1, b :: found.2)) := by
  simp only [takeBlock, cutBlock, Bool.and_eq_true, decide_eq_true_eq, ge_iff_le]
  split
  · split
    · rfl
    · rfl
  · rfl

theorem takeBlock_eq_none : takeBlock size blocks = none ↔
    ∀ b ∈ blocks, ¬ (b.free = true ∧ size ≤ b.size) := by
  induction blocks with
  | nil => simp [takeBlock]
  | cons b rest ih =>
    rw [takeBlock_cons, List.forall_mem_cons, ← ih]
    by_cases hfit : b.free = true ∧ size ≤ b.size
    · simp [hfit]
    · simp [hfit]

theorem takeBlock_eq_some (h : takeBlock size blocks = some (ptr, blocks')) :
    ∃ before b after, blocks = before ++ b :: after ∧ (b.free = true ∧ size ≤ b.size) ∧
      ptr = b.addr + headerSize ∧ blocks' = before ++ (cutBlock size b ++ after) := by
  induction blocks generalizing blocks' with
  | nil => simp [takeBlock] at h
  | cons b rest ih =>
    rw [takeBlock_cons] at h
    split at h
    · rename_i hfit
      cases h
      exact ⟨[], b, rest, rfl, hfit, rfl, rfl⟩
    · obtain ⟨⟨ptr', rest'⟩, hfound, heq⟩ := Option.map_eq_some_iff.mp h
      cases heq
      obtain ⟨before, c, after, rfl, hfit, hptr, rfl⟩ := ih hfound
      exact ⟨b :: before, c, after, rfl, hfit, hptr, rfl⟩

theorem takeBlock_append (size : UInt64) (blocks : List HeapBlock) {b : HeapBlock}
    (hfree : b.free = true) (hsize : size ≤ b.size) :
    ∃ found, takeBlock size (blocks ++ [b]) = some found :=
  Option.ne_none_iff_exists'.mp fun hnone => takeBlock_eq_none.mp hnone b (by simp) ⟨hfree, hsize⟩

end

def rounded (request : UInt64) : UInt64 := (request + 15) &&& ~~~15

theorem growthFor_small {size : UInt64} (hsize : size.toNat ≤ 4096) : growthFor size = 4 := by
  have hpages : ((size + headerSize + 4095) / 4096).toNat < 4 := by
    rw [UInt64.toNat_div, UInt64.toNat_add, UInt64.toNat_add]
    simp only [headerSize, UInt64.reduceToNat]
    omega
  exact if_pos (UInt64.lt_iff_toNat_lt.mpr hpages)

/-- Where a block is found the rest of the machine stays. -/
theorem kmallocFuel_take (fuel : ℕ) {request ptr : UInt64} {blocks : List HeapBlock}
    (hne : request ≠ 0) (hfound : takeBlock (rounded request) m.heap.blocks = some (ptr, blocks)) :
    kmallocFuel (fuel + 1) m request = (withBlocks m blocks, ptr) := by
  unfold rounded at hfound
  rw [kmallocFuel, if_neg hne]
  simp only [hfound]

private theorem kmallocFuel_found (fuel : ℕ) {request : UInt64}
    (hfound : ∃ found, takeBlock (rounded request) m.heap.blocks = some found) :
    ∃ blocks, (kmallocFuel (fuel + 1) m request).1 = withBlocks m blocks := by
  obtain ⟨⟨ptr, blocks⟩, hfound⟩ := hfound
  by_cases hz : request = 0
  · rw [kmallocFuel, if_pos hz]
    exact ⟨m.heap.blocks, rfl⟩
  · rw [kmallocFuel_take fuel hz hfound]
    exact ⟨blocks, rfl⟩

/-- A request of at most a page: the heap grows once or not at all. -/
theorem kmalloc_call (h : HeapReady K r m) (hroom : HeapRoom m (4 + k)) (request : UInt64)
    (hsize : (rounded request).toNat ≤ 4096) :
    HeapCall K r m (kmalloc m request).1 ∧ HeapRoom (kmalloc m request).1 k := by
  have hsame : ∀ blocks, HeapCall K r m (withBlocks m blocks) ∧ HeapRoom (withBlocks m blocks) k :=
    fun blocks => ⟨HeapCall.of_eq rfl rfl rfl rfl,
      hroom.start, by have := hroom.fits; dsimp only; omega⟩
  obtain ⟨n, hn⟩ : ∃ n, m.pmm.maxPageIndex.toNat = n + 1 := ⟨m.pmm.maxPageIndex.toNat - 1, by
    have := h.sane.zero.1
    omega⟩
  unfold kmalloc
  rw [hn]
  by_cases hfound : ∃ found, takeBlock (rounded request) m.heap.blocks = some found
  · obtain ⟨blocks, heq⟩ := kmallocFuel_found (n + 1) hfound
    rw [heq]
    exact hsame blocks
  · have hnone : takeBlock (rounded request) m.heap.blocks = none := by
      simpa [Option.eq_none_iff_forall_ne_some] using hfound
    have hfour : (4 : UInt64).toNat = 4 := rfl
    obtain ⟨hcall, hblks, hlow, hhigh⟩ := heapGrow_call h 4 (hroom.mono (by rw [hfour]; omega))
    have hroom₁ := hroom.after hlow hhigh
    unfold kmallocFuel
    by_cases hz : request = 0
    · rw [if_pos hz]
      exact hsame m.heap.blocks
    · rw [if_neg hz]
      unfold rounded at hnone hsize
      simp only [hnone, growthFor_small hsize]
      generalize heapGrow m 4 = out at hcall hroom₁ ⊢
      obtain ⟨m₁, done⟩ := out
      cases done with
      | false => exact ⟨hcall, hroom₁⟩
      | true =>
        -- The second round finds the new block.
        have hagain : (rounded (rounded request)).toNat ≤ 4111 := by
          have hle : (rounded (rounded request)).toNat ≤ (rounded request + 15).toNat := by
            exact Nat.and_le_left
          have hsum : (rounded request + 15).toNat ≤ (rounded request).toNat + 15 := by
            exact Nat.mod_le _ _
          unfold rounded at hle hsum ⊢
          omega
        have hblock : 4111 ≤ ((4 : UInt64) * 4096 - headerSize).toNat := by decide
        obtain ⟨blocks, heq⟩ := kmallocFuel_found n (m := { m₁ with heap := { m₁.heap with
            blocks := m₁.heap.blocks ++ [⟨m.heap.virtEnd, 4 * 4096 - headerSize, true⟩]
            totalSize := m₁.heap.totalSize + 4 * 4096 } })
          (takeBlock_append _ _ rfl (UInt64.le_iff_toNat_le.mpr (hagain.trans hblock)))
        unfold rounded at heq
        rw [heq]
        exact ⟨hcall.withHeap rfl, hroom₁.start, hroom₁.fits⟩

theorem kfree_call (m : Machine) (ptr : UInt64) : HeapCall K r m (kfree m ptr) := by
  unfold kfree
  split
  · exact HeapCall.of_eq rfl rfl rfl rfl
  · exact HeapCall.of_eq rfl rfl rfl rfl

variable {live : Finset ℕ} {resv : Set ℕ}

section

variable (h : Growth K r m m₁) (hwf : Wf m live resv) (hr : r ∈ live) (hK : K ⊆ resv)
include h hwf hr hK

theorem Growth.agree {t : ℕ} (ht : t ∈ live) : Agree x86 m.ram m₁.ram 3 256 t := by
  have hsame : ∀ q ∈ userTables m t, q ≠ r → m₁.ram q = m.ram q := fun q hq hqr =>
    h.elsewhere q ((hwf.tree t ht).inUse q hq)
      (fun hmem => (hwf.reserved q (hK hmem)).2 t ht hq) hqr
  by_cases htr : t = r
  · subst t
    refine ⟨h.userHalf, fun i c hi hc q hq => hsame q (child_tables_subset hi hc hq) ?_⟩
    intro hqr
    subst q
    exact ((hwf.tree r ht).proper.1 i c hi hc).2.1 hq
  · refine agree_of_tables (fun q hq => hsame q hq ?_)
    intro hqr
    subst q
    exact Set.disjoint_left.mp (hwf.apart t ht r hr htr) hq root_mem_tables

theorem Growth.wf : Wf m₁ live (resv ∪ taken m m₁) := by
  apply hwf.beside h.layout h.inUse fun t ht => Growth.agree h hwf hr hK ht
  · exact fun f _ hf => h.refcount f (hwf.mapped hf).1
  · exact Set.subset_union_left
  · exact fun q hq => hq

end

section

variable {P : Machine → Prop} (halloc : ∀ m, P m → P m.pmmAllocPage.1)
variable (hram : ∀ m ram, P m → P { m with ram := ram })
variable (hheap : ∀ m heap, P m → P { m with heap := heap })
include halloc hram hheap

variable {m : Machine}

theorem growPage_invariant (h : P m) : P (growPage m).1 := by
  unfold growPage
  split
  · exact halloc m h
  · rw [vmmMapPage_eq]
    exact hheap _ _ (mapAt_invariant halloc hram (halloc m h) _ _ _)

theorem kmalloc_invariant (h : P m) (size : UInt64) : P (kmalloc m size).1 :=
  kmallocFuel_invariant hheap (fun _ ht => growPage_invariant halloc hram hheap ht) h _ size

end

theorem pmmAllocPage_oom (h : m.oom = true) : m.pmmAllocPage.1.oom = true := by
  unfold Machine.pmmAllocPage
  split
  · rfl
  · exact h

theorem kmalloc_oom (h : m.oom = true) (size : UInt64) : (kmalloc m size).1.oom = true :=
  kmalloc_invariant (P := fun m => m.oom = true) (fun _ ht => pmmAllocPage_oom ht)
    (fun _ _ ht => ht) (fun _ _ ht => ht) h size

end NexusKernel.HeapGrowth
