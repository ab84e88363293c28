import NexusKernel.AlignedBlocks
import NexusKernel.HeapMapped

/-!
Whether `kmalloc` and `kcalloc` return as many bytes as were asked for, how often `kmalloc` calls
itself, and whether `kfree` undoes it. Rounding, product and page count are all modulo 2^64,
unchecked.
-/

namespace NexusKernel.AllocationSizes

open Hardware PageSupply FirstProcess KernelHeap HeapGrowth HeapInvariant HeapMapped AlignedBlocks

variable {m : Machine} {size request ptr : UInt64} {blocks blocks' : List HeapBlock} {want : ℕ}

def Enough (want : ℕ) (out : Machine × UInt64) : Prop :=
  out.2 ≠ 0 → ∃ b ∈ out.1.heap.blocks, b.addr + headerSize = out.2 ∧ b.free = false ∧
    want ≤ b.size.toNat

/-- How often `kmalloc` calls itself, up to `fuel` times. -/
def retries : ℕ → Machine → UInt64 → ℕ
  | 0, _, _ => 0
  | fuel + 1, m, request =>
      if request = 0 then 0
      else
        match takeBlock (rounded request) m.heap.blocks with
        | some _ => 0
        | none =>
            if (heapGrow m (growthFor (rounded request))).2 then
              retries fuel (afterGrowth m (rounded request)) (rounded request) + 1
            else 0

/-- What a caller relies on who needs `want` bytes and calls `kmalloc` of `request`. The constant
that bounds the nested calls is one that the pages of a machine can exceed. -/
structure Sound (want : ℕ) (request : UInt64) (call : Machine → Machine × UInt64) : Prop where
  enough : ∀ m, Enough want (call m)
  returns : ∀ m :
    Machine, retries (m.pmm.maxPageIndex.toNat + 1) m request ≤ m.pmm.maxPageIndex.toNat
  bounded : ∃ bound < 2 ^ 32, ∀ m fuel, retries fuel m request ≤ bound

theorem takeBlock_serves (h : takeBlock size blocks = some (ptr, blocks')) :
    ∃ b ∈ blocks', b.addr + headerSize = ptr ∧ b.free = false ∧ size ≤ b.size := by
  obtain ⟨before, b, after, -, hfit, rfl, rfl⟩ := takeBlock_eq_some h
  have hcut : ∃ c ∈ cutBlock size b, c.addr = b.addr ∧ c.free = false ∧ size ≤ c.size := by
    unfold cutBlock
    split
    · exact ⟨_, List.mem_cons_self, rfl, rfl, UInt64.le_refl _⟩
    · exact ⟨_, List.mem_cons_self, rfl, rfl, hfit.2⟩
  obtain ⟨c, hc, haddr, hserves⟩ := hcut
  exact ⟨c, by simp [hc], by rw [haddr], hserves⟩

/-- The new block is large enough for the first nested call. -/
theorem retries_le_one (hsize : (rounded request).toNat + 4119 < 2 ^ 64) (m : Machine) (fuel : ℕ) :
    retries fuel m request ≤ if (heapGrow m (growthFor (rounded request))).2 then 1 else 0 := by
  cases fuel with
  | zero => exact Nat.zero_le _
  | succ fuel =>
    rw [retries]
    split
    · exact Nat.zero_le _
    split
    · exact Nat.zero_le _
    split
    · have hnested : retries fuel (afterGrowth m (rounded request)) (rounded request) = 0 := by
        cases fuel with
        | zero => rfl
        | succ fuel =>
          obtain ⟨found, hfound⟩ := takeBlock_append (rounded request) m.heap.blocks
            (b := newBlock m (rounded request)) rfl (size_le_newBlock m hsize)
          rw [retries, rounded_rounded, afterGrowth_blocks, hfound]
          exact ite_self _
      rw [hnested]
    · exact le_rfl

/-- A block found for the rounded size is large enough, in any round. -/
theorem enough_of_rounded (hwant : want ≤ (rounded request).toNat) (fuel : ℕ) (m : Machine) :
    Enough want (kmallocFuel fuel m request) := by
  induction fuel generalizing m request with
  | zero => exact fun hptr => absurd rfl hptr
  | succ fuel ih =>
    by_cases hz : request = 0
    · rw [hz]
      exact fun hptr => absurd (kmallocFuel_zero _ m) hptr
    cases hfound : takeBlock (rounded request) m.heap.blocks with
    | some found =>
      obtain ⟨b, hb, haddr, hused, hlarge⟩ := takeBlock_serves hfound
      rw [kmallocFuel_take fuel hz hfound]
      exact fun _ => ⟨b, hb, haddr, hused, hwant.trans (UInt64.le_iff_toNat_le.mp hlarge)⟩
    | none =>
      rw [kmallocFuel_grow fuel hz hfound]
      split
      · exact ih (by rwa [rounded_rounded]) _
      · exact fun hptr => absurd rfl hptr

theorem sound_of_fits (hwant : want + 4128 ≤ 2 ^ 64) :
    Sound want (UInt64.ofNat want) (kmalloc · (UInt64.ofNat want)) := by
  have hrequest : (UInt64.ofNat want).toNat = want := UInt64.toNat_ofNat_of_lt' (by grind)
  have hround := rounded_toNat (UInt64.ofNat want) (by omega)
  have hsize : (rounded (UInt64.ofNat want)).toNat + 4119 < 2 ^ 64 := by omega
  have hretries := retries_le_one hsize
  refine ⟨fun m => ?_, fun m => (hretries m _).trans ?_,
    1, by omega, fun m fuel => (hretries m fuel).trans ?_⟩
  · exact enough_of_rounded (by omega) _ m
  · split
    · rename_i hgrow
      have hpages := growthFor_toNat hsize
      exact maxPageIndex_pos _ (by omega) hgrow
    · exact Nat.zero_le _
  · split <;> omega

def largeMachine (blocks : List HeapBlock) : Machine :=
  { wideMachine with
    pmm := { wideMachine.pmm with
      bitmap := Bitmap.fullBytes 8388608
      maxPageIndex := 1099511627776
      maxPageIndex_lt := by decide }
    heap := ⟨blocks, heapVirtStart, heapVirtStart, 0, []⟩ }

/-- A free block of exactly the rounded size is taken. -/
theorem rounded_of_enough (hne : request ≠ 0)
    (h : Enough want (kmalloc (largeMachine [⟨heapVirtStart, rounded request, true⟩]) request)) :
    want ≤ (rounded request).toNat := by
  have hfound : takeBlock (rounded request) [⟨heapVirtStart, rounded request, true⟩] =
    some (heapVirtStart + headerSize,
      cutBlock (rounded request) ⟨heapVirtStart, rounded request, true⟩ ++ []) := by
    rw [takeBlock_cons, if_pos ⟨rfl, UInt64.le_refl _⟩]
  have heq := kmallocFuel_take (m := largeMachine [⟨heapVirtStart, rounded request, true⟩])
    1099511627776 hne hfound
  change kmalloc (largeMachine _) request = _ at heq
  rw [heq] at h
  obtain ⟨b, hb, _, hused, hwant⟩ := h (show heapVirtStart + headerSize ≠ 0 by decide)
  suffices hsize : b.size = rounded request by rwa [hsize] at hwant
  simp only [cutBlock, List.append_nil] at hb
  split at hb
  · rcases List.mem_pair.mp hb with rfl | rfl
    · rfl
    · exact Bool.noConfusion hused
  · rw [List.mem_singleton.mp hb]

/-- Every round of a huge request grows the heap and finds no block. -/
theorem retries_huge (fuel : ℕ) (hne : request ≠ 0)
    (hsize : 2 ^ 64 ≤ (rounded request).toNat + 4119)
    (hnone : takeBlock (rounded request) m.heap.blocks = none) (hs : Sane m)
    (h : Affords m (16 * fuel)) : fuel ≤ retries fuel m request := by
  induction fuel generalizing m request with
  | zero => exact le_rfl
  | succ fuel ih =>
    obtain ⟨hne', hagain, hfour⟩ := huge_again hsize
    have hfree : Affords m (4 * (4 : UInt64).toNat + 16 * fuel) := h.mono (by simp; omega)
    obtain ⟨hgrow, haff, _⟩ := heapGrow_affords hs 4 hfree
    obtain ⟨_, hs', _⟩ := growPages_affords hs hfree
    rw [retries, if_neg hne]
    simp only [hnone, hfour, hgrow, if_true]
    apply Nat.succ_le_succ
    have hpmm : (afterGrowth m (rounded request)).pmm =
      (heapGrow m 4).1.pmm := by rw [afterGrowth, hfour]
    exact ih hne' hagain (takeBlock_afterGrowth hsize hnone) ⟨hpmm ▸ hs'.kept, hpmm ▸ hs'.zero,
      hpmm ▸ hs'.width⟩ (haff.congr hpmm (by rw [afterGrowth, hfour]))

theorem unbounded_of_huge (hne : request ≠ 0)
    (hsize : 2 ^ 64 ≤ (rounded request).toNat + 4119) {bound : ℕ}
    (hbound : bound < 2 ^ 32) : ∃ m fuel, bound < retries fuel m request := by
  refine ⟨largeMachine [], bound + 1, retries_huge (bound + 1) hne hsize rfl ?_ ?_⟩
  · exact sane_of_fullBytes rfl (by decide) (by decide) (by decide) (by decide) (by decide)
  · refine (affords_of_fullBytes rfl rfl).mono ?_
    change 16 * (bound + 1) ≤ 1099511627776 - 8 * 8388608
    omega

theorem sound_iff (want : ℕ) : Sound want (UInt64.ofNat want) (kmalloc · (UInt64.ofNat want)) ↔
    want + 4128 ≤ 2 ^ 64 ∨ want % 2 ^ 64 = 0 := by
  have hrequest : (UInt64.ofNat want).toNat = want % 2 ^ 64 := UInt64.toNat_ofNat'
  constructor
  · intro h
    by_contra hnot
    have hne : UInt64.ofNat want ≠ 0 := by
      intro hz
      rw [hz] at hrequest
      change 0 = _ at hrequest
      omega
    have hwant := rounded_of_enough hne (h.enough _)
    have hround := rounded_eq (UInt64.ofNat want)
    obtain ⟨bound, hbound, hretries⟩ := h.bounded
    obtain ⟨m, fuel, hmore⟩ := unbounded_of_huge hne (by omega) hbound
    exact absurd (hretries m fuel) (by omega)
  · rintro (hfits | hz)
    · exact sound_of_fits hfits
    · have hnull : UInt64.ofNat want = 0 := UInt64.toNat_inj.mp (hrequest.trans hz)
      have hnone : ∀ fuel m, retries fuel m 0 = 0 := by
        intro fuel m
        cases fuel with
        | zero => rfl
        | succ fuel => exact if_pos rfl
      rw [hnull]
      refine ⟨fun m hptr => absurd (kmallocFuel_zero _ m) hptr, fun m => ?_,
        0, by omega, fun m fuel => ?_⟩
      · exact Nat.zero_le _
      · rw [hnone]

/-- `kmalloc` can be relied on up to 2^64 - 4128, and `kcalloc` for products up to that and those
it takes for 0. -/
theorem allocations_sound_iff (count size : UInt64) :
    (Sound size.toNat size (kmalloc · size) ↔ size.toNat + 4128 ≤ 2 ^ 64) ∧
    (Sound (count.toNat * size.toNat) (count * size) (kcalloc · count size) ↔
      count.toNat * size.toNat + 4128 ≤ 2 ^ 64 ∨ count.toNat * size.toNat % 2 ^ 64 = 0) := by
  have hone := sound_iff size.toNat
  have hproduct := sound_iff (count.toNat * size.toNat)
  rw [UInt64.ofNat_toNat] at hone
  refine ⟨hone.trans ?_, hproduct⟩
  have hlt := size.toNat_lt
  omega

/-- The largest size is rounded to 0: a block of no bytes is returned. -/
theorem largest_size_rounds_to_zero :
    (kmalloc (largeMachine [⟨heapVirtStart, 16360, true⟩]) 0xFFFFFFFFFFFFFFFF).2 =
      heapVirtStart + headerSize ∧
    (kmalloc (largeMachine [⟨heapVirtStart, 16360, true⟩]) 0xFFFFFFFFFFFFFFFF).1.heap.blocks =
      [⟨heapVirtStart, 0, false⟩, ⟨heapVirtStart + headerSize, 16336, true⟩] := by
  have hne : (0xFFFFFFFFFFFFFFFF : UInt64) ≠ 0 := by decide
  have heq :=
    kmallocFuel_take (m := largeMachine [⟨heapVirtStart, 16360, true⟩]) 1099511627776 hne rfl
  change kmalloc (largeMachine _) _ = _ at heq
  exact ⟨rfl, rfl⟩

section

variable {before after : List HeapBlock} {b c : HeapBlock} {addr part rest whole : UInt64}

theorem coalesce_cons (h : ∀ c ∈ blocks.head?, ¬ (b.free = true ∧ c.free = true)) :
    coalesce (b :: blocks) = b :: coalesce blocks := by
  cases blocks with
  | nil => simp [coalesce]
  | cons c rest =>
    rw [coalesce, if_neg]
    simpa using h c rfl

theorem coalesce_of_settled (h : blocks.IsChain fun b c => ¬ (b.free = true ∧ c.free = true)) :
    coalesce blocks = blocks := by
  induction blocks with
  | nil => rw [coalesce]
  | cons b rest ih =>
    obtain ⟨hhead, hrest⟩ := List.isChain_cons.mp h
    rw [coalesce_cons hhead, ih hrest]

/-- The two parts of a block are put together again, and nothing else is. -/
theorem coalesce_parts (addr' : UInt64) (hwhole : part + (headerSize + rest) = whole)
    (h : (before ++ ⟨addr, whole, true⟩ :: after).IsChain fun b c => ¬ (b.free = true ∧
      c.free = true)) : coalesce (before ++ ⟨addr, part, true⟩ :: ⟨addr', rest, true⟩ :: after) =
      before ++ ⟨addr, whole, true⟩ :: after := by
  induction before with
  | nil =>
    rw [List.nil_append, coalesce, ← hwhole]
    rw [← hwhole] at h
    exact coalesce_of_settled h
  | cons a before ih =>
    obtain ⟨hhead, hrest⟩ := List.isChain_cons.mp h
    rw [List.cons_append, coalesce_cons, ih hrest]
    · rfl
    · cases before with
      | nil => simpa using hhead
      | cons a' before => exact hhead

/-- Freeing what was taken from a block at hand gives back the old list. -/
theorem kfree_undoes_kmalloc {s : HeapUse} (hs : HeapReached s)
    (hfound : takeBlock (rounded size) s.machine.heap.blocks ≠ none)
    (hptr : (kmalloc s.machine size).2 ≠ 0) :
    (kfree (kmalloc s.machine size).1 (kmalloc s.machine size).2).heap.blocks =
      s.machine.heap.blocks := by
  obtain ⟨⟨ptr, blocks⟩, htake⟩ := Option.ne_none_iff_exists'.mp hfound
  have hz : size ≠ 0 := by
    rintro rfl
    exact hptr (kmallocFuel_zero _ _)
  rw [kmalloc, kmallocFuel_take s.machine.pmm.maxPageIndex.toNat hz htake] at hptr ⊢
  have hset := hs.kept.heapOk.coalesced
  obtain ⟨before, ⟨addr, whole, free⟩, after, hblks, ⟨rfl, -⟩, rfl, rfl⟩ := takeBlock_eq_some htake
  -- a block at that address is the one taken, which was free
  have hsame : ∀ c ∈ s.machine.heap.blocks, (if c.addr = addr then { c with free := true }
      else c) = c := by
    intro c hc
    split
    · rename_i haddr
      have hmem : ⟨addr, whole, true⟩ ∈ s.machine.heap.blocks := by simp [hblks]
      rw [view_injective (same_block hs.kept.laid hc hmem (congrArg UInt64.toNat haddr))]
    · rfl
  rw [hblks] at hsame hset ⊢
  obtain ⟨hpre, hrest⟩ := List.forall_mem_append.mp hsame
  rw [kfree, UInt64.add_sub_cancel]
  rw [List.map_append, List.map_append, (List.map_congr_left hpre).trans (List.map_id _),
    (List.map_congr_left (List.forall_mem_cons.mp hrest).2).trans (List.map_id _), cutBlock]
  split
  · have hwhole : rounded size + (headerSize + (whole - rounded size - headerSize)) =
      whole := by grind
    simpa using coalesce_parts (addr + headerSize + rounded size) hwhole hset
  · rw [List.map_singleton, if_pos rfl]
    exact coalesce_of_settled hset

theorem heapStart_ne_zero : heapVirtStart + headerSize ≠ 0 := by decide

theorem kfree_undoes_kmalloc_boot : ∃ m, (kmalloc m 1).2 ≠ 0 ∧
    (kfree (kmalloc m 1).1 (kmalloc m 1).2).heap.blocks = m.heap.blocks := by
  obtain ⟨m, hreach, hblks⟩ := exists_boot
  obtain ⟨hfound, hcall⟩ := kmalloc_first 1 hblks (by decide) (by decide)
  have hptr : (kmalloc m 1).2 ≠ 0 := by
    rw [hcall]
    exact heapStart_ne_zero
  exact ⟨m, hptr, kfree_undoes_kmalloc hreach hfound hptr⟩

theorem length_coalesce (blocks : List HeapBlock) : (coalesce blocks).length ≤ blocks.length := by
  fun_induction coalesce blocks with
  | case1 | case2 => exact le_rfl
  | case3 b c rest _ ih => exact ih.trans (Nat.le_succ _)
  | case4 b c rest _ ih => exact Nat.succ_le_succ ih

/-- A block that is given back swallows a free one behind it. -/
theorem kfree_merges {left : List HeapBlock} (h : m.heap.blocks = b :: c :: left)
    (hptr : b.addr + headerSize ≠ 0) (hfree : c.free = true) :
    (kfree m (b.addr + headerSize)).heap.blocks.length < left.length + 2 := by
  rw [kfree, if_neg hptr, h, UInt64.add_sub_cancel]
  dsimp only
  rw [List.map_cons, List.map_cons, if_pos rfl, coalesce, if_pos]
  · exact Nat.lt_succ_of_le ((length_coalesce _).trans (by simp))
  · split
    · rfl
    · exact hfree

/-- The block of the first growth for a huge request is still there when `kmalloc` gives up. -/
theorem kmalloc_huge (hne : request ≠ 0) (hsize : 2 ^ 64 ≤ (rounded request).toNat + 4119)
    (hnone : takeBlock (rounded request) m.heap.blocks = none) (hgrow : (heapGrow m 4).2 = true) :
    ∃ m' b left, kmalloc m request = (m', 0) ∧ m'.heap.blocks = m.heap.blocks ++ b :: left ∧
      b.free = true := by
  obtain ⟨hne', hagain, hfour⟩ := huge_again hsize
  obtain ⟨hnull, left, hleft⟩ :=
    kmallocFuel_huge m.pmm.maxPageIndex.toNat hne' hagain (takeBlock_afterGrowth hsize hnone)
  rw [afterGrowth_blocks, List.append_assoc] at hleft
  refine ⟨_, _, left, ?_, hleft.symm, rfl⟩
  rw [kmalloc, kmallocFuel_grow _ hne hnone, hfour, if_pos hgrow, ← hnull]

/-- A request just below 2^64 fails and leaves free neighbours, which the next `kfree` merges. -/
theorem huge_request_leaves_neighbours : ∃ m m', HeapReached ⟨m, []⟩ ∧
    kmalloc m 0xFFFFFFFFFFFFFFC0 = (m', 0) ∧
    takeBlock (rounded 262112) m'.heap.blocks ≠ none ∧ (kmalloc m' 262112).2 ≠ 0 ∧
    (kfree (kmalloc m' 262112).1 (kmalloc m' 262112).2).heap.blocks ≠ m'.heap.blocks := by
  obtain ⟨K, hstarted, haff, -⟩ := boot_started
  have hgrow := (heapGrow_affords (k := 0) hstarted.ready.sane 4 (haff.mono (by decide))).1
  obtain ⟨m', b, left, hcall, hblks, hfree⟩ :=
    kmalloc_huge (show (0xFFFFFFFFFFFFFFC0 : UInt64) ≠ 0 by decide) (by decide)
    (by rw [boot_blocks]; decide) hgrow
  rw [boot_blocks] at hblks
  obtain ⟨hfound, hfirst⟩ := kmalloc_first 262112 hblks (by decide) (by decide)
  refine ⟨_, m', heapReached_boot, hcall, hfound, ?_⟩
  rw [hfirst, hblks]
  refine ⟨heapStart_ne_zero, fun heq => ?_⟩
  have hlt := kfree_merges (m := withBlocks m' (⟨heapVirtStart, 262120, false⟩ :: b :: left)) rfl
    heapStart_ne_zero hfree
  exact Nat.ne_of_lt hlt (congrArg List.length heq)

end

end NexusKernel.AllocationSizes
