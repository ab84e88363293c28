import NexusKernel.KernelHalf

/-!
Whether the memory that `kmalloc` returns is mapped. `vmm_map_page` gives up without a word when
no page is left for a table. The next page of the growth is then refused as well, so only the last
page of a growth that succeeds can be left out. A call that meets a header there does not return.
-/

namespace NexusKernel.HeapMapped

open Lib.TableTree Lib.Loops PhysicalMemory PageEntries Hardware PageSupply
open Vmm Walks Mapping DebuggerWalk KernelHeap HeapGrowth HeapInvariant KernelHalf Machine

variable {m t : Machine} {n : ℕ} {request : UInt64}

def Translated (m : Machine) (a : UInt64) : Prop := (mmuWalk m a).isSome = true

instance (m : Machine) (a : UInt64) : Decidable (Translated m a) :=
  inferInstanceAs (Decidable (_ = true))

def mapped (m : Machine) (a : UInt64) (n : ℕ) : Bool :=
  (List.range n).all (fun i => (mmuWalk m (a + UInt64.ofNat i)).isSome)

/-- The fields of a header: eight bytes of size, four of the flag, a gap of four and the link. -/
def headerMapped (m : Machine) (a : UInt64) : Bool := mapped m a 12 && mapped m (a + 16) 8

/-- The headers that the search for a block meets, and the one it makes to split a block. -/
def searchMapped (m : Machine) (size : UInt64) : List HeapBlock → Bool
  | [] => true
  | b :: rest =>
      mapped m (b.addr + 8) 4 && (!b.free || mapped m b.addr 8) &&
        if b.free && b.size ≥ size then
          b.size < size + headerSize + minBlock ||
            (mapped m (b.addr + 16) 8 && headerMapped m (b.addr + headerSize + size))
        else mapped m (b.addr + 16) 8 && searchMapped m size rest

/-- Whether the headers are mapped that `kmalloc` reads and stores. After a growth it makes one and
follows the links to the last block. -/
def fuelReturns : ℕ → Machine → UInt64 → Bool
  | 0, _, _ => true
  | fuel + 1, m, request =>
      let size := rounded request
      let grown := afterGrowth m size
      request = 0 || (searchMapped m size m.heap.blocks &&
        ((takeBlock size m.heap.blocks).isSome || !(heapGrow m (growthFor size)).2 ||
          (headerMapped grown m.heap.virtEnd && !m.heap.blocks.isEmpty &&
            m.heap.blocks.all (fun b => mapped grown (b.addr + 16) 8) &&
              fuelReturns fuel grown size)))

def kmallocReturns (m : Machine) (request : UInt64) : Bool :=
  fuelReturns (m.pmm.maxPageIndex.toNat + 1) m request

def kmallocCall (m : Machine) (request : UInt64) : Option (Machine × UInt64) :=
  if kmallocReturns m request then some (kmalloc m request) else none

def growthPage (m : Machine) (j : ℕ) : UInt64 := m.heap.virtEnd + UInt64.ofNat j * 4096

def growthPath (m : Machine) (j : ℕ) : List ℕ := pathOf (growthPage m j)

/-- The tables to be made for the first `n` pages of the next growth. -/
def tablesFor (m : Machine) (n : ℕ) : Finset (List ℕ) :=
  (Finset.range n).biUnion (fun j => lacking plain m.ram (frame m.cr3) (growthPath m j))

theorem growthPath_mem (m : Machine) (j : ℕ) : growthPath m j ∈ paths plain 3 512 :=
  pathOf_mem_paths rfl (pml4Index_lt _)

theorem growthPage_succ (m : Machine) (n : ℕ) : growthPage m (n + 1) = growthPage m n + 4096 := by
  rw [growthPage, growthPage, UInt64.ofNat_add, UInt64.add_mul, UInt64.add_assoc]
  rfl

theorem tablesFor_succ (m : Machine) (n : ℕ) : tablesFor m (n + 1) =
    lacking plain m.ram (frame m.cr3) (growthPath m n) ∪ tablesFor m n := by
  rw [tablesFor, Finset.range_add_one, Finset.biUnion_insert]
  rfl

theorem card_tablesFor_succ (m : Machine) (n : ℕ) : (tablesFor m (n + 1)).card =
    (lacking plain m.ram (frame m.cr3) (growthPath m n) \ tablesFor m n).card +
      (tablesFor m n).card := by
  rw [tablesFor_succ, Finset.card_sdiff_add_card]

structure Grown (m : Machine) (n : ℕ) (t : Machine) : Prop where
  sane : Sane t
  tree : BootTree t (frame m.cr3)
  cr3 : t.cr3 = m.cr3
  denials : t.denials = []
  virtEnd : t.heap.virtEnd = growthPage m n
  opens : ∀ k ∈ paths plain 3 512, Unblocked plain x86 t.ram (frame m.cr3) k ↔
    Unblocked plain x86 m.ram (frame m.cr3) k

structure Full (m : Machine) (n : ℕ) (t : Machine) : Prop extends Grown m n t where
  free : (budget t).free + n + (tablesFor m n).card = (budget m).free
  lacking : ∀ k ∈ paths plain 3 512, lacking plain t.ram (frame m.cr3) k =
    lacking plain m.ram (frame m.cr3) k \ tablesFor m n
  mapped : ∀ j < n, present (leafAt plain t.ram (frame m.cr3) (growthPath m j)) = true

/-- The last of `n + 1` pages is unmapped, and no page is left. -/
structure Short (m : Machine) (n : ℕ) (t : Machine) : Prop extends Grown m (n + 1) t where
  free : (budget t).free = 0
  less : (budget m).free < n + 1 + (tablesFor m (n + 1)).card
  mapped : ∀ j < n, present (leafAt plain t.ram (frame m.cr3) (growthPath m j)) = true
  last : leafAt plain t.ram (frame m.cr3) (growthPath m n) = 0

inductive Outcome (m : Machine) : ℕ → Machine × Bool → Prop where
  | full (n : ℕ) (t : Machine) (h : Full m n t) : Outcome m n (t, true)
  | short (n : ℕ) (t : Machine) (h : Short m n t) : Outcome m (n + 1) (t, true)
  | failed (n : ℕ) (t : Machine) (hless : (budget m).free < n + 1 + (tablesFor m n).card) :
      Outcome m (n + 1) (t, false)

theorem full_start (hs : Sane m) (htree : BootTree m (frame m.cr3)) (hden : m.denials = []) :
    Full m 0 m where
  sane := hs
  tree := htree
  cr3 := rfl
  denials := hden
  virtEnd := by simp [growthPage]
  opens := fun _ _ => Iff.rfl
  free := rfl
  lacking := fun _ _ => (Finset.sdiff_empty).symm
  mapped := fun _ hj => absurd hj (Nat.not_lt_zero _)

theorem Grown.allocated {f : ℕ} {t₁ : Machine} (h : Grown m n t) (hnew : Fresh t f t₁) :
    Grown m n t₁ ∧ Agree plain t.ram t₁.ram 3 512 (frame m.cr3) ∧ (budget t).free =
      (budget t₁).free + 1 := by
  obtain ⟨hagree, htree⟩ := fresh_tree hnew h.tree rfl rfl
  obtain ⟨hfree, htail⟩ := Budget.free_of_granted hnew.granted hnew.budget
  refine ⟨⟨h.sane.grows hnew.grows, htree, hnew.cr3.trans h.cr3, ?_, ?_,
    fun k hk => (hagree.unblocked_iff hk).trans (h.opens k hk)⟩, hagree, hfree⟩
  · rw [show t₁.denials = t.denials.tail from htail, h.denials, List.tail_nil]
  · rw [hnew.grows.heap]
    exact h.virtEnd

theorem growPage_outcome (h : Full m n t)
    (hopen : Unblocked plain x86 m.ram (frame m.cr3) (growthPath m n)) :
    Outcome m (n + 1) (growPage t) := by
  unfold growPage
  rcases pmmAllocPage_cases h.sane with ⟨hz, href⟩ | ⟨f, haddr, hne, hnew⟩
  · rw [if_pos hz]
    have hfree := href.free_eq_zero h.denials
    have htotal := h.free
    exact Outcome.failed n _ (by omega)
  · rw [if_neg (by rw [haddr]; exact hne)]
    obtain ⟨hgrown, hagree, hfree⟩ := h.toGrown.allocated hnew
    have htotal := h.free
    have hpath := growthPath_mem m n
    have hcur : t.pmmAllocPage.1.currentPml4 = pageAddr (frame m.cr3) := by
      rw [currentPml4, hgrown.cr3, and_addrMask]
    have hopen₁ := (hgrown.opens _ hpath).mpr hopen
    have hmap := mapAt_mappedOf reads_plain (fun _ _ => trivial)
      (leafEntry t.pmmAllocPage.2 heapFlags) hgrown.sane hgrown.tree hpath hopen₁
    obtain ⟨hden, hattempt⟩ := mapAt_attempt reads_plain (fun _ _ => trivial)
      (leafEntry t.pmmAllocPage.2 heapFlags) hgrown.sane hgrown.tree hpath hopen₁ hgrown.denials
    have hvmm : vmmMapPage t.pmmAllocPage.1 t.heap.virtEnd t.pmmAllocPage.2 heapFlags =
        mapAt (leafEntry t.pmmAllocPage.2 heapFlags) (growthPath m n) t.pmmAllocPage.1
          (pageAddr (frame m.cr3)) := by
      rw [vmmMapPage_eq, hcur, h.virtEnd]
      rfl
    have hpres : present (leafEntry t.pmmAllocPage.2 heapFlags) = true := by
      rw [present_leafEntry]
      decide
    have hlack : ∀ k ∈ paths plain 3 512, lacking plain t.pmmAllocPage.1.ram (frame m.cr3) k =
          lacking plain m.ram (frame m.cr3) k \ tablesFor m n :=
      fun k hk => (hagree.lacking_eq hk).trans (h.lacking k hk)
    have hmissing : missing plain t.pmmAllocPage.1.ram (frame m.cr3) (growthPath m n) +
        (tablesFor m n).card = (tablesFor m (n + 1)).card := by
      rw [← card_lacking, hlack _ hpath, card_tablesFor_succ]
    have hkept : ∀ j < n, present (leafAt plain t.pmmAllocPage.1.ram (frame m.cr3)
        (growthPath m j)) = true := by
      intro j hj
      rw [hagree.leafAt_eq (growthPath_mem m j)]
      exact h.mapped j hj
    simp only [hvmm]
    generalize mapAt (leafEntry t.pmmAllocPage.2 heapFlags) (growthPath m n) t.pmmAllocPage.1
      (pageAddr (frame m.cr3)) = t₂ at hmap hden hattempt
    have hgrown₂ :
        Grown m (n + 1) { t₂ with heap := { t₂.heap with virtEnd := t₂.heap.virtEnd + 4096 } } := by
      have hsane := hgrown.sane.grows hmap.grows
      have htree := hmap.treeOf hgrown.tree
      refine ⟨hsane.congr rfl, ⟨htree.proper, htree.inUse⟩,
        hmap.grows.cr3.trans hgrown.cr3, hden, ?_,
        fun k hk => (hmap.opens k hk).trans (hgrown.opens k hk)⟩
      rw [growthPage_succ, ← hgrown.virtEnd, ← hmap.grows.heap]
    obtain ⟨t₃, ht₃, hram, hbudget⟩ : ∃ t₃, t₃ = { t₂ with heap := { t₂.heap with
        virtEnd := t₂.heap.virtEnd + 4096 } } ∧ t₃.ram = t₂.ram ∧ budget t₃ = budget t₂ :=
      ⟨_, rfl, rfl, by simp only [budget]⟩
    rw [← ht₃] at hgrown₂ ⊢
    cases hattempt with
    | filled henough hleaf hspent hfilled =>
      refine Outcome.full (n + 1) _ ⟨hgrown₂, ?_, ?_, ?_⟩
      · rw [hbudget]
        omega
      · intro k hk
        rw [hram, hfilled k hk, hlack k hk, hlack _ hpath, tablesFor_succ]
        ext x
        simp only [Finset.mem_sdiff, Finset.mem_union]
        tauto
      · intro j hj
        rw [hram]
        by_cases heq : growthPath m j = growthPath m n
        · rw [heq, hleaf]
          exact hpres
        · have hjn : j ≠ n := fun hjn => heq (hjn ▸ rfl)
          rw [hmap.leaves _ (growthPath_mem m j) heq]
          exact hkept j (by omega)
    | exhausted hshort hleaf hnone =>
      refine Outcome.short n _ ⟨hgrown₂, by rw [hbudget, hnone], by omega, ?_, by rw [hram, hleaf]⟩
      intro j hj
      rw [hram]
      -- a path that was mapped before has all its tables
      have hne' : growthPath m j ≠ growthPath m n := by
        intro heq
        rw [← heq, ← card_lacking, hlack _ (growthPath_mem m j)] at hshort
        have hsub : lacking plain m.ram (frame m.cr3) (growthPath m j) ⊆ tablesFor m n :=
          Finset.subset_biUnion_of_mem (fun j => lacking plain m.ram (frame m.cr3) (growthPath m j))
              (Finset.mem_range.mpr hj)
        rw [Finset.sdiff_eq_empty_iff_subset.mpr hsub] at hshort
        exact absurd hshort (Nat.not_lt_zero _)
      rw [hmap.leaves _ (growthPath_mem m j) hne']
      exact hkept j hj

theorem growPages_outcome (hs : Sane m) (htree : BootTree m (frame m.cr3)) (hden : m.denials = [])
    (hopen : ∀ j < n, Unblocked plain x86 m.ram (frame m.cr3) (growthPath m j)) :
    Outcome m n (forWhile (fun _ => growPage) n m) := by
  induction n with
  | zero => exact Outcome.full 0 m (full_start hs htree hden)
  | succ n ih =>
    have hprefix := ih fun j hj => hopen j (by omega)
    rw [forWhile]
    generalize forWhile (fun _ => growPage) n m = out at hprefix
    cases hprefix with
    | full n t h =>
      exact growPage_outcome h (hopen n (Nat.lt_succ_self n))
    | short n t h =>
      have hless := h.less
      rcases pmmAllocPage_cases h.sane with ⟨hz, _⟩ | ⟨f, _, _, hnew⟩
      · rw [growPage, if_pos hz]
        exact Outcome.failed (n + 1) _ (by omega)
      · have := (Budget.free_of_granted hnew.granted hnew.budget).1
        have := h.free
        omega
    | failed n t hless =>
      have hcard := card_tablesFor_succ m n
      exact Outcome.failed (n + 1) t (by omega)

theorem takeBlock_new {size : UInt64} {blocks : List HeapBlock} {c : HeapBlock}
    (hnone : takeBlock size blocks = none) (hfree : c.free = true) :
    if size ≤ c.size then ∃ blocks', takeBlock size (blocks ++ [c]) =
      some (c.addr + headerSize, blocks')
    else takeBlock size (blocks ++ [c]) = none := by
  have hblks := takeBlock_eq_none.mp hnone
  split
  · rename_i hsize
    obtain ⟨⟨ptr, blocks'⟩, hfound⟩ := takeBlock_append size blocks hfree hsize
    obtain ⟨before, b, after, heq, hfit, rfl, -⟩ := takeBlock_eq_some hfound
    -- The block that is found can only be the new one.
    have hmem : b ∈ blocks ++ [c] := by simp [heq]
    rcases List.mem_append.mp hmem with hmem | hmem
    · exact absurd hfit (hblks b hmem)
    · obtain rfl := List.mem_singleton.mp hmem
      exact ⟨blocks', hfound⟩
  · rename_i hsize
    exact takeBlock_eq_none.mpr (List.forall_mem_append.mpr
      ⟨hblks, List.forall_mem_singleton.mpr fun hfit => hsize hfit.2⟩)

theorem huge_again (hsize : 2 ^ 64 ≤ (rounded request).toNat + 4119) :
    rounded request ≠ 0 ∧ 2 ^ 64 ≤ (rounded (rounded request)).toNat + 4119 ∧
      growthFor (rounded request) = 4 := by
  have hlt := (rounded request).toNat_lt
  refine ⟨fun hz => ?_, by rwa [rounded_rounded], ?_⟩
  · rw [hz] at hsize
    exact absurd hsize (by decide)
  · have hpages : ((rounded request + headerSize + 4095) / 4096).toNat < 4 := by
      simp only [UInt64.toNat_div, UInt64.toNat_add, headerSize, UInt64.reduceToNat]
      omega
    exact if_pos (UInt64.lt_iff_toNat_lt.mpr hpages)

/-- The size of the growth wraps around for requests just below 2^64: the block is too small. -/
theorem takeBlock_afterGrowth (hsize : 2 ^ 64 ≤ (rounded request).toNat + 4119)
    (hnone : takeBlock (rounded request) m.heap.blocks = none) :
    takeBlock (rounded (rounded request)) (afterGrowth m (rounded request)).heap.blocks = none := by
  have hsmall : ¬ rounded request ≤ (newBlock m (rounded request)).size := by
    rw [newBlock, (huge_again hsize).2.2]
    change ¬ (rounded request).toNat ≤ 16360
    omega
  have hnew := takeBlock_new (c := newBlock m (rounded request)) hnone rfl
  rw [if_neg hsmall] at hnew
  rwa [rounded_rounded, afterGrowth_blocks]

/-- For such a request the heap grows until no page is left, and the blocks of the growths stay. -/
theorem kmallocFuel_huge (fuel : ℕ) (hne : request ≠ 0)
    (hsize : 2 ^ 64 ≤ (rounded request).toNat + 4119)
    (hnone : takeBlock (rounded request) m.heap.blocks = none) :
    (kmallocFuel fuel m request).2 = 0 ∧
      m.heap.blocks <+: (kmallocFuel fuel m request).1.heap.blocks := by
  induction fuel generalizing m request with
  | zero => exact ⟨rfl, List.prefix_rfl⟩
  | succ fuel ih =>
    obtain ⟨hne', hagain, _⟩ := huge_again hsize
    rw [kmallocFuel_grow fuel hne hnone]
    split
    · obtain ⟨hnull, hstay⟩ := ih hne' hagain (takeBlock_afterGrowth hsize hnone)
      rw [afterGrowth_blocks] at hstay
      exact ⟨hnull, (List.prefix_append _ _).trans hstay⟩
    · exact ⟨rfl, by rw [heapGrow_blocks]⟩

/-- Every byte of the block returned for the request will be mapped: a block at hand is, and for a
growth there are pages for the heap and the tables, or the block does not reach into the last
page. -/
def HeapCovered (m : Machine) (request : UInt64) : Prop :=
  match takeBlock (rounded request) m.heap.blocks with
  | some (ptr, _) => ∀ o < request.toNat, Translated m (ptr + UInt64.ofNat o)
  | none =>
      (growthFor (rounded request)).toNat + (tablesFor m (growthFor (rounded request)).toNat).card ≤
        (budget m).free ∨ 24 + request.toNat ≤ 4096 * ((growthFor (rounded request)).toNat - 1)

theorem translated_congr {m' : Machine} (hram : m'.ram = m.ram) (hcr3 : m'.cr3 = m.cr3)
    (a : UInt64) : Translated m' a ↔ Translated m a := by
  have hfirst : pml4e m' a = pml4e m a := by
    rw [pml4e, pml4e, entry, entry, currentPml4, currentPml4, hram, hcr3]
  rw [Translated, Translated, (walks_congr hram hfirst).1]

theorem Grown.translated_iff (h : Grown m n t) {j : ℕ} {a : UInt64} (ha : pathOf a = growthPath m j)
    (hopen : Unblocked plain x86 m.ram (frame m.cr3) (growthPath m j)) :
    Translated t a ↔ present (leafAt plain t.ram (frame m.cr3) (growthPath m j)) = true := by
  have hroot : frame t.cr3 = frame m.cr3 := by rw [h.cr3]
  rw [Translated, mmuWalk_leaf, hroot, ha]
  · split <;> simp_all
  · rw [hroot, ha]
    exact (h.opens _ (growthPath_mem m j)).mpr hopen

/-- The page of an offset behind the old end of the heap. -/
theorem pathOf_offset (halign : m.heap.virtEnd.toNat % 4096 = 0) {x : ℕ} (hx : x < 2 ^ 64) :
    pathOf (m.heap.virtEnd + UInt64.ofNat x) = growthPath m (x / 4096) := by
  have hx' : (UInt64.ofNat x).toNat = x := UInt64.toNat_ofNat_of_lt' hx
  have hpage : (UInt64.ofNat (x / 4096)).toNat = x / 4096 := UInt64.toNat_ofNat_of_lt' (by grind)
  rw [growthPath, pathOf_eq_iff, pageNumber, pageNumber, growthPage]
  simp only [UInt64.toNat_add, UInt64.toNat_mul, hx', hpage, UInt64.reduceToNat]
  omega

theorem kmallocFuel_zero (fuel : ℕ) (m : Machine) : (kmallocFuel fuel m 0).2 = 0 := by
  cases fuel with
  | zero => rfl
  | succ fuel => rw [kmallocFuel, if_pos rfl]

/-- A request served by a growth was not rounded over the top, and its size leaves room for the
header. -/
theorem size_of_growth (hne : request ≠ 0)
    (hnone : takeBlock (rounded request) m.heap.blocks = none) (hptr : (kmalloc m request).2 ≠ 0) :
    rounded request ≠ 0 ∧ (rounded request).toNat + 4119 < 2 ^ 64 ∧
      request.toNat ≤ (rounded request).toNat := by
  have hhuge : (rounded request).toNat + 4119 < 2 ^ 64 := by
    by_contra hhuge
    exact hptr (kmallocFuel_huge _ hne (by omega) hnone).1
  have hne' : rounded request ≠ 0 := by
    intro hz
    apply hptr
    rw [kmalloc, kmallocFuel_grow _ hne hnone]
    split
    · rw [hz]
      exact kmallocFuel_zero _ _
    · rfl
  refine ⟨hne', hhuge, ?_⟩
  by_cases hwrap : request.toNat + 15 < 2 ^ 64
  · rw [rounded_toNat request hwrap]
    omega
  · have hlt := request.toNat_lt
    have hsum : (request + 15).toNat < 16 := by
      simp only [UInt64.toNat_add, UInt64.reduceToNat]
      omega
    have hz : (rounded request).toNat = (request + 15).toNat / 16 * 16 := rounded_eq request
    exact absurd (UInt64.toNat_inj.mp (by rw [hz]; simp only [UInt64.reduceToNat]; omega)) hne'

/-- Which bytes behind the header of a new block are mapped. -/
theorem growth_translated_iff {g : ℕ} (size : ℕ) (halign : m.heap.virtEnd.toNat % 4096 = 0)
    (hg : 1 < g) (hbig : 4096 * g < 2 ^ 64) (hsize : 24 + size ≤ 4096 * g)
    (hopen : ∀ j < g, Unblocked plain x86 m.ram (frame m.cr3) (growthPath m j))
    (hout : Outcome m g (t, true)) :
    (∀ o < size, Translated t (m.heap.virtEnd + headerSize + UInt64.ofNat o)) ↔
    g + (tablesFor m g).card ≤ (budget m).free ∨ 24 + size ≤ 4096 * (g - 1) := by
  have haddr : ∀ o, 24 + o < 4096 * g →
      pathOf (m.heap.virtEnd + headerSize + UInt64.ofNat o) = growthPath m ((24 + o) / 4096) := by
    intro o ho
    rw [← pathOf_offset halign (by omega), UInt64.ofNat_add, UInt64.add_assoc]
    rfl
  cases hout with
  | full n t h =>
    have htotal := h.free
    refine iff_of_true (fun o ho => ?_) (.inl (by omega))
    have hj : (24 + o) / 4096 < g := by omega
    exact (h.toGrown.translated_iff (haddr o (by omega)) (hopen _ hj)).mpr (h.mapped _ hj)
  | short n t h =>
    have hless := h.less
    constructor
    · intro hall
      right
      by_contra hreach
      have ho : 24 + (4096 * n - 24) = 4096 * n := by omega
      have hlast := haddr (4096 * n - 24) (by omega)
      rw [ho, Nat.mul_div_cancel_left n (by omega)] at hlast
      have hmap :=
        (h.toGrown.translated_iff hlast (hopen n (by omega))).mp (hall (4096 * n - 24) (by omega))
      rw [h.last] at hmap
      simp at hmap
    · rintro (henough | hreach) o ho
      · omega
      · have hj : (24 + o) / 4096 < n := by omega
        exact (h.toGrown.translated_iff (haddr o (by omega)) (hopen _ (by omega))).mpr
          (h.mapped _ hj)

/-- Outside its own record a growth leaves what its loop has made. -/
theorem afterGrowth_machine (m : Machine) (size : UInt64) {t : Machine} {done : Bool}
    (h : forWhile (fun _ => growPage) (growthFor size).toNat m = (t, done)) :
    (heapGrow m (growthFor size)).2 = done ∧ (afterGrowth m size).ram = t.ram ∧
      (afterGrowth m size).cr3 = t.cr3 := by
  unfold afterGrowth heapGrow
  rw [h]
  exact ⟨rfl, rfl, rfl⟩

section

variable (hs : Sane m) (htree : BootTree m (frame m.cr3)) (hden : m.denials = [])
  (hopen : ∀ j < (growthFor (rounded request)).toNat,
    Unblocked plain x86 m.ram (frame m.cr3) (growthPath m j))

include hs htree hden hopen

section

variable (hne : rounded request ≠ 0) (hsize : (rounded request).toNat + 4119 < 2 ^ 64)
  (hnone : takeBlock (rounded request) m.heap.blocks = none)
include hne hsize hnone

/-- A request for which the heap grows gets the new block, if there is a page for
each page of the heap after the tables before it. -/
theorem kmalloc_grown : (∃ t, Outcome m (growthFor (rounded request)).toNat (t, true) ∧
      (kmalloc m request).2 = m.heap.virtEnd + headerSize ∧
      ∀ a, Translated (kmalloc m request).1 a ↔ Translated t a) ∨
    ∃ t, Outcome m (growthFor (rounded request)).toNat (t, false) ∧ (kmalloc m request).2 = 0 := by
  have hne₀ : request ≠ 0 := fun hz => hne (by rw [hz]; decide)
  have hout := growPages_outcome hs htree hden hopen
  cases hloop : forWhile (fun _ => growPage) (growthFor (rounded request)).toNat m with
  | mk t done =>
  obtain ⟨hdone, hram, hcr3⟩ := afterGrowth_machine m (rounded request) hloop
  rw [hloop] at hout
  rcases kmalloc_cases m hne₀ hne hsize with ⟨_, _, hsome, _⟩ | ⟨_, hfailed, heq⟩ |
    ⟨_, hgrown, ptr, blocks, htake, heq⟩
  · cases hnone.symm.trans hsome
  · rw [← hdone, hfailed] at hout
    exact .inr ⟨t, hout, by rw [heq]⟩
  · rw [← hdone, hgrown] at hout
    have hnew := takeBlock_new (c := newBlock m (rounded request)) hnone rfl
    rw [if_pos (size_le_newBlock m hsize)] at hnew
    obtain ⟨blocks', hnew⟩ := hnew
    obtain rfl : m.heap.virtEnd + headerSize = ptr :=
      congrArg Prod.fst (Option.some.inj (hnew.symm.trans htake))
    rw [heq]
    exact .inl ⟨t, hout, rfl, fun a => translated_congr hram hcr3 a⟩

/-- The new block is mapped exactly if there was memory for its tables. -/
theorem kmalloc_grown_iff (halign : m.heap.virtEnd.toNat % 4096 = 0)
    (hle : request.toNat ≤ (rounded request).toNat) (hptr : (kmalloc m request).2 ≠ 0) :
    (∀ o < request.toNat, Translated (kmalloc m request).1
      ((kmalloc m request).2 + UInt64.ofNat o)) ↔ HeapCovered m request := by
  have hpages := growthFor_toNat hsize
  rcases kmalloc_grown hs htree hden hopen hne hsize hnone with
    ⟨t, hout, hblock, hsame⟩ | ⟨_, _, hz⟩
  · rw [hblock, HeapCovered, hnone, ← growth_translated_iff request.toNat halign
      (by omega) (by omega) (by omega) hopen hout]
    exact forall₂_congr fun o _ => hsame _
  · exact absurd hz hptr

end

theorem kmalloc_translated_iff (halign : m.heap.virtEnd.toNat % 4096 = 0)
    (hptr : (kmalloc m request).2 ≠ 0) : (∀ o < request.toNat, Translated (kmalloc m request).1
      ((kmalloc m request).2 + UInt64.ofNat o)) ↔ HeapCovered m request := by
  have hne : request ≠ 0 := by
    intro hz
    rw [hz] at hptr
    exact hptr (kmallocFuel_zero _ _)
  cases hfound : takeBlock (rounded request) m.heap.blocks with
  | some found =>
    obtain ⟨ptr, blocks⟩ := found
    have heq : kmalloc m request = (withBlocks m blocks, ptr) := kmallocFuel_take _ hne hfound
    rw [heq, HeapCovered, hfound]
    exact forall₂_congr fun o _ => translated_congr rfl rfl _
  | none =>
    obtain ⟨hne', hsize, hle⟩ := size_of_growth hne hfound hptr
    exact kmalloc_grown_iff hs htree hden hopen hne' hsize hfound halign hle hptr

/-- A block that `kmalloc` returns is mapped exactly if it was before, or there was memory for the
tables of the pages it reaches into. -/
theorem kmalloc_mapped_iff (halign : m.heap.virtEnd.toNat % 4096 = 0) {t : Machine} {ptr : UInt64}
    (hcall : kmallocCall m request = some (t, ptr)) (hptr : ptr ≠ 0) :
    (∀ o < request.toNat, Translated t (ptr + UInt64.ofNat o)) ↔ HeapCovered m request := by
  have heq : kmalloc m request = (t, ptr) :=
    Option.some.inj (Option.ite_none_right_eq_some.mp hcall).2
  have hiff := kmalloc_translated_iff hs htree hden hopen halign
  rw [heq] at hiff
  exact hiff hptr

end

/-- The heap has used 509 pages of its page table; four pages are free. -/
def edgeMachine : Machine where
  ram := fun p i =>
    if p = 200 ∧ i = 511 then 0xC9003
    else if p = 201 ∧ i = 510 then 0xCA003
    else if p = 202 ∧ i = 128 then 0xCB003
    else if p = 203 ∧ i < 509 then leafEntry (pageAddr (512 + i)) heapFlags
    else 0
  pmm := {
    bitmap := Bitmap.fullBytes 128
    bitmapAddr := 0x1000
    maxPageIndex := 1028
    usablePages := 1028
    usedPages := 1024
    pageRefcount := fun _ => 0
    maxPageIndex_lt := by decide }
  cr3 := 0xC8000
  heap := {
    blocks := [⟨heapVirtStart, 0x1FD000 - headerSize, false⟩]
    virtBase := heapVirtStart
    virtEnd := heapVirtStart + 0x1FD000
    totalSize := 0x1FD000
    grown := [] }
  denials := []
  oom := false

theorem edge_sane : Sane edgeMachine :=
  sane_of_fullBytes rfl (by decide) (by decide) (by decide) (by decide) (by decide)

theorem edge_free : (budget edgeMachine).free = 4 := free_of_fullBytes (m := edgeMachine) rfl

theorem edge_next {p i c : ℕ} (h : plain.next (edgeMachine.ram p i) = some c) :
    (p = 200 ∧ i = 511 ∧ c = 201) ∨ (p = 201 ∧ i = 510 ∧ c = 202) ∨
      (p = 202 ∧ i = 128 ∧ c = 203) ∨ p = 203 := by
  simp only [edgeMachine] at h
  split_ifs at h with h₀ h₁ h₂ h₃
  · exact .inl ⟨h₀.1, h₀.2, (Option.some.inj h).symm⟩
  · exact .inr (.inl ⟨h₁.1, h₁.2, (Option.some.inj h).symm⟩)
  · exact .inr (.inr (.inl ⟨h₂.1, h₂.2, (Option.some.inj h).symm⟩))
  · exact .inr (.inr (.inr h₃.1))
  · cases h

theorem edge_tree : BootTree edgeMachine (frame edgeMachine.cr3) := by
  refine bootTree_of_chain (b := 200) (i := 511) (j := 510) (k := 128) (c := 201)
    (d := 202) (e := 203) ?_ ?_ ?_ (by decide) fun q hq => ?_
  case refine_4 =>
    simp only [List.mem_cons, List.not_mem_nil, or_false] at hq
    exact ⟨show q < 1028 by omega, (Bitmap.test_fullBytes 128 q).trans (decide_eq_true (by omega))⟩
  all_goals
    intro x r hr
    have := edge_next hr
    omega

theorem edge_open (hfour : growthFor (rounded request) = 4) :
    ∀ j < (growthFor (rounded request)).toNat, Unblocked plain x86 edgeMachine.ram
      (frame edgeMachine.cr3) (growthPath edgeMachine j) := by
  rw [hfour]
  decide

theorem kmallocCall_edge (request : UInt64) (h : fuelReturns 1029 edgeMachine request = true) :
    kmallocCall edgeMachine request =
      some ((kmalloc edgeMachine request).1, (kmalloc edgeMachine request).2) := if_pos h

theorem kmalloc_mapped_iff_edge : ∃ t ptr, kmallocCall edgeMachine 100 = some (t, ptr) ∧ ptr ≠ 0 ∧
    ∀ o < (100 : UInt64).toNat, Translated t (ptr + UInt64.ofNat o) := by
  have hcall := kmallocCall_edge 100 (by decide +kernel)
  have hptr : (kmalloc edgeMachine 100).2 ≠ 0 := by decide +kernel
  refine ⟨_, _, hcall, hptr, ?_⟩
  apply (kmalloc_mapped_iff edge_sane edge_tree rfl (edge_open (by decide)) (by decide) hcall
    hptr).mpr
  exact .inr (by decide)

/-- No page is left for the page table of the fourth page. -/
theorem last_page_unmapped : ∃ t ptr, kmallocCall edgeMachine 16350 = some (t, ptr) ∧ ptr ≠ 0 ∧
    ¬ ∀ o < (16350 : UInt64).toNat, Translated t (ptr + UInt64.ofNat o) := by
  have hcall := kmallocCall_edge 16350 (by decide +kernel)
  refine ⟨_, _, hcall, by decide +kernel, fun hall => ?_⟩
  exact absurd (hall 16349 (by decide)) (by decide +kernel)

-- For a smaller block the header of the rest would be on the unmapped page.
example : fuelReturns 1029 edgeMachine 16300 = false := by decide +kernel

end NexusKernel.HeapMapped
